import Narsil.Allocator.RunSteps

/-!
# The laws of a move

What every step of a run keeps: a move drops its source only once enough other copies
are in sync, a partition has one move open at a time, a move adds one copy, and a new copy
goes where the deciders admit it.

**Strategy:** each law is proved of the rewrites of one pass. How many copies a partition
has when a move begins depends on the passes before: the trim leaves no surplus but where
the primary is draining, and a move that waits, waits through the whole run.
-/
namespace Narsil.Allocator

/-- The replicas that no move takes away and that are in sync. -/
def inSyncOutside (a : PartitionAssignment) : List NodeId :=
  (replicasOutsideMove a).filter fun id => id ∈ a.inSyncSet

/-- A partition has at most one move open, which takes one copy away. -/
def OneMove (a : PartitionAssignment) : Prop :=
  ∀ removing, a.removingReplicas = some removing → removing.length ≤ 1

/-- What one run reads besides the table. -/
structure RunInput (ν : Type) where
  nodes : List (NodeRegistration ν)
  replicationFactor : Nat
  constraints : AllocationConstraints
  sizes : PartitionSizes ν
  retainedNodeIds : List NodeId

variable {ν : Type}

def RunInput.deciders [Number ν] (input : RunInput ν) : List (Decider ν) :=
  createDeciderChain input.constraints input.sizes

/-- The colocation and the shard-count decider admit a node for a replica. -/
def Admits (constraints : AllocationConstraints) (context : DeciderContext ν) (target : NodeId) : Prop :=
  colocationDecider context target = .yes ∧
    createMaxShardsDecider constraints.maxShardsPerNode context target = .yes

/-- The laws of one step of a run. -/
structure Lawful (input : RunInput ν) (step : RunStep) : Prop where
  /-- A move drops its source only once as many other replicas as the factor are in sync. -/
  drops : step.pass ≠ .lostNodes → ∀ removing source, step.old.removingReplicas = some removing →
    source ∈ removing → source ∈ step.old.replicas → source ∉ step.new.replicas →
      input.replicationFactor ≤ (inSyncOutside step.old).length
  /-- A failover drops the source of a move only with its node, with the partition, or as the new primary. -/
  lost : step.pass = .lostNodes → ∀ removing source, step.old.removingReplicas = some removing →
    source ∈ removing → source ∈ step.old.replicas → source ∉ step.new.replicas →
      source ∉ registeredIds input.nodes ∨ step.new.primary = some source ∨ step.new.primary = none
  oneMove : OneMove step.old → OneMove step.new
  /-- No second move begins while one is open. -/
  noSecond : ∀ before after, step.old.removingReplicas = some before →
    step.new.removingReplicas = some after → ∀ source ∈ after, source ∈ before
  /-- A move that begins adds one copy at most, and keeps to one copy above the factor where
  the primary stays. -/
  opens : step.old.removingReplicas = none → step.new.removingReplicas ≠ none →
    step.new.replicas.length ≤ step.old.replicas.length + 1 ∧
      (¬ ledByDraining (drainingIds input.nodes) step.old →
        step.new.replicas.length ≤ input.replicationFactor + 1)
  /-- A new copy goes where the two deciders admit it; a primary that steps down keeps its copy. -/
  placed : ∀ target ∈ step.new.replicas, target ∉ step.old.replicas → step.old.primary ≠ some target →
    Admits input.constraints
      (replicaContext (step.table step.old) step.partitionId step.old (nodeMapOf (sortById input.nodes))) target
  /-- The lead goes to a replica, or a partition that never was active starts again empty. -/
  led : ∀ leader, step.new.primary = some leader → step.old.primary ≠ some leader →
    leader ∈ step.old.replicas ∨ (step.pass = .lostNodes ∧ neverReachedActive step.old = true)

theorem maxShardsDecider_mem [Number ν] (constraints : AllocationConstraints)
    (sizes : PartitionSizes ν) :
    createMaxShardsDecider constraints.maxShardsPerNode ∈ createDeciderChain constraints sizes := by
  simp [createDeciderChain]

theorem colocationDecider_ne_throttle (context : DeciderContext ν) (target : NodeId) :
    colocationDecider context target ≠ .throttle := by
  rw [colocationDecider]
  cases context.currentAssignment with
  | none => simp
  | some current =>
    cases context.role with
    | primary => simp only; split <;> simp
    | replica => simp only; split <;> (try split) <;> simp

theorem createMaxShardsDecider_ne_throttle (limit : Option Nat) (context : DeciderContext ν) (target : NodeId) :
    createMaxShardsDecider limit context target ≠ .throttle := by
  cases limit with
  | none => simp [createMaxShardsDecider]
  | some limit =>
    simp only [createMaxShardsDecider]
    split <;> simp

theorem eq_yes {verdict : DeciderVerdict} (admitted : verdict ≠ .no) (outright : verdict ≠ .throttle) :
    verdict = .yes := by
  cases verdict with
  | yes => rfl
  | no => exact absurd rfl admitted
  | throttle => exact absurd rfl outright

theorem findBestNode_admits [Number ν] {candidates : List NodeId} {weights : List (NodeWeight ν)} {input : RunInput ν}
    {context : DeciderContext ν} {chosen : NodeId}
    (found : findBestNode candidates weights input.deciders context = some chosen) :
    Admits input.constraints context chosen := by
  obtain ⟨_, admitted⟩ := findBestNode_some found
  have apart := admitted colocationDecider (colocationDecider_mem _ _)
  have room := admitted _ (maxShardsDecider_mem input.constraints input.sizes)
  exact ⟨eq_yes apart (colocationDecider_ne_throttle _ _), eq_yes room (createMaxShardsDecider_ne_throttle _ _ _)⟩

/-- A rewrite that adds no copy, keeps the lead and opens no move, and drops the source of a
move only once enough other copies are in sync. -/
theorem Lawful.of_fewer {input : RunInput ν} {step : RunStep} (pass : step.pass ≠ .lostNodes)
    (replicas : ∀ n ∈ step.new.replicas, n ∈ step.old.replicas) (primary : step.new.primary = step.old.primary)
    (removing : ∀ after, step.new.removingReplicas = some after →
      ∃ before, step.old.removingReplicas = some before ∧ after.Sublist before)
    (drops : ∀ removing source, step.old.removingReplicas = some removing → source ∈ removing →
      source ∈ step.old.replicas → source ∉ step.new.replicas →
        input.replicationFactor ≤ (inSyncOutside step.old).length) : Lawful input step where
  drops := fun _ => drops
  lost := fun lost => absurd lost pass
  oneMove := by
    intro one after listed
    obtain ⟨before, listed', fewer⟩ := removing after listed
    exact Nat.le_trans fewer.length_le (one before listed')
  noSecond := by
    intro before after listed listed' source member
    obtain ⟨before', same, fewer⟩ := removing after listed'
    rw [listed, Option.some.injEq] at same
    subst same
    exact fewer.subset member
  opens := by
    intro quiet opened
    obtain ⟨after, listed⟩ := Option.ne_none_iff_exists'.mp opened
    obtain ⟨before, listed', _⟩ := removing after listed
    rw [quiet] at listed'
    cases listed'
  placed := fun target held fresh => absurd (replicas target held) fresh
  led := fun leader leads moved => absurd (primary ▸ leads) moved

theorem Lawful.same {input : RunInput ν} {step : RunStep} (pass : step.pass ≠ .lostNodes)
    (same : step.new = step.old) : Lawful input step := by
  apply Lawful.of_fewer pass
  · exact fun n held => same ▸ held
  · rw [same]
  · exact fun after listed => ⟨after, same ▸ listed, .refl _⟩
  · exact fun _ _ _ _ held gone => absurd (same ▸ held) gone

theorem Lawful.of_added {input : RunInput ν} {step : RunStep} {target : NodeId}
    (added : step.new = { step.old with replicas := step.old.replicas ++ [target] })
    (admitted : Admits input.constraints
      (replicaContext (step.table step.old) step.partitionId step.old (nodeMapOf (sortById input.nodes))) target) :
    Lawful input step where
  drops := by
    intro _ _ source _ _ held gone
    rw [added] at gone
    exact absurd (List.mem_append_left _ held) gone
  lost := by
    intro _ _ source _ _ held gone
    rw [added] at gone
    exact absurd (List.mem_append_left _ held) gone
  oneMove := by
    intro one removing listed
    rw [added] at listed
    exact one removing listed
  noSecond := by
    intro before after listed listed' source member
    rw [added] at listed'
    rw [show step.old.removingReplicas = some after from listed', Option.some.injEq] at listed
    exact listed ▸ member
  opens := by
    intro quiet opened
    rw [added] at opened
    exact absurd quiet opened
  placed := by
    intro n held fresh _
    rw [added] at held
    rcases List.mem_append.mp held with old | here
    · exact absurd old fresh
    · rw [List.mem_singleton] at here
      exact here ▸ admitted
  led := by
    intro leader leads moved
    rw [added] at leads
    exact absurd leads moved

theorem Lawful.of_opened {input : RunInput ν} {step : RunStep} {source : NodeId} {added : Option NodeId}
    (same : step.new =
      { step.old with replicas := step.old.replicas ++ added.toList, removingReplicas := some [source] })
    (quiet : step.old.removingReplicas = none)
    (fits : ¬ ledByDraining (drainingIds input.nodes) step.old →
      step.old.replicas.length ≤ input.replicationFactor)
    (admitted : ∀ target, added = some target → Admits input.constraints
      (replicaContext (step.table step.old) step.partitionId step.old (nodeMapOf (sortById input.nodes))) target) :
    Lawful input step where
  drops := by
    intro _ removing _ listed
    rw [quiet] at listed
    cases listed
  lost := by
    intro _ removing _ listed
    rw [quiet] at listed
    cases listed
  oneMove := by
    intro _ removing listed
    rw [same, Option.some.injEq] at listed
    rw [← listed]
    exact Nat.le_refl 1
  noSecond := by
    intro before _ listed
    rw [quiet] at listed
    cases listed
  opens := by
    intro _ _
    have one : added.toList.length ≤ 1 := by cases added <;> simp
    rw [same, List.length_append]
    constructor
    · omega
    · intro stays
      have := fits stays
      omega
  placed := by
    intro n held fresh _
    rw [same] at held
    rcases List.mem_append.mp held with old | here
    · exact absurd old fresh
    · exact admitted n (Option.mem_toList.mp here)
  led := by
    intro leader leads moved
    rw [same] at leads
    exact absurd leads moved

theorem Lawful.of_handOver {input : RunInput ν} {step : RunStep} {successor leader : NodeId}
    (same : step.new = handOverTo step.old successor leader) (led : step.old.primary = some leader)
    (held : successor ∈ step.old.replicas) (staying : successor ∉ step.old.removingReplicas.getD []) :
    Lawful input step where
  drops := by
    intro _ removing source listed member has gone
    rw [listed, Option.getD_some] at staying
    have other : source ≠ successor := fun eq => staying (eq ▸ member)
    rw [same] at gone
    apply absurd _ gone
    apply List.mem_append_left
    simpa using ⟨has, other⟩
  lost := by
    intro _ removing source listed member has gone
    rw [listed, Option.getD_some] at staying
    have other : source ≠ successor := fun eq => staying (eq ▸ member)
    rw [same] at gone
    apply absurd _ gone
    apply List.mem_append_left
    simpa using ⟨has, other⟩
  oneMove := by
    intro one removing listed
    rw [same] at listed
    exact one removing listed
  noSecond := by
    intro before after listed listed' source member
    rw [same] at listed'
    rw [show step.old.removingReplicas = some after from listed', Option.some.injEq] at listed
    exact listed ▸ member
  opens := by
    intro quiet opened
    rw [same] at opened
    exact absurd quiet opened
  placed := by
    intro n has fresh apart
    rw [same] at has
    rcases List.mem_append.mp has with old | here
    · exact absurd (List.mem_filter.mp old).1 fresh
    · rw [List.mem_singleton] at here
      exact absurd (here ▸ led) apart
  led := by
    intro n leads _
    rw [same, handOverTo, Option.some.injEq] at leads
    exact .inl (leads ▸ held)

/-- What a failover leaves of the copies of a partition. -/
structure LosesOnly (registered : List NodeId) (old new : PartitionAssignment) : Prop where
  removing : ∀ after, new.removingReplicas = some after →
    ∃ before, old.removingReplicas = some before ∧ after.Sublist before
  held : ∀ n ∈ new.replicas, n ∈ old.replicas ∨ old.primary = some n
  kept : ∀ n ∈ old.replicas, n ∈ registered → n ∈ new.replicas ∨ new.primary = some n ∨ new.primary = none

theorem LosesOnly.refl {registered : List NodeId} (a : PartitionAssignment) : LosesOnly registered a a where
  removing := fun after listed => ⟨after, listed, .refl _⟩
  held := fun _ held => .inl held
  kept := fun _ held _ => .inl held

theorem keepRemovingReplicasHeld_removing {a : PartitionAssignment} {after : List NodeId}
    (listed : (keepRemovingReplicasHeld a).removingReplicas = some after) :
    ∃ before, a.removingReplicas = some before ∧ after.Sublist before := by
  rw [keepRemovingReplicasHeld] at listed
  simp only at listed
  split at listed
  next left =>
    rw [Option.some.injEq] at listed
    subst listed
    cases listed : a.removingReplicas with
    | none => simp [listed] at left
    | some before => exact ⟨before, rfl, List.filter_sublist⟩
  · cases listed

theorem withoutDeparted_losesOnly {registered retained : List NodeId} (primary : Option NodeId)
    (a : PartitionAssignment) : LosesOnly registered a (withoutDeparted registered retained primary a) where
  removing := by
    intro after listed
    rw [withoutDeparted] at listed
    obtain ⟨before, listed', fewer⟩ := keepRemovingReplicasHeld_removing listed
    exact ⟨before, listed', fewer⟩
  held := fun _ held => .inl (List.mem_filter.mp held).1
  kept := fun n held active => .inl (List.mem_filter.mpr ⟨held, decide_eq_true (.inl active)⟩)

theorem markUnassigned_losesOnly {registered : List NodeId} {old : PartitionAssignment} (a : PartitionAssignment)
    (lastPrimary : Option NodeId) (lastInSyncSet : List NodeId) :
    LosesOnly registered old (markUnassigned a lastPrimary lastInSyncSet) where
  removing := by simp [markUnassigned]
  held := by simp [markUnassigned]
  kept := fun _ _ _ => .inr (.inr rfl)

theorem promoted_losesOnly {registered retained : List NodeId} {a : PartitionAssignment}
    {lastPrimary successor : NodeId} (led : a.primary = some lastPrimary) :
    LosesOnly registered a (promoted retained lastPrimary successor (withoutDeparted registered retained none a)) := by
  have departed : LosesOnly registered a (withoutDeparted registered retained none a) := withoutDeparted_losesOnly none a
  exact
  { removing := by
      intro after listed
      obtain ⟨middle, listed', fewer⟩ := keepRemovingReplicasHeld_removing listed
      obtain ⟨before, listed'', fewer'⟩ := departed.removing middle listed'
      exact ⟨before, listed'', fewer.trans fewer'⟩
    held := by
      intro n member
      rcases List.mem_append.mp member with kept | back
      · exact departed.held n (List.mem_filter.mp kept).1
      · have same := (List.mem_filter.mp back).1
        rw [Option.toList_some, List.mem_singleton] at same
        exact .inr (same ▸ led)
    kept := by
      intro n held active
      by_cases same : n = successor
      · exact .inr (.inl (same ▸ rfl))
      · rcases departed.kept n held active with stays | leads | unled
        · exact .inl (List.mem_append_left _ (List.mem_filter.mpr ⟨stays, decide_eq_true same⟩))
        · cases leads
        · exact .inl (List.mem_append_left _ (List.mem_filter.mpr
            ⟨List.mem_filter.mpr ⟨held, decide_eq_true (.inl active)⟩, decide_eq_true same⟩)) }

section Passes
variable [Number ν]

theorem restartAsEmptyCopy_losesOnly {registered draining : List NodeId} {counts : List (NodeId × Nat)}
    {shares : List (NodeId × ν)} (a : PartitionAssignment) :
    LosesOnly registered a (restartAsEmptyCopy a registered draining counts shares).1 := by
  rw [restartAsEmptyCopy]
  simp only
  split
  · exact .refl a
  next chosen found =>
    exact
    { removing := by simp
      held := fun n member => .inl (List.mem_filter.mp member).1
      kept := by
        intro n held active
        by_cases same : n = chosen
        · exact .inr (.inl (same ▸ rfl))
        · exact .inl (List.mem_filter.mpr ⟨held, decide_eq_true ⟨same, active⟩⟩) }

theorem handleLostNode_losesOnly (registered retained : List NodeId) (shares : List (NodeId × ν))
    (draining : List NodeId) (counts : List (NodeId × Nat)) {a : PartitionAssignment} (h : Structured a) :
    LosesOnly registered a (handleLostNode registered retained shares draining counts a).1 := by
  rw [handleLostNode]
  split
  · exact .refl a
  next served =>
    cases led : a.primary with
    | none => exact absurd (h.unassigned_iff.mpr led) served
    | some q =>
      simp only
      by_cases active : q ∈ registered
      · have departed : LosesOnly registered a (withoutDeparted registered retained (some q) a) :=
          withoutDeparted_losesOnly (some q) a
        simpa [active, withoutDeparted, keepRemovingReplicasHeld] using departed
      · simp only [active, not_false_eq_true, decide_true, Bool.true_and, Bool.not_true, Bool.false_eq_true,
          if_true, if_false]
        split
        · exact restartAsEmptyCopy_losesOnly a
        · split
          · exact markUnassigned_losesOnly _ _ _
          next successor found =>
            exact promoted_losesOnly led

theorem handleLostNode_lawful {input : RunInput ν} {step : RunStep} (pass : step.pass = .lostNodes)
    (h : Structured step.old) {draining : List NodeId} {counts : List (NodeId × Nat)}
    (same : step.new = (handleLostNode (registeredIds input.nodes) input.retainedNodeIds
      (capacityShares (sortById input.nodes)) draining counts step.old).1) : Lawful input step := by
  have loses := handleLostNode_losesOnly (registeredIds input.nodes) input.retainedNodeIds
    (capacityShares (sortById input.nodes)) draining counts h
  have placed := handleLostNode_placed (registeredIds input.nodes) input.retainedNodeIds
    (capacityShares (sortById input.nodes)) draining counts h
  rw [← same] at loses placed
  exact
  { drops := fun other => absurd pass other
    lost := by
      intro _ removing source _ _ held gone
      by_cases active : source ∈ registeredIds input.nodes
      · rcases loses.kept source held active with stays | moved
        · exact absurd stays gone
        · exact .inr moved
      · exact .inl active
    oneMove := by
      intro one after listed
      obtain ⟨before, listed', fewer⟩ := loses.removing after listed
      exact Nat.le_trans fewer.length_le (one before listed')
    noSecond := by
      intro before after listed listed' source member
      obtain ⟨before', eq, fewer⟩ := loses.removing after listed'
      rw [listed, Option.some.injEq] at eq
      subst eq
      exact fewer.subset member
    opens := by
      intro quiet opened
      obtain ⟨after, listed⟩ := Option.ne_none_iff_exists'.mp opened
      obtain ⟨before, listed', _⟩ := loses.removing after listed
      rw [quiet] at listed'
      cases listed'
    placed := by
      intro target held fresh apart
      rcases loses.held target held with old | led
      · exact absurd old fresh
      · exact absurd led apart
    led := by
      intro leader leads moved
      obtain ⟨_, _, source⟩ := placed.changed leader leads moved
      rcases source with inSync | ⟨never, _⟩
      · exact .inl (h.inSync_held leader inSync)
      · exact .inr ⟨pass, never⟩ }

end Passes

end Narsil.Allocator
