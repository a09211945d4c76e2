import Narsil.Allocator.MoveLaws

/-!
# The moves of each pass

Every pass rewrites by the laws, and keeps what the passes behind it need: after the first
settling a move that is open waits for copies to be in sync, and after the trim a partition
whose primary stays has no surplus.
-/
namespace Narsil.Allocator

/-- An open move waits: its target is there, and too few copies are in sync. -/
def Waiting (replicationFactor : Nat) (a : PartitionAssignment) : Prop :=
  a.removingReplicas ≠ none →
    (inSyncOutside a).length < replicationFactor ∧ replicationFactor ≤ (replicasOutsideMove a).length

/-- A partition that no move changes has no surplus, where its primary stays. -/
def Trimmed (replicationFactor : Nat) (draining : List NodeId) (a : PartitionAssignment) : Prop :=
  a.removingReplicas = none → ¬ ledByDraining draining a → a.replicas.length ≤ replicationFactor

/-- A move is one that waits, or one that has just begun. -/
def Begun (replicationFactor : Nat) (draining : List NodeId) (a : PartitionAssignment) : Prop :=
  Waiting replicationFactor a ∨ (¬ ledByDraining draining a → a.replicas.length ≤ replicationFactor + 1)

/-- What holds of every assignment between two passes. -/
structure Tidy (a : PartitionAssignment) : Prop where
  structured : Structured a
  oneMove : OneMove a

variable {ν : Type} {replicationFactor : Nat} {draining : List NodeId} {a : PartitionAssignment}

theorem replicasOutsideMove_of_none (quiet : a.removingReplicas = none) : replicasOutsideMove a = a.replicas := by
  rw [replicasOutsideMove, quiet]

theorem replicasOutsideMove_of_some {listed : List NodeId} (open_ : a.removingReplicas = some listed) :
    replicasOutsideMove a = a.replicas.filter fun id => id ∉ listed := by
  rw [replicasOutsideMove, open_]

theorem mem_replicasOutsideMove {n : NodeId} (outside : n ∈ replicasOutsideMove a) : n ∈ a.replicas := by
  rw [replicasOutsideMove] at outside
  split at outside
  · exact outside
  · exact (List.mem_filter.mp outside).1

theorem not_removing_of_outside {n : NodeId} (outside : n ∈ replicasOutsideMove a) :
    n ∉ a.removingReplicas.getD [] := by
  rw [replicasOutsideMove] at outside
  split at outside
  next quiet => simp [quiet]
  next listed open_ =>
    rw [open_, Option.getD_some]
    exact of_decide_eq_true (List.mem_filter.mp outside).2

theorem Tidy.length_outside (tidy : Tidy a) (open_ : a.removingReplicas ≠ none) :
    a.replicas.length = (replicasOutsideMove a).length + 1 := by
  obtain ⟨listed, eq⟩ := Option.ne_none_iff_exists'.mp open_
  have short := tidy.oneMove listed eq
  cases listed with
  | nil => exact absurd eq tidy.structured.removing_nonempty
  | cons source others =>
    cases others with
    | cons second others => simp at short
    | nil =>
      have held := tidy.structured.removing_held _ eq source List.mem_cons_self
      have outside : replicasOutsideMove a = a.replicas.erase source := by
        rw [replicasOutsideMove_of_some eq, tidy.structured.replicas_nodup.erase_eq_filter]
        apply List.filter_congr
        intro id _
        by_cases same : id = source <;> simp [same]
      rw [outside, List.length_erase_of_mem held]
      have := List.length_pos_of_mem held
      omega

theorem settleMove_cases (h : Structured a) :
    (a.removingReplicas = none ∧ settleMove replicationFactor a = a) ∨
    (∃ listed, a.removingReplicas = some listed ∧ replicationFactor ≤ (inSyncOutside a).length ∧
      settleMove replicationFactor a =
        { a with
          removingReplicas := none
          replicas := replicasOutsideMove a
          inSyncSet := a.inSyncSet.filter fun id => id ∉ listed }) ∨
    (a.removingReplicas ≠ none ∧ (inSyncOutside a).length < replicationFactor ∧
      replicationFactor ≤ (replicasOutsideMove a).length ∧ settleMove replicationFactor a = a) ∨
    (a.removingReplicas ≠ none ∧ (replicasOutsideMove a).length < replicationFactor ∧
      settleMove replicationFactor a = { a with removingReplicas := none }) := by
  cases open_ : a.removingReplicas with
  | none => exact .inl ⟨rfl, by rw [settleMove, open_]⟩
  | some listed =>
    right
    have whole : (listed.filter fun id => id ∈ a.replicas) = listed := by
      apply List.filter_eq_self.mpr
      intro id member
      exact decide_eq_true (h.removing_held listed open_ id member)
    have some_left : listed.length ≠ 0 := by
      intro none_left
      rw [List.length_eq_zero_iff.mp none_left] at open_
      exact h.removing_nonempty open_
    rw [settleMove, open_]
    simp only [whole, if_neg some_left, inSyncOutside, replicasOutsideMove_of_some open_]
    split
    next enough => exact .inl ⟨listed, rfl, enough, rfl⟩
    next few =>
      right
      split
      next there =>
        refine .inl ⟨by simp, Nat.lt_of_not_le few, there, ?_⟩
        rw [← open_]
      next gone => exact .inr ⟨by simp, Nat.lt_of_not_le gone, rfl⟩

theorem settle_lawful {input : RunInput ν} {step : RunStep} (pass : step.pass ≠ .lostNodes)
    (h : Structured step.old) (same : step.new = settleMove input.replicationFactor step.old) :
    Lawful input step := by
  rcases @settleMove_cases input.replicationFactor _ h with
    ⟨_, stays⟩ | ⟨listed, _, enough, dropped⟩ | ⟨_, _, _, stays⟩ | ⟨_, _, cancelled⟩
  · exact Lawful.same pass (same.trans stays)
  · rw [dropped] at same
    apply Lawful.of_fewer pass
    · intro n held
      rw [same] at held
      exact mem_replicasOutsideMove held
    · rw [same]
    · intro after opened
      rw [same] at opened
      cases opened
    · exact fun _ _ _ _ _ _ => enough
  · exact Lawful.same pass (same.trans stays)
  · rw [cancelled] at same
    apply Lawful.of_fewer pass
    · intro n held
      rw [same] at held
      exact held
    · rw [same]
    · intro after opened
      rw [same] at opened
      cases opened
    · intro _ source _ _ held gone
      rw [same] at gone
      exact absurd held gone

theorem settle_waiting (h : Structured a) : Waiting replicationFactor (settleMove replicationFactor a) := by
  intro open_
  rcases @settleMove_cases replicationFactor _ h with
    ⟨quiet, stays⟩ | ⟨listed, _, _, dropped⟩ | ⟨_, few, there, stays⟩ | ⟨_, _, cancelled⟩
  · rw [stays] at open_
    exact absurd quiet open_
  · rw [dropped] at open_
    exact absurd rfl open_
  · rw [stays]
    exact ⟨few, there⟩
  · rw [cancelled] at open_
    exact absurd rfl open_

theorem settle_trimmed (tidy : Tidy a) (trimmed : Trimmed replicationFactor draining a)
    (begun : Begun replicationFactor draining a) :
    Trimmed replicationFactor draining (settleMove replicationFactor a) := by
  intro quiet stays
  rcases @settleMove_cases replicationFactor _ tidy.structured with
    ⟨none, same⟩ | ⟨listed, open_, enough, dropped⟩ | ⟨open_, _, _, same⟩ | ⟨open_, gone, cancelled⟩
  · rw [same] at stays ⊢
    exact trimmed none stays
  · have some_open : a.removingReplicas ≠ none := by simp [open_]
    have size := tidy.length_outside some_open
    rw [dropped] at stays ⊢
    rcases begun with waiting | fresh
    · have := (waiting some_open).1
      omega
    · have := fresh stays
      simp only
      omega
  · rw [same] at quiet
    exact absurd quiet open_
  · have size := tidy.length_outside open_
    rw [cancelled]
    simp only
    omega

theorem settle_tidy (tidy : Tidy a) : Tidy (settleMove replicationFactor a) where
  structured := (settleMove_reshapes replicationFactor a).structured tidy.structured
  oneMove := by
    intro removing listed
    rcases @settleMove_cases replicationFactor _ tidy.structured with
      ⟨_, same⟩ | ⟨_, _, _, dropped⟩ | ⟨_, _, _, same⟩ | ⟨_, _, cancelled⟩
    · exact tidy.oneMove removing (same ▸ listed)
    · rw [dropped] at listed
      cases listed
    · exact tidy.oneMove removing (same ▸ listed)
    · rw [cancelled] at listed
      cases listed

section Passes
variable [Number ν] {input : RunInput ν} {step : RunStep}

theorem handOverDrainingLead_cases (context : PlacementContext ν) (shares : List (NodeId × ν))
    (whole : PartitionAssignment → Assignments) (counts : List (NodeId × Nat)) (partitionId : Nat)
    (a : PartitionAssignment) :
    (handOverDrainingLead context shares whole counts partitionId a).1 = a ∨
    (∃ target, a.removingReplicas = none ∧ ledByDraining context.drainingNodeIds a ∧
      placeReplica (whole a) partitionId a context = some target ∧
      (handOverDrainingLead context shares whole counts partitionId a).1 =
        { a with replicas := a.replicas ++ [target] }) ∨
    (∃ successor leader, a.primary = some leader ∧ a.state = .active ∧ successor ∈ replicasOutsideMove a ∧
      successor ∈ a.inSyncSet ∧
      (handOverDrainingLead context shares whole counts partitionId a).1 = handOverTo a successor leader) := by
  rw [handOverDrainingLead]
  cases led : a.primary with
  | none => exact .inl rfl
  | some leader =>
    simp only
    split
    · exact .inl rfl
    next leaves =>
      rw [not_or, not_not, not_not] at leaves
      split
      next none =>
        rw [seedSuccessor]
        split
        · exact .inl rfl
        next quiet =>
          split
          · exact .inl rfl
          · split
            · exact .inl rfl
            next target placed =>
              exact .inr (.inl ⟨target, not_not.mp quiet, ⟨leader, led, leaves.2⟩, placed, by simp [led]⟩)
      next successor found =>
        have member := List.mem_filter.mp (leastLoadedCandidate_mem found)
        have inSync := (of_decide_eq_true member.2).1
        exact .inr (.inr ⟨successor, leader, rfl, leaves.1, member.1, inSync, rfl⟩)

/-- The context the passes of a run place copies in. -/
abbrev RunInput.placement (input : RunInput ν) : PlacementContext ν :=
  placementContext (sortById input.nodes) input.deciders

theorem handOver_lawful (pass : step.pass ≠ .lostNodes) {shares : List (NodeId × ν)} {counts : List (NodeId × Nat)}
    (same : step.new = (handOverDrainingLead input.placement shares step.table counts step.partitionId step.old).1) :
    Lawful input step := by
  rcases handOverDrainingLead_cases input.placement shares step.table counts step.partitionId step.old with
    stays | ⟨target, _, _, placed, added⟩ | ⟨successor, leader, led, _, outside, _, handed⟩
  · exact Lawful.same pass (same.trans stays)
  · exact Lawful.of_added (same.trans added) (findBestNode_admits placed)
  · exact Lawful.of_handOver (same.trans handed) led (mem_replicasOutsideMove outside)
      (not_removing_of_outside outside)

theorem handOverTo_outside (h : Structured a) {successor leader : NodeId} (led : a.primary = some leader) :
    replicasOutsideMove (handOverTo a successor leader) =
        (replicasOutsideMove a).filter (fun id => id ≠ successor) ++ [leader] ∧
      inSyncOutside (handOverTo a successor leader) =
        (inSyncOutside a).filter (fun id => id ≠ successor) ++ [leader] := by
  have apart := h.primary_apart leader led
  have outside : replicasOutsideMove (handOverTo a successor leader) =
      (replicasOutsideMove a).filter (fun id => id ≠ successor) ++ [leader] := by
    cases open_ : a.removingReplicas with
    | none =>
      have quiet : (handOverTo a successor leader).removingReplicas = none := open_
      rw [replicasOutsideMove_of_none quiet, replicasOutsideMove_of_none open_]
      rfl
    | some listed =>
      have moves : (handOverTo a successor leader).removingReplicas = some listed := open_
      have free : leader ∉ listed := fun member => apart (h.removing_held listed open_ leader member)
      rw [replicasOutsideMove_of_some moves, replicasOutsideMove_of_some open_, handOverTo, List.filter_append,
        List.filter_filter, List.filter_filter]
      congr 1
      · apply List.filter_congr
        intro id _
        exact Bool.and_comm _ _
      · simp [free]
  constructor
  · exact outside
  · rw [inSyncOutside, outside, inSyncOutside, List.filter_append, List.filter_filter, List.filter_filter]
    congr 1
    · apply List.filter_congr
      intro id member
      have other : id ≠ leader := fun eq => apart (eq ▸ mem_replicasOutsideMove member)
      by_cases gone : id = successor <;> simp [handOverTo, gone, other]
    · simp [handOverTo]

theorem handOver_keeps {context : PlacementContext ν} (chain : colocationDecider ∈ context.deciders)
    (shares : List (NodeId × ν)) (whole : PartitionAssignment → Assignments) (counts : List (NodeId × Nat))
    (partitionId : Nat) (tidy : Tidy a) (waiting : Waiting replicationFactor a) :
    Tidy (handOverDrainingLead context shares whole counts partitionId a).1 ∧
      Waiting replicationFactor (handOverDrainingLead context shares whole counts partitionId a).1 := by
  rcases handOverDrainingLead_cases context shares whole counts partitionId a with
    same | ⟨target, quiet, ⟨leader, led, _⟩, placed, added⟩ | ⟨successor, leader, led, active, outside, inSync, handed⟩
  · rw [same]
    exact ⟨tidy, waiting⟩
  · have apart := findBestNode_apart chain placed
    have step : Reshapes a { a with replicas := a.replicas ++ [target] } :=
      reshapes_add (by simp [led]) apart.2.1 apart.2.2 Structured.removing_spec
    rw [added]
    exact ⟨⟨step.structured tidy.structured, tidy.oneMove⟩, fun open_ => absurd quiet open_⟩
  · have may : MaySucceed a successor leader := ⟨led, active, inSync, not_removing_of_outside outside⟩
    rw [handed]
    refine ⟨⟨handOverTo_structured tidy.structured may, tidy.oneMove⟩, ?_⟩
    intro open_
    obtain ⟨few, there⟩ := waiting open_
    obtain ⟨outside_, inSync_⟩ := @handOverTo_outside a tidy.structured successor leader led
    -- The successor leaves the copies outside the move, and the old primary joins them.
    have swapped {ids : List NodeId} (nodup : ids.Nodup) (member : successor ∈ ids) :
        (ids.filter (fun id => id ≠ successor) ++ [leader]).length = ids.length := by
      have erased : ids.erase successor = ids.filter fun id => id ≠ successor := by
        rw [nodup.erase_eq_filter]
        apply List.filter_congr
        intro id _
        by_cases same : id = successor <;> simp [same]
      rw [← erased, List.length_append, List.length_erase_of_mem member, List.length_singleton]
      have := List.length_pos_of_mem member
      omega
    have nodup : (replicasOutsideMove a).Nodup := by
      rw [replicasOutsideMove]
      split
      · exact tidy.structured.replicas_nodup
      · exact tidy.structured.replicas_nodup.filter _
    have mine : successor ∈ inSyncOutside a := List.mem_filter.mpr ⟨outside, decide_eq_true inSync⟩
    have nodup' : (inSyncOutside a).Nodup := nodup.filter _
    rw [outside_, inSync_, swapped nodup outside, swapped nodup' mine]
    exact ⟨few, there⟩

theorem trimSurplus_keeps (sortedNodes : List (NodeRegistration ν)) (draining : List NodeId)
    (whole : PartitionAssignment → Assignments) (rounds : Nat) (a : PartitionAssignment) :
    (trimSurplus sortedNodes replicationFactor draining whole rounds a).removingReplicas = a.removingReplicas ∧
      ∀ n ∈ (trimSurplus sortedNodes replicationFactor draining whole rounds a).replicas, n ∈ a.replicas := by
  induction rounds generalizing a with
  | zero => exact ⟨rfl, fun _ held => held⟩
  | succ rounds ih =>
    rw [trimSurplus]
    split
    · simp only
      split
      · exact ⟨rfl, fun _ held => held⟩
      next index _ =>
        obtain ⟨removing, fewer⟩ := ih (dropReplica a index)
        exact ⟨removing, fun n held => List.mem_of_mem_eraseIdx (fewer n held)⟩
    · exact ⟨rfl, fun _ held => held⟩

/-- What the trim makes of one partition. -/
def trimOne (sortedNodes : List (NodeRegistration ν)) (replicationFactor : Nat) (draining : List NodeId)
    (whole : PartitionAssignment → Assignments) (a : PartitionAssignment) : PartitionAssignment :=
  if a.removingReplicas ≠ none ∨ ledByDraining draining a then a
  else trimSurplus sortedNodes replicationFactor draining whole a.replicas.length a

theorem trim_lawful (pass : step.pass ≠ .lostNodes)
    (same : step.new = trimOne (sortById input.nodes) input.replicationFactor draining step.table step.old) :
    Lawful input step := by
  rw [trimOne] at same
  split at same
  · exact Lawful.same pass same
  next trims =>
    rw [not_or, not_not] at trims
    obtain ⟨removing, fewer⟩ := @trimSurplus_keeps _ input.replicationFactor _ (sortById input.nodes) draining
      step.table step.old.replicas.length step.old
    have reshapes := trimSurplus_reshapes (sortById input.nodes) input.replicationFactor draining step.table
      step.old.replicas.length step.old trims.1
    rw [← same] at removing fewer reshapes
    apply Lawful.of_fewer pass fewer reshapes.primary
    · intro after open_
      rw [removing, trims.1] at open_
      cases open_
    · intro removing _ open_
      rw [trims.1] at open_
      cases open_

theorem trim_keeps (sortedNodes : List (NodeRegistration ν)) (whole : PartitionAssignment → Assignments)
    (tidy : Tidy a) (waiting : Waiting replicationFactor a) :
    Tidy (trimOne sortedNodes replicationFactor draining whole a) ∧
      Waiting replicationFactor (trimOne sortedNodes replicationFactor draining whole a) ∧
      Trimmed replicationFactor draining (trimOne sortedNodes replicationFactor draining whole a) := by
  rw [trimOne]
  split
  next kept =>
    refine ⟨tidy, waiting, ?_⟩
    intro quiet stays
    rcases kept with open_ | leaves
    · exact absurd quiet open_
    · exact absurd leaves stays
  next trims =>
    rw [not_or, not_not] at trims
    obtain ⟨removing, _⟩ := @trimSurplus_keeps _ replicationFactor _ sortedNodes draining whole a.replicas.length a
    have reshapes := trimSurplus_reshapes sortedNodes replicationFactor draining whole a.replicas.length a trims.1
    have quiet := removing.trans trims.1
    refine ⟨⟨reshapes.structured tidy.structured, ?_⟩, ?_, ?_⟩
    · intro listed open_
      rw [quiet] at open_
      cases open_
    · exact fun open_ => absurd quiet open_
    · intro _ _
      exact trimSurplus_length sortedNodes replicationFactor draining whole _ a (Nat.le_refl _)

/-- What holds of an assignment from the trim until a move begins. -/
structure Settled (replicationFactor : Nat) (draining : List NodeId) (a : PartitionAssignment) : Prop where
  tidy : Tidy a
  waiting : Waiting replicationFactor a
  trimmed : Trimmed replicationFactor draining a

theorem fill_step {context : PlacementContext ν} (chain : colocationDecider ∈ context.deciders)
    {whole : PartitionAssignment → Assignments} {partitionId : Nat} {target : NodeId}
    (settled : Settled replicationFactor draining a) (served : a.primary ≠ none)
    (short : (replicasOutsideMove a).length < replicationFactor)
    (placed : placeReplica (whole a) partitionId a context = some target) :
    Settled replicationFactor draining { a with replicas := a.replicas ++ [target] } := by
  have apart := findBestNode_apart chain placed
  have reshapes : Reshapes a { a with replicas := a.replicas ++ [target] } :=
    reshapes_add served apart.2.1 apart.2.2 Structured.removing_spec
  have quiet : a.removingReplicas = none := by
    cases open_ : a.removingReplicas with
    | none => rfl
    | some _ =>
      have := (settled.waiting (by simp [open_])).2
      omega
  refine ⟨⟨reshapes.structured settled.tidy.structured, settled.tidy.oneMove⟩, ?_, ?_⟩
  · exact fun open_ => absurd quiet open_
  · intro _ _
    rw [replicasOutsideMove_of_none quiet] at short
    simp only [List.length_append, List.length_singleton]
    omega

theorem fillRounds_keeps {context : PlacementContext ν} (chain : colocationDecider ∈ context.deciders)
    (whole : PartitionAssignment → Assignments) (partitionId rounds : Nat)
    (settled : Settled replicationFactor draining a) (served : a.primary ≠ none) :
    Settled replicationFactor draining (fillSlots context replicationFactor partitionId whole rounds a) := by
  induction rounds generalizing a with
  | zero => exact settled
  | succ rounds ih =>
    rw [fillSlots]
    split
    next short =>
      split
      · exact settled
      next target placed => exact ih (fill_step chain settled served short placed) served
    next => exact settled

theorem fillRounds_lawful (done : Assignments) (partitionId : Nat) (rest : Assignments) (rounds : Nat)
    (a : PartitionAssignment) :
    ∀ step ∈ stepsThrough .fill done partitionId rest a (fillRounds input.placement input.replicationFactor
      partitionId (fun value => done ++ (partitionId, value) :: rest) rounds a), Lawful input step := by
  induction rounds generalizing a with
  | zero => exact fun step member => absurd member List.not_mem_nil
  | succ rounds ih =>
    rw [fillRounds]
    split
    · split
      · exact fun step member => absurd member List.not_mem_nil
      next target placed =>
        intro step member
        rcases List.mem_cons.mp member with rfl | later
        · exact Lawful.of_added rfl (findBestNode_admits placed)
        · exact ih _ step later
    · exact fun step member => absurd member List.not_mem_nil

theorem moveDrainingReplica_cases (context : PlacementContext ν) (whole : PartitionAssignment → Assignments)
    (partitionId : Nat) (a : PartitionAssignment) :
    moveDrainingReplica context replicationFactor whole partitionId a = a ∨
    ∃ source added, a.removingReplicas = none ∧ ¬ ledByDraining context.drainingNodeIds a ∧
      (∀ target, added = some target → placeReplica (whole a) partitionId a context = some target) ∧
      moveDrainingReplica context replicationFactor whole partitionId a =
        { a with replicas := a.replicas ++ added.toList, removingReplicas := some [source] } := by
  rw [moveDrainingReplica]
  split
  · exact .inl rfl
  next active =>
    rw [not_or, not_not, not_not] at active
    cases led : a.primary with
    | none => exact .inl rfl
    | some primary =>
      simp only
      split
      · exact .inl rfl
      next stays =>
        have unled : ¬ ledByDraining context.drainingNodeIds a := by
          rintro ⟨leader, leads, leaves⟩
          rw [led, Option.some.injEq] at leads
          exact stays (leads ▸ leaves)
        split
        · exact .inl rfl
        next source _ =>
          split
          · split
            · exact .inl rfl
            next target placed =>
              refine .inr ⟨source, some target, active.2, unled, ?_, by simp⟩
              intro _ same
              rw [Option.some.injEq] at same
              exact same ▸ placed
          · exact .inr ⟨source, none, active.2, unled, by simp, by simp⟩

theorem drain_lawful (pass : step.pass ≠ .lostNodes)
    (settled : Settled input.replicationFactor (drainingIds input.nodes) step.old)
    (same : step.new = moveDrainingReplica input.placement input.replicationFactor step.table step.partitionId
      step.old) : Lawful input step := by
  rcases @moveDrainingReplica_cases _ input.replicationFactor _ input.placement step.table step.partitionId step.old with
    stays | ⟨source, added, quiet, unled, placed, moved⟩
  · exact Lawful.same pass (same.trans stays)
  · apply Lawful.of_opened (same.trans moved) quiet (settled.trimmed quiet)
    exact fun target eq => findBestNode_admits (placed target eq)

theorem drain_keeps {context : PlacementContext ν} (chain : colocationDecider ∈ context.deciders)
    (whole : PartitionAssignment → Assignments) (partitionId : Nat)
    (settled : Settled replicationFactor context.drainingNodeIds a) :
    Tidy (moveDrainingReplica context replicationFactor whole partitionId a) ∧
      Trimmed replicationFactor context.drainingNodeIds
        (moveDrainingReplica context replicationFactor whole partitionId a) ∧
      Begun replicationFactor context.drainingNodeIds
        (moveDrainingReplica context replicationFactor whole partitionId a) := by
  have reshapes := moveDrainingReplica_reshapes chain replicationFactor whole partitionId a
  rcases @moveDrainingReplica_cases _ replicationFactor _ context whole partitionId a with
    stays | ⟨source, added, quiet, unled, placed, moved⟩
  · rw [stays]
    exact ⟨settled.tidy, settled.trimmed, .inl settled.waiting⟩
  · have structured := reshapes.structured settled.tidy.structured
    rw [moved] at structured ⊢
    refine ⟨⟨structured, ?_⟩, ?_, .inr ?_⟩
    · intro removing listed
      rw [Option.some.injEq] at listed
      rw [← listed]
      exact Nat.le_refl 1
    · exact fun none => absurd none (by simp)
    · intro _
      have fits := settled.trimmed quiet unled
      have one : added.toList.length ≤ 1 := by cases added <;> simp
      rw [List.length_append]
      omega

theorem modify_all {P : PartitionAssignment → Prop} {assignments : Assignments} {position : Nat}
    {entry : Nat × PartitionAssignment} {f : PartitionAssignment → PartitionAssignment}
    (at_ : assignments[position]? = some entry) (all : ∀ entry ∈ assignments, P entry.2) (here : P (f entry.2)) :
    ∀ other ∈ assignments.modify position (fun entry => (entry.1, f entry.2)), P other.2 := by
  intro other member
  obtain ⟨place, same⟩ := List.mem_iff_getElem?.mp member
  rw [List.getElem?_modify] at same
  split at same
  next eq =>
    subst eq
    rw [at_, Option.map_eq_map, Option.map_some, Option.some.injEq] at same
    exact same ▸ here
  next => exact all other (List.mem_of_getElem? (by simpa using same))

theorem roundChosen_spec {context : BalanceContext ν} {assignments : Assignments} {move : ReplicaMove ν}
    {position : Nat} {target : NodeId} (found : roundChosen context assignments = some (move, position, target)) :
    move.deciders = context.deciders ∧ move.nodeMap = context.nodeMap ∧
    ∃ entry, assignments[position]? = some entry ∧ entry.2.removingReplicas = none ∧
      move.fromNodeId ∈ entry.2.replicas ∧
      findBestNode [move.toNodeId] move.weights move.deciders
        (replicaContext assignments entry.1 entry.2 move.nodeMap) = some target := by
  rw [roundChosen, Option.bind_eq_some_iff] at found
  obtain ⟨move', guarded, found⟩ := found
  rw [Option.map_eq_some_iff] at found
  obtain ⟨chosen, found, same⟩ := found
  rw [Prod.mk.injEq] at same
  obtain ⟨rfl, rfl⟩ := same
  have fields : move'.deciders = context.deciders ∧ move'.nodeMap = context.nodeMap := by
    rw [balanceMove] at guarded
    split at guarded
    · split at guarded
      · cases guarded
      · split at guarded
        · cases guarded
        · split at guarded
          · cases guarded
          · rw [Option.some.injEq] at guarded
            rw [← guarded]
            exact ⟨rfl, rfl⟩
    · cases guarded
  have one {laggingOnly : Bool} (found : moveChosen assignments move' laggingOnly = some (position, target)) :
      ∃ entry, assignments[position]? = some entry ∧ entry.2.removingReplicas = none ∧
        move'.fromNodeId ∈ entry.2.replicas ∧
        findBestNode [move'.toNodeId] move'.weights move'.deciders
          (replicaContext assignments entry.1 entry.2 move'.nodeMap) = some target := by
    obtain ⟨⟨entry, index⟩, member, here⟩ := List.exists_of_findSome?_eq_some found
    rw [Option.map_eq_some_iff] at here
    obtain ⟨target', placed, same⟩ := here
    obtain ⟨rfl, rfl⟩ : index = position ∧ target' = target := by simpa using same
    refine ⟨entry, by simpa using List.mk_mem_zipIdx_iff_getElem?.mp member, ?_⟩
    rw [moveTarget] at placed
    split at placed
    · cases placed
    next free =>
      rw [not_or, not_not, not_not] at free
      split at placed
      · cases placed
      · exact ⟨free.1, free.2, placed⟩
  refine ⟨fields.1, fields.2, ?_⟩
  rcases Option.or_eq_some_iff.mp found with lagging | ⟨_, any⟩
  · exact one lagging
  · exact one any

theorem balanceSteps_lawful (rounds : Nat) {assignments : Assignments}
    (tidy : ∀ entry ∈ assignments, Tidy entry.2)
    (trimmed : ∀ entry ∈ assignments, Trimmed input.replicationFactor (drainingIds input.nodes) entry.2) :
    (∀ step ∈ balanceSteps (balanceContextOf input.nodes input.deciders) rounds assignments, Lawful input step) ∧
      ∀ entry ∈ balanceRounds (balanceContextOf input.nodes input.deciders) rounds assignments, Tidy entry.2 := by
  induction rounds generalizing assignments with
  | zero => exact ⟨fun step member => absurd member List.not_mem_nil, tidy⟩
  | succ rounds ih =>
    rw [balanceSteps, balanceRounds, balanceOnce_eq]
    cases found : roundChosen (balanceContextOf input.nodes input.deciders) assignments with
    | none => exact ⟨fun step member => absurd member List.not_mem_nil, tidy⟩
    | some chosen =>
      obtain ⟨move, position, target⟩ := chosen
      obtain ⟨deciders, nodeMap, entry, at_, quiet, held, placed⟩ := roundChosen_spec found
      rw [deciders, nodeMap] at placed
      have among := List.mem_of_getElem? at_
      have apart := findBestNode_apart (colocationDecider_mem input.constraints input.sizes) placed
      have served : entry.2.primary ≠ none := by
        intro unled
        have empty := ((tidy entry among).structured.unserved
          ((tidy entry among).structured.unassigned_iff.mpr unled)).1
        rw [empty] at held
        cases held
      have step : Reshapes entry.2 (opened move.fromNodeId target entry.2) := by
        apply reshapes_add served apart.2.1 apart.2.2
        intro _
        refine ⟨by simp, ?_⟩
        intro listed same n member
        rw [Option.some.injEq] at same
        rw [← same, List.mem_singleton] at member
        exact member ▸ held
      have one : OneMove (opened move.fromNodeId target entry.2) := by
        intro removing listed
        rw [opened, Option.some.injEq] at listed
        rw [← listed]
        exact Nat.le_refl 1
      obtain ⟨lawful, after⟩ := ih
        (modify_all at_ tidy ⟨step.structured (tidy entry among).structured, one⟩)
        (modify_all at_ trimmed fun none => absurd none (by simp [opened]))
      refine ⟨?_, after⟩
      intro one member
      rcases List.mem_append.mp member with here | later
      · rw [stepAt, at_] at here
        rw [List.mem_singleton.mp here]
        apply @Lawful.of_opened _ input _ move.fromNodeId (some target) rfl quiet (trimmed entry among quiet)
        intro target' same
        rw [Option.some.injEq] at same
        obtain ⟨inside, rfl⟩ := List.getElem?_eq_some_iff.mp at_
        have whole : RunStep.table ⟨.balance, assignments.take position, assignments[position].1,
            assignments[position].2, opened move.fromNodeId target assignments[position].2,
            assignments.drop (position + 1)⟩ assignments[position].2 = assignments := by
          rw [RunStep.table]
          simp
        rw [whole, ← same]
        exact findBestNode_admits placed
      · exact lawful one later

theorem leadershipSteps_lawful (shares : List (NodeId × ν)) (excluded : List NodeId) (rounds : Nat)
    {assignments : Assignments} (without : List NodeId) (tidy : ∀ entry ∈ assignments, Tidy entry.2) :
    (∀ step ∈ leadershipSteps shares excluded rounds assignments without, Lawful input step) ∧
      ∀ entry ∈ leadershipRounds shares excluded rounds assignments without, Tidy entry.2 := by
  induction rounds generalizing assignments without with
  | zero => exact ⟨fun step member => absurd member List.not_mem_nil, tidy⟩
  | succ rounds ih =>
    rw [leadershipSteps, leadershipRounds]
    cases decided : leadershipRound shares excluded assignments without with
    | finished => exact ⟨fun step member => absurd member List.not_mem_nil, tidy⟩
    | withoutHandover heaviest => exact ih (heaviest :: without) tidy
    | handover heaviest swap =>
      obtain ⟨old, at_, may, _⟩ := leadershipRound_handover decided
      have among := List.mem_of_getElem? at_
      have after : ∀ entry ∈ applySwap assignments swap heaviest, Tidy entry.2 :=
        @modify_all Tidy assignments swap.position _ (handOverTo · swap.candidateNodeId heaviest) at_ tidy
          ⟨handOverTo_structured (tidy _ among).structured may, (tidy _ among).oneMove⟩
      obtain ⟨lawful, kept⟩ := ih without after
      refine ⟨?_, kept⟩
      intro one member
      rcases List.mem_append.mp member with here | later
      · rw [stepAt, at_] at here
        rw [List.mem_singleton.mp here]
        exact Lawful.of_handOver rfl may.led ((tidy _ among).structured.inSync_held _ may.inSync) may.staying
      · exact lawful one later

omit [Number ν] in
theorem clearUp_lawful (pass : step.pass ≠ .lostNodes)
    (same : step.new = clearRecoveryState (pruneInSyncSet step.old)) : Lawful input step := by
  have removing (after : List NodeId) (listed : step.new.removingReplicas = some after) :
      ∃ before, step.old.removingReplicas = some before ∧ after.Sublist before := by
    rw [same, clearRecoveryState, pruneInSyncSet] at listed
    simp only at listed
    split at listed
    · cases listed
    next before open_ =>
      split at listed
      · rw [Option.some.injEq] at listed
        exact ⟨before, open_, listed ▸ List.filter_sublist⟩
      · cases listed
  have replicas : step.new.replicas = step.old.replicas := by
    rw [same]
    rfl
  apply Lawful.of_fewer pass _ _ removing
  · intro _ source _ _ held gone
    exact absurd (replicas ▸ held) gone
  · exact fun n held => replicas ▸ held
  · rw [same]
    rfl

end Passes

end Narsil.Allocator
