import Mathlib.Data.List.Dedup
import Narsil.Allocator.TableInvariant

/-!
# Failing over

What the allocator has done to an assignment once the lost nodes are handled,
measured against the assignment the table held: the relation the failover of a
lost primary establishes, and every later hand-over from a draining node and
every reshaping keeps.
-/
namespace Narsil.Allocator

section Candidates
variable {ν : Type} [Number ν]

theorem chosen_mem {pick : Option NodeId → NodeId → Option NodeId} {chosen : NodeId}
    (either : ∀ best candidate, pick best candidate = some candidate ∨ pick best candidate = best)
    (candidates : List NodeId) (best : Option NodeId) (found : candidates.foldl pick best = some chosen) :
    best = some chosen ∨ chosen ∈ candidates := by
  induction candidates generalizing best with
  | nil => exact Or.inl found
  | cons candidate candidates ih =>
    rcases ih _ found with held | later
    · rcases either best candidate with new | old
      · rw [new, Option.some.injEq] at held
        simp [held]
      · rw [old] at held
        exact Or.inl held
    · simp [later]

theorem leastLoadedCandidate_mem {candidates : List NodeId} {counts : List (NodeId × Nat)}
    {shares : List (NodeId × ν)} {chosen : NodeId}
    (found : leastLoadedCandidate candidates counts shares = some chosen) :
    chosen ∈ candidates := by
  refine (chosen_mem ?_ candidates none found).resolve_left (by simp)
  intro best candidate
  cases best with
  | none => exact Or.inl rfl
  | some old =>
    dsimp only
    split
    · exact Or.inl rfl
    · exact Or.inr rfl

theorem promotionCandidate_mem {a : PartitionAssignment} {draining : List NodeId}
    {counts : List (NodeId × Nat)} {shares : List (NodeId × ν)} {promoted : NodeId}
    (found : promotionCandidate a draining counts shares = some promoted) :
    promoted ∈ a.replicas ∧ promoted ∈ a.inSyncSet := by
  rw [promotionCandidate] at found
  simp only [Option.or_eq_some_iff] at found
  have both : promoted ∈ a.replicas.filter fun id => id ∈ a.inSyncSet := by
    rcases found with staying | ⟨_, any⟩
    · exact (List.mem_filter.mp (leastLoadedCandidate_mem staying)).1
    · exact leastLoadedCandidate_mem any
  simpa using both

end Candidates

/-- An assignment of the rewritten table against the one it came from. -/
structure Placed (registered draining : List NodeId) (old a : PartitionAssignment) : Prop where
  structured : Structured a
  commit : a.commitPoint = old.commitPoint
  state : a.primary ≠ none → a.state = old.state
  kept : a.primary = old.primary → a.primaryTerm = old.primaryTerm
  term : old.primaryTerm ≤ a.primaryTerm
  changed : ∀ p, a.primary = some p → old.primary ≠ some p →
    old.primaryTerm < a.primaryTerm ∧ p ∈ registered ∧
      (p ∈ old.inSyncSet ∨ (neverReachedActive old = true ∧ a.inSyncSet = []))
  left : ∀ q, old.primary = some q → a.primary ≠ some q → q ∉ registered ∨ q ∈ draining
  inSync : ∀ n ∈ a.inSyncSet, n ∈ old.inSyncSet ∨ old.primary = some n
  inSync_registered : a.state = .active → ∀ n ∈ a.inSyncSet, n ∈ registered
  holders : a.state = .unassigned → old.state ≠ .unassigned →
    ∀ n, old.primary = some n ∨ n ∈ old.inSyncSet → n ∈ lastHoldersOf a

section Kept
variable {registered draining : List NodeId} {old a a' : PartitionAssignment}

theorem Placed.reshape (h : Placed registered draining old a) (step : Reshapes a a') :
    Placed registered draining old a' where
  structured := step.structured h.structured
  commit := step.commit.trans h.commit
  state := by
    intro served
    rw [step.primary] at served
    exact step.state.trans (h.state served)
  kept := by
    intro same
    rw [step.primary] at same
    exact step.term.trans (h.kept same)
  term := step.term ▸ h.term
  changed := by
    intro p leads moved
    rw [step.primary] at leads
    obtain ⟨higher, member, source⟩ := h.changed p leads moved
    refine ⟨step.term ▸ higher, member, source.imp_right ?_⟩
    rintro ⟨never, empty⟩
    refine ⟨never, List.eq_nil_iff_forall_not_mem.mpr ?_⟩
    intro n in_new
    have in_old := step.inSync n in_new
    simp [empty] at in_old
  left := by
    intro q led gone
    rw [step.primary] at gone
    exact h.left q led gone
  inSync := fun n member => h.inSync n (step.inSync n member)
  inSync_registered := by
    intro active n member
    rw [step.state] at active
    exact h.inSync_registered active n (step.inSync n member)
  holders := by
    intro unserved was n source
    rw [step.state] at unserved
    have same := step.holders unserved
    rw [lastHoldersOf, same]
    exact h.holders unserved was n source

theorem Placed.not_restarted (h : Placed registered draining old a) (active : a.state = .active)
    (served : a.primary ≠ none) : neverReachedActive old ≠ true := by
  have same := h.state served
  rw [active] at same
  simp [neverReachedActive, ← same]

/-- A node in sync on an active partition, other than its leader, led it in the
old table only where that node leads it still. -/
theorem Placed.successor_not_old (h : Placed registered draining old a)
    {successor leader : NodeId} (may : MaySucceed a successor leader)
    (stays : successor ∉ draining) (apart : leader ≠ successor) :
    old.primary ≠ some successor := by
  intro led
  have gone : a.primary ≠ some successor := by
    rw [may.led]
    simpa using apart
  rcases h.left successor led gone with lost | leaving
  · exact lost (h.inSync_registered may.active successor may.inSync)
  · exact stays leaving

theorem MaySucceed.apart {successor leader : NodeId} (may : MaySucceed a successor leader)
    (h : Structured a) : leader ≠ successor := by
  rintro rfl
  exact h.primary_apart leader may.led (h.inSync_held leader may.inSync)

theorem Placed.leader_source (h : Placed registered draining old a) {leader : NodeId}
    (led : a.primary = some leader) (active : a.state = .active) :
    leader ∈ old.inSyncSet ∨ old.primary = some leader := by
  by_cases same : old.primary = some leader
  · exact Or.inr same
  · obtain ⟨_, _, source⟩ := h.changed leader led same
    rcases source with member | ⟨never, _⟩
    · exact Or.inl member
    · exact absurd never (h.not_restarted active (by simp [led]))

theorem Placed.handOver (h : Placed registered draining old a) {successor leader : NodeId}
    (may : MaySucceed a successor leader) (stays : successor ∉ draining)
    (leaves : leader ∈ draining) (known : ∀ n ∈ draining, n ∈ registered) :
    Placed registered draining old (handOverTo a successor leader) := by
  have apart := may.apart h.structured
  have fresh := h.successor_not_old may stays apart
  have members : ∀ n ∈ (handOverTo a successor leader).inSyncSet,
      n ∈ a.inSyncSet ∨ n = leader := by
    intro n member
    simp only [handOverTo, List.mem_append, List.mem_filter, List.mem_singleton] at member
    exact member.imp_left (·.1)
  exact
  { structured := handOverTo_structured h.structured may
    commit := h.commit
    state := fun _ => h.state (by simp [may.led])
    kept := fun same => absurd same.symm fresh
    term := by
      have before := h.term
      simp only [handOverTo]
      omega
    changed := by
      intro p leads _
      have chosen : successor = p := by simpa [handOverTo] using leads
      subst chosen
      refine ⟨?_, h.inSync_registered may.active successor may.inSync, Or.inl ?_⟩
      · have before := h.term
        simp only [handOverTo]
        omega
      · exact (h.inSync successor may.inSync).resolve_right fresh
    left := by
      intro q led gone
      by_cases still : a.primary = some q
      · rw [may.led, Option.some.injEq] at still
        exact Or.inr (still ▸ leaves)
      · exact h.left q led still
    inSync := by
      intro n member
      rcases members n member with held | rfl
      · exact h.inSync n held
      · exact h.leader_source may.led may.active
    inSync_registered := by
      intro _ n member
      rcases members n member with held | rfl
      · exact h.inSync_registered may.active n held
      · exact known n leaves
    holders := fun unserved => by simp [handOverTo, may.active] at unserved }

end Kept

theorem keepRemovingReplicasHeld_structured {a : PartitionAssignment}
    (h : Structured { a with removingReplicas := none }) :
    Structured (keepRemovingReplicasHeld a) where
  primary_apart := h.primary_apart
  replicas_nodup := h.replicas_nodup
  inSync_nodup := h.inSync_nodup
  inSync_held := h.inSync_held
  removing_nonempty := by
    simp only [keepRemovingReplicasHeld]
    split
    · next left =>
      intro empty
      rw [Option.some.injEq] at empty
      simp [empty] at left
    · simp
  removing_held := by
    intro removing listed n member
    simp only [keepRemovingReplicasHeld] at listed
    split at listed
    · rw [Option.some.injEq] at listed
      subst listed
      exact of_decide_eq_true (List.mem_filter.mp member).2
    · simp at listed
  unassigned_iff := h.unassigned_iff
  unserved := h.unserved

theorem Placed.refl {registered draining : List NodeId} {a : PartitionAssignment}
    (h : Structured a) (waiting : a.state ≠ .active) : Placed registered draining a a where
  structured := h
  commit := rfl
  state := fun _ => rfl
  kept := fun _ => rfl
  term := Nat.le_refl _
  changed := fun _ leads moved => absurd leads moved
  left := fun _ led gone => absurd led gone
  inSync := fun _ member => Or.inl member
  inSync_registered := fun active => absurd active waiting
  holders := fun unserved was => absurd unserved was

theorem markUnassigned_placed {registered draining : List NodeId} {old a : PartitionAssignment}
    (commit : a.commitPoint = old.commitPoint) (term : a.primaryTerm = old.primaryTerm)
    (lost : ∀ q, old.primary = some q → q ∉ registered) (was : old.primary ≠ none) :
    Placed registered draining old (markUnassigned a old.primary old.inSyncSet) where
  structured :=
    { primary_apart := by simp [markUnassigned]
      replicas_nodup := List.nodup_nil
      inSync_nodup := List.nodup_nil
      inSync_held := by simp [markUnassigned]
      removing_nonempty := by simp [markUnassigned]
      removing_held := by simp [markUnassigned]
      unassigned_iff := by simp [markUnassigned]
      unserved := by simp [markUnassigned] }
  commit := commit
  state := by simp [markUnassigned]
  kept := fun same => absurd same.symm was
  term := Nat.le_of_eq term.symm
  changed := by simp [markUnassigned]
  left := fun q led _ => Or.inl (lost q led)
  inSync := by simp [markUnassigned]
  inSync_registered := by simp [markUnassigned]
  holders := by
    intro _ _ n source
    simp only [markUnassigned, lastHoldersOf, Option.getD_some, sortCodePoints,
      List.mem_insertionSort, List.mem_dedup, List.mem_append, Option.mem_toList]
    rcases source with led | member
    · exact Or.inr led
    · exact Or.inl (Or.inr member)

section Lost
variable {ν : Type} [Number ν]

theorem restartAsEmptyCopy_placed {activeNodeIds draining : List NodeId}
    {shares : List (NodeId × ν)} (counts : List (NodeId × Nat)) {a : PartitionAssignment}
    (h : Structured a) (never : neverReachedActive a = true) {q : NodeId}
    (led : a.primary = some q) (lost : q ∉ activeNodeIds) :
    Placed activeNodeIds draining a
      (restartAsEmptyCopy a activeNodeIds draining counts shares).1 := by
  have initialising : a.state = .initialising := by
    simp only [neverReachedActive, Bool.and_eq_true, decide_eq_true_eq] at never
    exact never.1
  rw [restartAsEmptyCopy]
  simp only
  split
  · exact Placed.refl h (by simp [initialising])
  · next chosen found =>
    have placed : chosen ∈ activeNodeIds := by
      rw [Option.or_eq_some_iff] at found
      rcases found with held | ⟨_, other⟩
      · have member := (List.mem_filter.mp (leastLoadedCandidate_mem held)).2
        exact (of_decide_eq_true member).1
      · have member := leastLoadedCandidate_mem other
        rw [sortCodePoints, List.mem_insertionSort] at member
        exact (List.mem_filter.mp member).1
    have other : q ≠ chosen := fun same => lost (same ▸ placed)
    exact
    { structured :=
        { primary_apart := by
            intro p leads held
            simp only [Option.some.injEq] at leads
            subst leads
            simp at held
          replicas_nodup := h.replicas_nodup.filter _
          inSync_nodup := List.nodup_nil
          inSync_held := by simp
          removing_nonempty := by simp
          removing_held := by simp
          unassigned_iff := by simp [initialising]
          unserved := by simp [initialising] }
      commit := rfl
      state := fun _ => rfl
      kept := by simp [led, other.symm]
      term := Nat.le_succ _
      changed := by
        intro p leads _
        simp only [Option.some.injEq] at leads
        subst leads
        exact ⟨Nat.lt_succ_self _, placed, Or.inr ⟨never, rfl⟩⟩
      left := by
        intro q' led' _
        rw [led, Option.some.injEq] at led'
        exact Or.inl (led' ▸ lost)
      inSync := by simp
      inSync_registered := by simp
      holders := by simp [initialising] }

/-- The copies left once the departed nodes are dropped. -/
def withoutDeparted (activeNodeIds retainedNodeIds : List NodeId) (primary : Option NodeId)
    (a : PartitionAssignment) : PartitionAssignment :=
  keepRemovingReplicasHeld { a with
    primary := primary
    replicas := a.replicas.filter fun id => id ∈ activeNodeIds ∨ id ∈ retainedNodeIds
    inSyncSet := a.inSyncSet.filter fun id => id ∈ activeNodeIds }

theorem withoutDeparted_reshapes (activeNodeIds retainedNodeIds : List NodeId)
    (a : PartitionAssignment) :
    Reshapes a (withoutDeparted activeNodeIds retainedNodeIds a.primary a) where
  primary := rfl
  state := rfl
  term := rfl
  commit := rfl
  holders := fun _ => rfl
  inSync := fun n member => (List.mem_filter.mp member).1
  structured := fun h => by
    apply keepRemovingReplicasHeld_structured
    refine (reshapes_drop List.filter_sublist List.filter_sublist ?_ (by simp)).structured h
    intro h n member
    have both := List.mem_filter.mp member
    rw [List.mem_filter]
    refine ⟨h.inSync_held n both.1, decide_eq_true (Or.inl ?_)⟩
    exact of_decide_eq_true both.2

theorem withoutDeparted_placed {activeNodeIds draining : List NodeId}
    (retainedNodeIds : List NodeId) {a : PartitionAssignment} (h : Structured a) :
    Placed activeNodeIds draining a
      (withoutDeparted activeNodeIds retainedNodeIds a.primary a) := by
  have step := withoutDeparted_reshapes activeNodeIds retainedNodeIds a
  exact
  { structured := step.structured h
    commit := rfl
    state := fun _ => rfl
    kept := fun _ => rfl
    term := Nat.le_refl _
    changed := fun _ leads moved => absurd leads moved
    left := fun _ led gone => absurd led gone
    inSync := fun n member => Or.inl (step.inSync n member)
    inSync_registered := fun _ n member => of_decide_eq_true (List.mem_filter.mp member).2
    holders := fun unserved was => absurd unserved was }

/-- The assignment a lost primary leaves to an in-sync replica. -/
def promoted (retainedNodeIds : List NodeId) (lastPrimary successor : NodeId)
    (held : PartitionAssignment) : PartitionAssignment :=
  keepRemovingReplicasHeld { held with
    primary := some successor
    replicas := (held.replicas.filter fun id => id ≠ successor) ++
      (some lastPrimary).toList.filter fun id => id ∈ retainedNodeIds
    inSyncSet := held.inSyncSet.filter fun id => id ≠ successor
    primaryTerm := held.primaryTerm + 1 }

theorem promoted_placed {activeNodeIds draining retainedNodeIds : List NodeId}
    {a : PartitionAssignment} (h : Structured a) (served : a.state ≠ .unassigned) {q successor : NodeId}
    (led : a.primary = some q) (lost : q ∉ activeNodeIds)
    (inSync : successor ∈
      (withoutDeparted activeNodeIds retainedNodeIds none a).inSyncSet) :
    Placed activeNodeIds draining a
      (promoted retainedNodeIds q successor
        (withoutDeparted activeNodeIds retainedNodeIds none a)) := by
  obtain ⟨member, here⟩ := List.mem_filter.mp inSync
  have here : successor ∈ activeNodeIds := of_decide_eq_true here
  have other : q ≠ successor := fun same => lost (same ▸ here)
  have apart := h.primary_apart q led
  have still : ∀ n ∈ (promoted retainedNodeIds q successor
      (withoutDeparted activeNodeIds retainedNodeIds none a)).inSyncSet,
      n ∈ a.inSyncSet ∧ n ∈ activeNodeIds := by
    intro n held
    have first := (List.mem_filter.mp held).1
    exact (List.mem_filter.mp first).imp id of_decide_eq_true
  exact
  { structured := by
      apply keepRemovingReplicasHeld_structured
      exact
      { primary_apart := by
          intro p leads held
          simp only [Option.some.injEq] at leads
          subst leads
          rcases List.mem_append.mp held with old | back
          · simp at old
          · simp only [Option.toList_some, List.mem_filter, List.mem_singleton] at back
            exact other back.1.symm
        replicas_nodup := by
          rw [List.nodup_append]
          refine ⟨(h.replicas_nodup.filter _).filter _, by simp [List.Nodup.filter], ?_⟩
          intro n old m back same
          simp only [Option.toList_some, List.mem_filter, List.mem_singleton] at back
          have held := (List.mem_filter.mp (List.mem_filter.mp old).1).1
          exact apart (back.1 ▸ same ▸ held)
        inSync_nodup := (h.inSync_nodup.filter _).filter _
        inSync_held := by
          intro n held
          obtain ⟨first, differs⟩ := List.mem_filter.mp held
          obtain ⟨old, active⟩ := List.mem_filter.mp first
          apply List.mem_append_left
          rw [List.mem_filter]
          refine ⟨List.mem_filter.mpr ⟨h.inSync_held n old, ?_⟩, differs⟩
          exact decide_eq_true (Or.inl (of_decide_eq_true active))
        removing_nonempty := by simp
        removing_held := by simp
        unassigned_iff := by
          constructor
          · exact fun unserved => absurd unserved served
          · simp
        unserved := fun unserved => absurd unserved served }
    commit := rfl
    state := fun _ => rfl
    kept := by
      intro same
      rw [led] at same
      simp only [promoted, keepRemovingReplicasHeld, Option.some.injEq] at same
      exact absurd same.symm other
    term := Nat.le_succ _
    changed := by
      intro p leads _
      simp only [promoted, keepRemovingReplicasHeld, Option.some.injEq] at leads
      subst leads
      exact ⟨Nat.lt_succ_self _, here, Or.inl member⟩
    left := by
      intro q' led' _
      rw [led, Option.some.injEq] at led'
      exact Or.inl (led' ▸ lost)
    inSync := fun n held => Or.inl (still n held).1
    inSync_registered := fun _ n held => (still n held).2
    holders := fun unserved => absurd unserved served }

theorem handleLostNode_placed (activeNodeIds retainedNodeIds : List NodeId)
    (shares : List (NodeId × ν)) (draining : List NodeId) (counts : List (NodeId × Nat))
    {a : PartitionAssignment} (h : Structured a) :
    Placed activeNodeIds draining a
      (handleLostNode activeNodeIds retainedNodeIds shares draining counts a).1 := by
  rw [handleLostNode]
  split
  · next unserved => exact Placed.refl h (by simp [unserved])
  · next served =>
    cases led : a.primary with
    | none => exact absurd (h.unassigned_iff.mpr led) served
    | some q =>
      simp only
      by_cases active : q ∈ activeNodeIds
      · have kept : Placed activeNodeIds draining a
            (withoutDeparted activeNodeIds retainedNodeIds a.primary a) :=
          withoutDeparted_placed retainedNodeIds h
        rw [led] at kept
        simpa [active, withoutDeparted, keepRemovingReplicasHeld] using kept
      · simp only [active, not_false_eq_true, decide_true, Bool.true_and, Bool.not_true,
          Bool.false_eq_true, if_true, if_false]
        split
        · next never => exact restartAsEmptyCopy_placed counts h never led active
        · split
          · have marked : Placed activeNodeIds draining a
                (markUnassigned (withoutDeparted activeNodeIds retainedNodeIds none a) a.primary
                  a.inSyncSet) :=
              markUnassigned_placed rfl rfl (by simpa [led] using active) (by simp [led])
            rw [led] at marked
            exact marked
          · next successor found =>
            exact promoted_placed h served led active (promotionCandidate_mem found).2

end Lost

end Narsil.Allocator
