import Narsil.Allocator.Rebalance

/-!
# The structural invariant

What every assignment of a table keeps, and what one pass of the allocator may
do to an assignment: most passes only reshape the copies around the primary, a
hand-over moves the lead to an in-sync replica, and only the failover of a lost
primary does more.
-/
namespace Narsil.Allocator

structure Structured (a : PartitionAssignment) : Prop where
  primary_apart : ∀ p, a.primary = some p → p ∉ a.replicas
  replicas_nodup : a.replicas.Nodup
  inSync_nodup : a.inSyncSet.Nodup
  inSync_held : ∀ n ∈ a.inSyncSet, n ∈ a.replicas
  removing_nonempty : a.removingReplicas ≠ some []
  removing_held : ∀ removing, a.removingReplicas = some removing → ∀ n ∈ removing, n ∈ a.replicas
  unassigned_iff : a.state = .unassigned ↔ a.primary = none
  unserved : a.state = .unassigned → a.replicas = [] ∧ a.inSyncSet = []

theorem Structured.removing_none_of_unassigned {a : PartitionAssignment} (h : Structured a)
    (unserved : a.state = .unassigned) : a.removingReplicas = none := by
  cases listed : a.removingReplicas with
  | none => rfl
  | some removing =>
    cases removing with
    | nil => exact absurd listed h.removing_nonempty
    | cons n rest =>
      have held := h.removing_held _ listed n (by simp)
      simp [(h.unserved unserved).1] at held

/-- The primary, its term, the state and the commit point stay, and no copy
becomes in sync. -/
structure Reshapes (a a' : PartitionAssignment) : Prop where
  primary : a'.primary = a.primary
  state : a'.state = a.state
  term : a'.primaryTerm = a.primaryTerm
  commit : a'.commitPoint = a.commitPoint
  holders : a.state = .unassigned → a'.lastHolders = a.lastHolders
  inSync : ∀ n ∈ a'.inSyncSet, n ∈ a.inSyncSet
  structured : Structured a → Structured a'

theorem Reshapes.refl (a : PartitionAssignment) : Reshapes a a where
  primary := rfl
  state := rfl
  term := rfl
  commit := rfl
  holders := fun _ => rfl
  inSync := fun _ h => h
  structured := id

theorem Reshapes.trans {a b c : PartitionAssignment} (h : Reshapes a b) (h' : Reshapes b c) :
    Reshapes a c where
  primary := h'.primary.trans h.primary
  state := h'.state.trans h.state
  term := h'.term.trans h.term
  commit := h'.commit.trans h.commit
  holders := fun unserved =>
    (h'.holders (h.state.trans unserved)).trans (h.holders unserved)
  inSync := fun n member => h.inSync n (h'.inSync n member)
  structured := fun s => h'.structured (h.structured s)

theorem reshapes_drop {a : PartitionAssignment} {replicas inSync : List NodeId}
    {removing : Option (List NodeId)} (fewer : replicas.Sublist a.replicas)
    (fewerInSync : inSync.Sublist a.inSyncSet)
    (held : Structured a → ∀ n ∈ inSync, n ∈ replicas)
    (kept : Structured a → removing ≠ some [] ∧
      ∀ listed, removing = some listed → ∀ n ∈ listed, n ∈ replicas) :
    Reshapes a
      { a with replicas := replicas, inSyncSet := inSync, removingReplicas := removing } where
  primary := rfl
  state := rfl
  term := rfl
  commit := rfl
  holders := fun _ => rfl
  inSync := fun _ member => fewerInSync.subset member
  structured := fun h =>
    { primary_apart := fun p led held => h.primary_apart p led (fewer.subset held)
      replicas_nodup := h.replicas_nodup.sublist fewer
      inSync_nodup := h.inSync_nodup.sublist fewerInSync
      inSync_held := held h
      removing_nonempty := (kept h).1
      removing_held := (kept h).2
      unassigned_iff := h.unassigned_iff
      unserved := fun unserved => by
        have empty := h.unserved unserved
        rw [empty.1] at fewer
        rw [empty.2] at fewerInSync
        exact ⟨List.sublist_nil.mp fewer, List.sublist_nil.mp fewerInSync⟩ }

theorem reshapes_add {a : PartitionAssignment} {target : NodeId}
    {removing : Option (List NodeId)} (served : a.primary ≠ none)
    (led : a.primary ≠ some target) (fresh : target ∉ a.replicas)
    (kept : Structured a → removing ≠ some [] ∧
      ∀ listed, removing = some listed → ∀ n ∈ listed, n ∈ a.replicas) :
    Reshapes a { a with replicas := a.replicas ++ [target], removingReplicas := removing } where
  primary := rfl
  state := rfl
  term := rfl
  commit := rfl
  holders := fun _ => rfl
  inSync := fun _ member => member
  structured := fun h =>
    { primary_apart := by
        intro p leads held
        rcases List.mem_append.mp held with old | added
        · exact h.primary_apart p leads old
        · rw [List.mem_singleton] at added
          exact led (added ▸ leads)
      replicas_nodup := by
        rw [List.nodup_append]
        refine ⟨h.replicas_nodup, by simp, ?_⟩
        intro n old m added same
        rw [List.mem_singleton] at added
        exact fresh (added ▸ same ▸ old)
      inSync_nodup := h.inSync_nodup
      inSync_held := fun n member => List.mem_append_left _ (h.inSync_held n member)
      removing_nonempty := (kept h).1
      removing_held := fun listed eq n member =>
        List.mem_append_left _ ((kept h).2 listed eq n member)
      unassigned_iff := h.unassigned_iff
      unserved := fun unserved => absurd (h.unassigned_iff.mp unserved) served }

theorem Structured.removing_spec {a : PartitionAssignment} (h : Structured a) :
    a.removingReplicas ≠ some [] ∧
      ∀ listed, a.removingReplicas = some listed → ∀ n ∈ listed, n ∈ a.replicas :=
  ⟨h.removing_nonempty, h.removing_held⟩

theorem settleMove_reshapes (replicationFactor : Nat) (a : PartitionAssignment) :
    Reshapes a (settleMove replicationFactor a) := by
  rw [settleMove]
  cases listed : a.removingReplicas with
  | none => exact Reshapes.refl a
  | some removing =>
    have cancelled : Reshapes a { a with removingReplicas := none } :=
      reshapes_drop (List.Sublist.refl _) (List.Sublist.refl _) (fun h => h.inSync_held)
        (fun _ => by simp)
    simp only
    split
    · exact cancelled
    · next some_left =>
      split
      · apply reshapes_drop List.filter_sublist List.filter_sublist
        · intro h n member
          rw [List.mem_filter] at member ⊢
          exact ⟨h.inSync_held n member.1, member.2⟩
        · simp
      · split
        · apply reshapes_drop (List.Sublist.refl _) (List.Sublist.refl _) (fun h => h.inSync_held)
          intro _
          constructor
          · intro none_left
            rw [Option.some.injEq] at none_left
            exact some_left (by simp [none_left])
          · intro kept eq n member
            rw [Option.some.injEq] at eq
            subst eq
            simpa using (List.mem_filter.mp member).2
        · exact cancelled

section Placing
variable {ν : Type} [Number ν]

theorem seedSuccessor_reshapes {context : PlacementContext ν}
    (chain : colocationDecider ∈ context.deciders) (whole : PartitionAssignment → Assignments)
    (partitionId : Nat) (a : PartitionAssignment) (served : a.primary ≠ none) :
    Reshapes a (seedSuccessor whole partitionId a context) := by
  rw [seedSuccessor]
  split
  · exact Reshapes.refl a
  · split
    · exact Reshapes.refl a
    · split
      · exact Reshapes.refl a
      · next target found =>
        have apart := findBestNode_apart chain found
        exact reshapes_add served apart.2.1 apart.2.2 Structured.removing_spec

theorem moveDrainingReplica_reshapes {context : PlacementContext ν}
    (chain : colocationDecider ∈ context.deciders) (replicationFactor : Nat)
    (whole : PartitionAssignment → Assignments) (partitionId : Nat) (a : PartitionAssignment) :
    Reshapes a (moveDrainingReplica context replicationFactor whole partitionId a) := by
  rw [moveDrainingReplica]
  split
  · exact Reshapes.refl a
  · split
    · exact Reshapes.refl a
    · next primary led =>
      split
      · exact Reshapes.refl a
      · split
        · exact Reshapes.refl a
        · next source found =>
          have held : source ∈ a.replicas := List.mem_of_find?_eq_some found
          have started : Structured a → some [source] ≠ some [] ∧
              ∀ listed, some [source] = some listed → ∀ n ∈ listed, n ∈ a.replicas := by
            intro _
            constructor
            · simp
            · intro listed eq n member
              rw [Option.some.injEq] at eq
              subst eq
              rw [List.mem_singleton] at member
              exact member ▸ held
          simp only
          split
          · split
            · exact Reshapes.refl a
            · next target placed =>
              have apart := findBestNode_apart chain placed
              exact reshapes_add (by simp [led]) apart.2.1 apart.2.2 started
          · exact reshapes_drop (List.Sublist.refl _) (List.Sublist.refl _)
              (fun h => h.inSync_held) started

theorem dropReplica_reshapes {a : PartitionAssignment} (quiet : a.removingReplicas = none)
    (index : Nat) : Reshapes a (dropReplica a index) := by
  have same : dropReplica a index =
      { a with
        replicas := a.replicas.eraseIdx index
        inSyncSet := a.inSyncSet.filter fun id => some id ≠ a.replicas[index]?
        removingReplicas := none } := by
    rw [dropReplica, ← quiet]
  rw [same]
  apply reshapes_drop (List.eraseIdx_sublist _ _) List.filter_sublist
  · intro h n member
    rw [List.mem_filter] at member
    have held := h.inSync_held n member.1
    rw [List.mem_eraseIdx_iff_getElem?]
    obtain ⟨i, at_i⟩ := List.mem_iff_getElem?.mp held
    refine ⟨i, ?_, at_i⟩
    rintro rfl
    simp [at_i] at member
  · simp

theorem trimSurplus_reshapes (sortedNodes : List (NodeRegistration ν)) (replicationFactor : Nat)
    (drainingNodeIds : List NodeId) (whole : PartitionAssignment → Assignments) (rounds : Nat)
    (a : PartitionAssignment) (quiet : a.removingReplicas = none) :
    Reshapes a (trimSurplus sortedNodes replicationFactor drainingNodeIds whole rounds a) := by
  induction rounds generalizing a with
  | zero => exact Reshapes.refl a
  | succ rounds ih =>
    rw [trimSurplus]
    split
    · simp only
      split
      · exact Reshapes.refl a
      · next index _ =>
        exact (dropReplica_reshapes quiet index).trans (ih _ (by rw [dropReplica]; exact quiet))
    · exact Reshapes.refl a

theorem fillSlots_reshapes {placement : PlacementContext ν}
    (chain : colocationDecider ∈ placement.deciders) (replicationFactor partitionId : Nat)
    (whole : PartitionAssignment → Assignments) (rounds : Nat) (a : PartitionAssignment)
    (served : a.primary ≠ none) :
    Reshapes a (fillSlots placement replicationFactor partitionId whole rounds a) := by
  induction rounds generalizing a with
  | zero => exact Reshapes.refl a
  | succ rounds ih =>
    rw [fillSlots]
    split
    · split
      · exact Reshapes.refl a
      · next target placed =>
        have apart := findBestNode_apart chain placed
        have added : Reshapes a { a with replicas := a.replicas ++ [target] } :=
          reshapes_add served apart.2.1 apart.2.2 Structured.removing_spec
        exact added.trans (ih _ served)
    · exact Reshapes.refl a

theorem surplusCandidate_some {a : PartitionAssignment} (weights : List (NodeWeight ν))
    (drainingNodeIds : List NodeId) (some_left : a.replicas ≠ []) :
    ∃ index < a.replicas.length, surplusCandidate a weights drainingNodeIds = some index := by
  have general : ∀ (entries : List (NodeId × Nat)) (best : Option (NodeId × Nat)),
      (entries ≠ [] ∨ best ≠ none) → (∀ e ∈ entries, e.2 < a.replicas.length) →
      (∀ e, best = some e → e.2 < a.replicas.length) →
      ∃ e, entries.foldl (furtherSurplus a weights drainingNodeIds) best = some e ∧
        e.2 < a.replicas.length := by
    intro entries
    induction entries with
    | nil =>
      intro best started _ held
      rcases started with absurd_nil | best_some
      · exact absurd rfl absurd_nil
      · obtain ⟨e, rfl⟩ := Option.ne_none_iff_exists'.mp best_some
        exact ⟨e, rfl, held e rfl⟩
    | cons entry rest ih =>
      intro best _ listed held
      have here := listed entry (by simp)
      apply ih
      · right
        cases best with
        | none => simp [furtherSurplus]
        | some current =>
          simp only [furtherSurplus]
          split <;> simp
      · exact fun e later => listed e (by simp [later])
      · intro e chosen
        cases best with
        | none =>
          simp only [furtherSurplus, Option.some.injEq] at chosen
          exact chosen ▸ here
        | some current =>
          simp only [furtherSurplus] at chosen
          split at chosen
          · rw [Option.some.injEq] at chosen
            exact chosen ▸ here
          · exact held e chosen
  obtain ⟨e, found, bound⟩ := general a.replicas.zipIdx none (by simpa using some_left)
    (fun e member => by simpa using List.snd_lt_of_mem_zipIdx member) (by simp)
  exact ⟨e.2, bound, by rw [surplusCandidate, found]; rfl⟩

theorem trimSurplus_length (sortedNodes : List (NodeRegistration ν)) (replicationFactor : Nat)
    (drainingNodeIds : List NodeId) (whole : PartitionAssignment → Assignments) (rounds : Nat)
    (a : PartitionAssignment) (enough : a.replicas.length ≤ rounds) :
    (trimSurplus sortedNodes replicationFactor drainingNodeIds whole rounds a).replicas.length
      ≤ replicationFactor := by
  induction rounds generalizing a with
  | zero =>
    rw [trimSurplus]
    omega
  | succ rounds ih =>
    rw [trimSurplus]
    split
    · next surplus =>
      have some_left : a.replicas ≠ [] := by
        intro empty
        simp [empty] at surplus
      obtain ⟨index, bound, found⟩ := surplusCandidate_some
        (computeNodeWeights sortedNodes (whole a)) drainingNodeIds some_left
      simp only [found]
      apply ih
      have size := List.length_eraseIdx_of_lt bound
      simp only [dropReplica]
      omega
    · omega

end Placing

theorem pruneInSyncSet_reshapes (a : PartitionAssignment) : Reshapes a (pruneInSyncSet a) := by
  rw [pruneInSyncSet]
  have fewer : (if a.state = .unassigned then a.inSyncSet
      else if a.inSyncSet.any fun id => id ∉ a.replicas then
        a.inSyncSet.filter fun id => id ∈ a.replicas
      else a.inSyncSet).Sublist a.inSyncSet := by
    split
    · exact List.Sublist.refl _
    · split
      · exact List.filter_sublist
      · exact List.Sublist.refl _
  apply reshapes_drop (List.Sublist.refl _) fewer
  · intro h n member
    exact h.inSync_held n (fewer.subset member)
  · intro _
    cases a.removingReplicas with
    | none => simp
    | some listed =>
      simp only
      split
      · next left =>
        constructor
        · intro none_left
          rw [Option.some.injEq] at none_left
          simp [none_left] at left
        · intro kept eq n member
          rw [Option.some.injEq] at eq
          subst eq
          simpa using (List.mem_filter.mp member).2
      · simp

theorem clearRecoveryState_reshapes (a : PartitionAssignment) :
    Reshapes a (clearRecoveryState a) where
  primary := rfl
  state := rfl
  term := rfl
  commit := rfl
  holders := fun unserved => by simp [clearRecoveryState, unserved]
  inSync := fun _ member => member
  structured := fun h => { h with }

/-- An in-sync replica that no move takes away may succeed the leader of an
active partition. -/
structure MaySucceed (a : PartitionAssignment) (successor leader : NodeId) : Prop where
  led : a.primary = some leader
  active : a.state = .active
  inSync : successor ∈ a.inSyncSet
  staying : successor ∉ a.removingReplicas.getD []

theorem handOverTo_structured {a : PartitionAssignment} {successor leader : NodeId}
    (h : Structured a) (may : MaySucceed a successor leader) :
    Structured (handOverTo a successor leader) := by
  have apart : leader ∉ a.replicas := h.primary_apart leader may.led
  have held := h.inSync_held successor may.inSync
  have other : leader ≠ successor := fun same => apart (same ▸ held)
  exact
  { primary_apart := by
      intro p leads held'
      have chosen : successor = p := by simpa [handOverTo] using leads
      simp [handOverTo, ← chosen, other.symm] at held'
    replicas_nodup := by
      simp only [handOverTo, List.nodup_append]
      refine ⟨h.replicas_nodup.filter _, by simp, ?_⟩
      intro n old m added same
      rw [List.mem_singleton] at added
      exact apart (added ▸ same ▸ (List.mem_filter.mp old).1)
    inSync_nodup := by
      simp only [handOverTo, List.nodup_append]
      refine ⟨h.inSync_nodup.filter _, by simp, ?_⟩
      intro n old m added same
      rw [List.mem_singleton] at added
      have differs := (List.mem_filter.mp old).2
      simp [same, added] at differs
    inSync_held := by
      intro n member
      simp only [handOverTo, List.mem_append, List.mem_filter, List.mem_singleton] at member ⊢
      rcases member with ⟨old, differs⟩ | added
      · have apart' := of_decide_eq_true differs
        exact Or.inl ⟨h.inSync_held n old, decide_eq_true apart'.1⟩
      · exact Or.inr added
    removing_nonempty := h.removing_nonempty
    removing_held := by
      intro removing listed n member
      have differs : n ≠ successor := by
        rintro rfl
        have listed' : a.removingReplicas = some removing := listed
        exact may.staying (by simpa [listed'] using member)
      have old := h.removing_held removing listed n member
      simp [handOverTo, old, differs]
    unassigned_iff := by simp [handOverTo, may.active]
    unserved := by simp [handOverTo, may.active] }

end Narsil.Allocator
