import Narsil.Allocator.LeadershipSteps

/-!
# Leadership safety

Who may lead a partition in the table `rebalanceAllocate` returns, and at which
term. The passes before the last hand-overs keep the law. The pass that spreads
leadership keeps it except where it hands a partition away and back to the node
that led it: the term then rises under an unchanged primary.
-/
namespace Narsil.Allocator

/-- A map with one assignment for each partition, each well structured. -/
structure StructuredTable (table : AllocationTable) : Prop where
  keys : (table.assignments.map Prod.fst).Nodup
  structured : ∀ entry ∈ table.assignments, Structured entry.2

structure LeadershipSafe (registered : List NodeId) (old new : PartitionAssignment) : Prop where
  changed : ∀ p, new.primary = some p → old.primary ≠ some p →
    old.primaryTerm < new.primaryTerm ∧ p ∈ registered ∧
      (p ∈ old.inSyncSet ∨ (neverReachedActive old = true ∧ new.inSyncSet = []))
  kept : new.primary = old.primary → new.primaryTerm = old.primaryTerm
  inSync : ∀ n ∈ new.inSyncSet, n ∈ old.inSyncSet ∨ old.primary = some n
  holders : new.state = .unassigned → old.state ≠ .unassigned →
    ∀ n, old.primary = some n ∨ n ∈ old.inSyncSet → n ∈ lastHoldersOf new

/-- Every partition of the old table is led safely in the new one. -/
def LeadershipSafeTable (registered : List NodeId) (old new : AllocationTable) : Prop :=
  ∀ partitionId a, Assoc.lookup old.assignments partitionId = some a →
    ∃ a', Assoc.lookup new.assignments partitionId = some a' ∧ LeadershipSafe registered a a'

variable {ν : Type} [Number ν]

/-- The assignments as the pass that spreads leadership finds them. -/
def placedCopies (nodes : List (NodeRegistration ν)) (table : AllocationTable)
    (replicationFactor : Nat) (deciders : List (Decider ν)) (retainedNodeIds : List NodeId) :
    Assignments :=
  placeCopies (sortById nodes) table.assignments replicationFactor deciders retainedNodeIds

/-- The hand-overs of the pass that spreads leadership. -/
def handoversOf (nodes : List (NodeRegistration ν)) (table : AllocationTable)
    (replicationFactor : Nat) (deciders : List (Decider ν)) (retainedNodeIds : List NodeId) :
    List (Nat × NodeId) :=
  leadershipHandovers (capacityShares (sortById nodes)) (drainingIds nodes)
    (placedCopies nodes table replicationFactor deciders retainedNodeIds).length
    (placedCopies nodes table replicationFactor deciders retainedNodeIds) []

/-- The last swap the pass finds for the partition names the node that leads it
in the stored table. -/
def HandedBack (handovers : List (Nat × NodeId)) (table : AllocationTable) (partitionId : Nat) :
    Prop :=
  ∃ a leader, Assoc.lookup table.assignments partitionId = some a ∧ a.primary = some leader ∧
    (handedTo handovers partitionId).getLast? = some leader

section OnePartition
variable {registered draining nodes : List NodeId} {old a a' : PartitionAssignment}

theorem Placed.safe_of_handedAlong (h : Placed registered draining old a)
    (along : HandedAlong draining a nodes a')
    (forward : ∀ leader, old.primary = some leader → nodes.getLast? ≠ some leader) :
    LeadershipSafe registered old a' := by
  have copies : ∀ n ∈ a'.inSyncSet, n ∈ old.inSyncSet ∨ old.primary = some n := by
    intro n member
    rcases along.inSync n member with held | ⟨led, active⟩
    · exact h.inSync n held
    · exact h.leader_source led active
  have record : a'.state = .unassigned → old.state ≠ .unassigned →
      ∀ n, old.primary = some n ∨ n ∈ old.inSyncSet → n ∈ lastHoldersOf a' := by
    intro unserved was n source
    rw [along.state] at unserved
    rw [lastHoldersOf, along.holders]
    exact h.holders unserved was n source
  cases last : nodes.getLast? with
  | none =>
    obtain rfl : nodes = [] := List.getLast?_eq_none_iff.mp last
    have primary : a'.primary = a.primary := by simpa using along.primary
    have term : a'.primaryTerm = a.primaryTerm := by simpa using along.term
    exact
    { changed := by
        intro p leads moved
        rw [primary] at leads
        obtain ⟨higher, member, source⟩ := h.changed p leads moved
        refine ⟨term ▸ higher, member, source.imp_right ?_⟩
        rintro ⟨never, empty⟩
        refine ⟨never, List.eq_nil_iff_forall_not_mem.mpr ?_⟩
        intro n held
        rcases along.inSync n held with before | ⟨led, active⟩
        · simp [empty] at before
        · exact h.not_restarted active (by simp [led]) never
      kept := by
        intro same
        rw [primary] at same
        exact term.trans (h.kept same)
      inSync := copies
      holders := record }
  | some c =>
    have some_left : nodes ≠ [] := by
      rintro rfl
      simp at last
    obtain ⟨active, served⟩ := along.active some_left
    have primary : a'.primary = some c := by simpa [last] using along.primary
    obtain ⟨free, source⟩ := along.allowed c (List.mem_of_getLast? last)
    have moved : old.primary ≠ some c := fun led => forward c led last
    have raised : old.primaryTerm < a'.primaryTerm := by
      have before := h.term
      have count : 0 < nodes.length := List.length_pos_iff.mpr some_left
      rw [along.term]
      omega
    have known : c ∈ registered := by
      rcases source with member | led
      · exact h.inSync_registered active c member
      · exact (h.changed c led moved).2.1
    have was_inSync : c ∈ old.inSyncSet := by
      rcases source with member | led
      · exact (h.inSync c member).resolve_right moved
      · exact (h.leader_source led active).resolve_right moved
    exact
    { changed := by
        intro p leads _
        rw [primary, Option.some.injEq] at leads
        subst leads
        exact ⟨raised, known, Or.inl was_inSync⟩
      kept := fun same => absurd (same.symm.trans primary) moved
      inSync := copies
      holders := record }

theorem LeadershipSafe.congr_reshape (step : Reshapes a a') (safe : LeadershipSafe registered old a) :
    LeadershipSafe registered old a' where
  changed := by
    intro p leads moved
    rw [step.primary] at leads
    obtain ⟨higher, member, source⟩ := safe.changed p leads moved
    refine ⟨step.term ▸ higher, member, source.imp_right ?_⟩
    rintro ⟨never, empty⟩
    refine ⟨never, List.eq_nil_iff_forall_not_mem.mpr ?_⟩
    intro n held
    have before := step.inSync n held
    simp [empty] at before
  kept := by
    intro same
    rw [step.primary] at same
    exact step.term.trans (safe.kept same)
  inSync := fun n member => safe.inSync n (step.inSync n member)
  holders := by
    intro unserved was n source
    rw [step.state] at unserved
    rw [lastHoldersOf, step.holders unserved]
    exact safe.holders unserved was n source

end OnePartition

theorem lookup_of_position {m : Assignments} (keys : (m.map Prod.fst).Nodup) {i : Nat}
    {entry : Nat × PartitionAssignment} (at_entry : m[i]? = some entry) :
    Assoc.lookup m entry.1 = some entry.2 := by
  induction m generalizing i with
  | nil => simp at at_entry
  | cons first rest ih =>
    rw [List.map_cons, List.nodup_cons] at keys
    cases i with
    | zero =>
      simp only [List.getElem?_cons_zero, Option.some.injEq] at at_entry
      subst at_entry
      simp [Assoc.lookup]
    | succ i =>
      have later : rest[i]? = some entry := by simpa using at_entry
      have other : first.1 ≠ entry.1 := by
        intro same
        exact keys.1 (same ▸ List.mem_map_of_mem (List.mem_of_getElem? later))
      simpa [Assoc.lookup, other] using ih keys.2 later

theorem rebalanceAllocate_assignments (nodes : List (NodeRegistration ν)) (table : AllocationTable)
    (replicationFactor : Nat) (deciders : List (Decider ν)) (retainedNodeIds : List NodeId) :
    (rebalanceAllocate nodes table replicationFactor deciders retainedNodeIds).table.assignments =
      clearRecoveryStateOnServedPartitions (pruneInSyncSets (rebalanceLeadership
        (placedCopies nodes table replicationFactor deciders retainedNodeIds)
        (capacityShares (sortById nodes)) (drainingIds nodes))) := by
  simp only [rebalanceAllocate, placedCopies, drainingIds, placementContext]

theorem clearedUp_getElem? (m : Assignments) (i : Nat) :
    (clearRecoveryStateOnServedPartitions (pruneInSyncSets m))[i]? =
      m[i]?.map fun entry => (entry.1, clearRecoveryState (pruneInSyncSet entry.2)) := by
  simp [clearRecoveryStateOnServedPartitions, pruneInSyncSets, Function.comp_def]

theorem rebalanceAllocate_entry (nodes : List (NodeRegistration ν)) {table : AllocationTable}
    (h : StructuredTable table) (replicationFactor : Nat) {deciders : List (Decider ν)}
    (chain : colocationDecider ∈ deciders) (retainedNodeIds : List NodeId) {partitionId : Nat}
    {old : PartitionAssignment}
    (found : Assoc.lookup table.assignments partitionId = some old) :
    ∃ a a' new, Assoc.lookup (rebalanceAllocate nodes table replicationFactor deciders
        retainedNodeIds).table.assignments partitionId = some new ∧
      Placed (registeredIds nodes) (drainingIds nodes) old a ∧
      HandedAlong (drainingIds nodes) a (handedTo (handoversOf nodes table replicationFactor
        deciders retainedNodeIds) partitionId) a' ∧
      Reshapes a' new := by
  have placed : Assoc.Related (Placed (registeredIds nodes) (drainingIds nodes))
      table.assignments
      (placedCopies nodes table replicationFactor deciders retainedNodeIds) :=
    placeCopies_placed nodes h.structured replicationFactor chain retainedNodeIds
  rw [rebalanceAllocate_assignments, handoversOf]
  generalize placedCopies nodes table replicationFactor deciders retainedNodeIds = copies at placed
  have copies_keys : (copies.map Prod.fst).Nodup := placed.keys ▸ h.keys
  have copies_structured : ∀ entry ∈ copies, Structured entry.2 := by
    intro entry member
    obtain ⟨_, _, _, pair⟩ := placed.value member
    exact pair.structured
  obtain ⟨i, at_old⟩ := List.mem_iff_getElem?.mp (Assoc.mem_of_lookup found)
  have bound : i < copies.length := by
    rw [← placed.length]
    exact (List.getElem?_eq_some_iff.mp at_old).1
  obtain ⟨x, at_x, same, pair⟩ := placed.getElem? (List.getElem?_eq_getElem bound)
  rw [at_old, Option.some.injEq] at at_x
  subst at_x
  obtain ⟨a', at_a', along⟩ := leadershipRounds_handedAlong (capacityShares (sortById nodes))
    (drainingIds nodes) copies.length copies [] copies_keys copies_structured
    (List.getElem?_eq_getElem bound)
  simp only at same
  rw [← same] at at_a' along
  have at_new := clearedUp_getElem? (rebalanceLeadership copies (capacityShares (sortById nodes))
    (drainingIds nodes)) i
  rw [rebalanceLeadership, at_a'] at at_new
  have led := rebalanceLeadership_related (placed.imp fun _ _ p => p.structured)
    (fun _ _ _ _ => handOverTo_structured) (capacityShares (sortById nodes)) (drainingIds nodes)
  have new_keys := (clearedUp_related led fun _ _ _ s step => step.structured s).keys ▸ h.keys
  refine ⟨_, a', _, lookup_of_position new_keys at_new, pair, along, ?_⟩
  exact (pruneInSyncSet_reshapes a').trans (clearRecoveryState_reshapes _)

private def sampleNode (nodeId : NodeId) (gibibytes : Nat) : NodeRegistration Exact where
  nodeId := nodeId
  roles := [.data]
  memoryBytes := .finite (gibibytes * 1024 ^ 3)
  memoryFull := false
  metadata := []
  partitionBytes := []
  draining := false

private def sampleAssignment (primary : NodeId) (replicas : List NodeId) : PartitionAssignment where
  primary := some primary
  replicas := replicas
  inSyncSet := replicas
  removingReplicas := none
  lastHolders := none
  state := .active
  primaryTerm := 1
  commitPoint := 0
  unassignedReason := none

private def sampleTable (assignment : PartitionAssignment) (count : Nat) : AllocationTable where
  indexName := "articles"
  version := 7
  replicationFactor := 1
  assignments := (List.range count).map fun partitionId => (partitionId, assignment)
  indexUuid := none

private def sampleRun (nodes : List (NodeRegistration Exact)) (table : AllocationTable) :
    AllocationTable :=
  (rebalanceAllocate nodes table 1
    (createDeciderChain ⟨false, "zone", none⟩ (readPartitionSizes nodes "articles")) []).table

end Narsil.Allocator
