import Mathlib.Data.Rat.Floor
import Narsil.Allocator.Assignments
import Narsil.Assoc.Groups

/-!
# Which copy of a partition answers a query

A query reads each partition from one of the copies that may serve it: the primary, and the
replicas in the in-sync set. A selector picks the copies one after another, so that a query
has a next one to turn to, and the partitions are grouped by the node of their first copy.
-/
namespace Narsil.Distribution
open Narsil.Allocator (NodeId PartitionAssignment AllocationTable sortCodePoints)

/-- A selector picks one of the candidates. -/
structure ReplicaSelector where
  pick : List NodeId → Nat → NodeId
  picks : ∀ candidates partitionId, candidates ≠ [] → pick candidates partitionId ∈ candidates

def hashBasedSelector : ReplicaSelector where
  pick candidates partitionId := (candidates[partitionId % candidates.length]?).getD ""
  picks candidates partitionId some_candidate := by
    have inside := Nat.mod_lt partitionId (List.length_pos_iff.mpr some_candidate)
    rw [List.getElem?_eq_getElem inside]
    exact List.getElem_mem inside

/-- `random candidates partitionId` is what `Math.random()` gives for that choice. -/
def randomSelector (random : List NodeId → Nat → ℚ) (below_one : ∀ candidates id, random candidates id < 1) :
    ReplicaSelector where
  pick candidates partitionId := (candidates[⌊random candidates partitionId * candidates.length⌋₊]?).getD ""
  picks candidates partitionId some_candidate := by
    have positive := List.length_pos_iff.mpr some_candidate
    have inside : ⌊random candidates partitionId * candidates.length⌋₊ < candidates.length := by
      rw [Nat.floor_lt' (by omega)]
      have scaled := mul_lt_mul_of_pos_right (below_one candidates partitionId) (Nat.cast_pos.mpr positive)
      rwa [one_mul] at scaled
    rw [List.getElem?_eq_getElem inside]
    exact List.getElem_mem inside

/-- The first candidate of the highest weight; `weightOf` is the hash of the query, the partition and the node. -/
def heaviest (weightOf : NodeId → Nat) : List NodeId → Option NodeId
  | [] => none
  | candidate :: candidates =>
    some (candidates.foldl (fun chosen next => if weightOf chosen < weightOf next then next else chosen) candidate)

theorem heaviest_mem {weightOf : NodeId → Nat} {candidates : List NodeId} (some_candidate : candidates ≠ []) :
    (heaviest weightOf candidates).getD "" ∈ candidates := by
  obtain ⟨candidate, others, rfl⟩ := List.exists_cons_of_ne_nil some_candidate
  rw [heaviest, Option.getD_some]
  clear some_candidate
  induction others generalizing candidate with
  | nil => exact List.mem_singleton_self candidate
  | cons next others ih =>
    rw [List.foldl_cons]
    split
    · exact List.mem_cons_of_mem candidate (ih next)
    · rcases List.mem_cons.mp (ih candidate) with same | later
      · rw [same]
        exact List.mem_cons_self
      · exact List.mem_cons_of_mem _ (List.mem_cons_of_mem _ later)

def queryKeyedSelector (weightOf : Nat → NodeId → Nat) : ReplicaSelector where
  pick candidates partitionId := (heaviest (weightOf partitionId) candidates).getD ""
  picks _ _ := heaviest_mem

def preferLocalSelector (localNodeId : NodeId) (fallback : ReplicaSelector) : ReplicaSelector where
  pick candidates partitionId :=
    if localNodeId ∈ candidates then localNodeId else fallback.pick candidates partitionId
  picks candidates partitionId some_candidate := by
    split
    · assumption
    · exact fallback.picks candidates partitionId some_candidate

def collectActiveCandidates (assignment : PartitionAssignment) : List NodeId :=
  if assignment.state ≠ .active then []
  else
    sortCodePoints (assignment.replicas.foldl (fun candidates replica =>
      if replica ∉ assignment.inSyncSet then candidates
      else if replica ∈ candidates then candidates
      else candidates ++ [replica]) assignment.primary.toList)

/-- The loop of `copiesInSelectionOrder`. -/
def selectInOrder (selector : ReplicaSelector) (partitionId : Nat) (remaining : List NodeId) : List NodeId :=
  if remaining = [] then []
  else
    let chosen := selector.pick remaining partitionId
    if chosen ∈ remaining then chosen :: selectInOrder selector partitionId (remaining.erase chosen)
    else chosen :: remaining
termination_by remaining.length
decreasing_by
  rw [List.length_erase_of_mem ‹_›]
  have := List.length_pos_of_mem ‹_›
  omega

def copiesInSelectionOrder (assignment : PartitionAssignment) (selector : ReplicaSelector) (partitionId : Nat) :
    List NodeId :=
  selectInOrder selector partitionId (collectActiveCandidates assignment)

structure PartitionRouting where
  nodeToPartitions : List (NodeId × List Nat)
  copiesByPartition : List (Nat × List NodeId)
  unavailablePartitions : List Nat
  deriving DecidableEq, Repr

/-- One turn of the loop of `selectReplicasForQuery`. -/
def routePartition (selector : ReplicaSelector) (routing : PartitionRouting)
    (partition : Nat × PartitionAssignment) : PartitionRouting :=
  match copiesInSelectionOrder partition.2 selector partition.1 with
  | [] => { routing with unavailablePartitions := routing.unavailablePartitions ++ [partition.1] }
  | selectedNode :: others =>
    { routing with
      copiesByPartition := Assoc.set routing.copiesByPartition partition.1 (selectedNode :: others)
      nodeToPartitions := Assoc.push routing.nodeToPartitions selectedNode partition.1 }

def selectReplicasForQuery (allocationTable : AllocationTable) (selector : ReplicaSelector) : PartitionRouting :=
  allocationTable.assignments.foldl (routePartition selector) ⟨[], [], []⟩

/-- Each partition goes to one node, the first of its distinct copies, or is unavailable. -/
structure WellRouted (routing : PartitionRouting) : Prop where
  once : (routing.copiesByPartition.map Prod.fst ++ routing.unavailablePartitions).Nodup
  sent : (routing.nodeToPartitions.flatMap Prod.snd).Perm (routing.copiesByPartition.map Prod.fst)
  asked : ∀ group ∈ routing.nodeToPartitions, group.2 ≠ []
  first : ∀ group ∈ routing.nodeToPartitions, ∀ partitionId ∈ group.2,
    ∃ others, (partitionId, group.1 :: others) ∈ routing.copiesByPartition
  distinct : ∀ partition ∈ routing.copiesByPartition, partition.2.Nodup

theorem collectActiveCandidates_nodup (assignment : PartitionAssignment) :
    (collectActiveCandidates assignment).Nodup := by
  rw [collectActiveCandidates]
  split
  · exact List.nodup_nil
  · rw [sortCodePoints, (List.perm_insertionSort _ _).nodup_iff]
    have start : assignment.primary.toList.Nodup := by
      cases assignment.primary with
      | none => exact List.nodup_nil
      | some primary => exact List.nodup_singleton primary
    generalize assignment.primary.toList = candidates at start ⊢
    induction assignment.replicas generalizing candidates with
    | nil => exact start
    | cons replica rest ih =>
      rw [List.foldl_cons]
      apply ih
      split
      · exact start
      · split
        · exact start
        next new => exact List.nodup_append.mpr ⟨start, List.nodup_singleton replica, fun a there b last same => by
            rw [List.mem_singleton.mp last] at same
            exact new (same ▸ there)⟩

theorem selectInOrder_perm (selector : ReplicaSelector) (partitionId : Nat) (remaining : List NodeId) :
    (selectInOrder selector partitionId remaining).Perm remaining := by
  fun_induction selectInOrder selector partitionId remaining with
  | case1 => exact .nil
  | case2 remaining _ chosen member ih => exact (ih.cons chosen).trans (List.perm_cons_erase member).symm
  | case3 remaining some_left chosen missing =>
    exact absurd (selector.picks remaining partitionId some_left) missing

theorem copiesInSelectionOrder_nodup (assignment : PartitionAssignment) (selector : ReplicaSelector)
    (partitionId : Nat) : (copiesInSelectionOrder assignment selector partitionId).Nodup :=
  (selectInOrder_perm selector partitionId _).nodup_iff.mpr (collectActiveCandidates_nodup assignment)

theorem WellRouted.routePartition {routing : PartitionRouting} (routed : WellRouted routing) (selector : ReplicaSelector)
    {partition : Nat × PartitionAssignment}
    (new : partition.1 ∉ routing.copiesByPartition.map Prod.fst ++ routing.unavailablePartitions) :
    WellRouted (routePartition selector routing partition) := by
  have copies_once := copiesInSelectionOrder_nodup partition.2 selector partition.1
  rw [List.mem_append, not_or] at new
  rw [Distribution.routePartition]
  split
  next none_left =>
    constructor
    · rw [← List.append_assoc]
      apply List.nodup_append.mpr ⟨routed.once, List.nodup_singleton _, _⟩
      rintro a there b last rfl
      rw [List.mem_singleton.mp last] at there
      exact (List.mem_append.mp there).elim new.1 new.2
    · exact routed.sent
    · exact routed.asked
    · exact routed.first
    · exact routed.distinct
  next selectedNode others copies =>
    rw [copies] at copies_once
    have copies_set := Assoc.set_new (selectedNode :: others) new.1
    constructor
    · simp only [copies_set, List.map_append, List.map_cons, List.map_nil, List.append_assoc, List.singleton_append]
      apply List.perm_middle.nodup_iff.mpr
      rw [List.nodup_cons, List.mem_append, not_or]
      exact ⟨new, routed.once⟩
    · simp only [copies_set, List.map_append, List.map_cons, List.map_nil]
      exact (Assoc.push_perm _ selectedNode partition.1).trans
        ((routed.sent.cons partition.1).trans (List.perm_append_singleton _ _).symm)
    · exact Assoc.push_ne_nil routed.asked
    · intro group member partitionId inside
      rw [copies_set]
      rcases Assoc.mem_push member inside with ⟨node, id⟩ | ⟨ids, before, among⟩
      · exact ⟨others, by rw [node, id]; simp⟩
      · obtain ⟨later, listed⟩ := routed.first _ before partitionId among
        exact ⟨later, List.mem_append_left _ listed⟩
    · rw [copies_set]
      intro listed member
      rcases List.mem_append.mp member with before | last
      · exact routed.distinct listed before
      · rw [List.mem_singleton.mp last]
        exact copies_once

/-- The partitions that have come up so far. -/
def routedIds (routing : PartitionRouting) : List Nat :=
  routing.copiesByPartition.map Prod.fst ++ routing.unavailablePartitions

theorem routedIds_routePartition {routing : PartitionRouting} {selector : ReplicaSelector}
    {partition : Nat × PartitionAssignment} (new : partition.1 ∉ routedIds routing) :
    (routedIds (routePartition selector routing partition)).Perm (partition.1 :: routedIds routing) := by
  rw [routePartition]
  split
  · rw [routedIds, ← List.append_assoc]
    exact List.perm_append_singleton _ _
  next selectedNode others _ =>
    have new_copy : partition.1 ∉ routing.copiesByPartition.map Prod.fst :=
      fun there => new (List.mem_append_left _ there)
    simp only [routedIds, Assoc.set_new (selectedNode :: others) new_copy, List.map_append, List.map_cons, List.map_nil,
      List.append_assoc, List.singleton_append]
    exact List.perm_middle

theorem selectReplicasForQuery_routed (allocationTable : AllocationTable)
    (distinct : (allocationTable.assignments.map Prod.fst).Nodup) (selector : ReplicaSelector) :
    WellRouted (selectReplicasForQuery allocationTable selector) ∧
      (routedIds (selectReplicasForQuery allocationTable selector)).Perm (allocationTable.assignments.map Prod.fst) := by
  suffices run : ∀ (partitions : List (Nat × PartitionAssignment)) (routing : PartitionRouting), WellRouted routing →
      (routedIds routing ++ partitions.map Prod.fst).Nodup →
      WellRouted (partitions.foldl (routePartition selector) routing) ∧
        (routedIds (partitions.foldl (routePartition selector) routing)).Perm
          (routedIds routing ++ partitions.map Prod.fst) by
    have empty : WellRouted ⟨[], [], []⟩ := by
      constructor <;> simp
    exact run allocationTable.assignments _ empty distinct
  intro partitions
  induction partitions with
  | nil =>
    intro routing routed _
    exact ⟨routed, by simp⟩
  | cons partition rest ih =>
    intro routing routed once
    have split : (routedIds routing ++ (partition :: rest).map Prod.fst).Perm
        (partition.1 :: (routedIds routing ++ rest.map Prod.fst)) := List.perm_middle
    have apart := List.nodup_cons.mp (split.nodup_iff.mp once)
    have new : partition.1 ∉ routedIds routing := fun there => apart.1 (List.mem_append_left _ there)
    have ids := (@routedIds_routePartition routing selector partition new).append_right (rest.map Prod.fst)
    obtain ⟨rest_routed, rest_ids⟩ := ih _ (routed.routePartition selector new)
      ((ids.trans split.symm).nodup_iff.mpr once)
    exact ⟨rest_routed, rest_ids.trans (ids.trans split.symm)⟩

end Narsil.Distribution
