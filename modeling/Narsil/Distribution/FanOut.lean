import Mathlib.Algebra.GroupWithZero.Nat
import Narsil.Assoc.Entries
import Narsil.Distribution.MergeEntries

/-!
# A query over several nodes

A query asks each node for the first `limit + offset` entries of the partitions the node
serves, merges what they answer and cuts its page from the merge. Facets, groups, pinned
entries and the cursor are left out.
-/
namespace Narsil.Distribution
open Narsil.Ordering Narsil.Ranking

structure PartitionSearchResult where
  partitionId : Nat
  scored : List ScoredEntry
  totalHits : Nat
  deriving DecidableEq, Repr

inductive OutcomeStatus
  | success | timeout | failed
  deriving DecidableEq, Repr

structure NodeQueryOutcome where
  nodeId : String
  partitionIds : List Nat
  status : OutcomeStatus
  results : Option (List PartitionSearchResult)
  deriving DecidableEq, Repr

structure QueryCoverage where
  totalPartitions : Nat
  queriedPartitions : Nat
  timedOutPartitions : Nat
  failedPartitions : Nat
  deriving DecidableEq, Repr

/-- What a node answers: all its hits and their count under the first of its partitions. -/
def handleSearch (partitionIds : List Nat) (hits : List ScoredEntry) (count : Nat) :
    List PartitionSearchResult :=
  partitionIds.map fun partitionId =>
    { partitionId
      scored := if some partitionId = partitionIds[0]? then hits else []
      totalHits := if some partitionId = partitionIds[0]? then count else 0 }

def outcomeSeverity : OutcomeStatus → Nat
  | .success => 0
  | .timeout => 1
  | .failed => 2

/-- The worse of two outcomes of a partition. -/
def noteWorst (worst : List (Nat × OutcomeStatus)) (status : OutcomeStatus) (partitionId : Nat) :
    List (Nat × OutcomeStatus) :=
  match Assoc.lookup worst partitionId with
  | none => Assoc.set worst partitionId status
  | some soFar =>
    if outcomeSeverity soFar < outcomeSeverity status then Assoc.set worst partitionId status else worst

def worstByPartition (unavailablePartitions : List Nat) (outcomes : List NodeQueryOutcome) :
    List (Nat × OutcomeStatus) :=
  outcomes.foldl (fun worst outcome => outcome.partitionIds.foldl (noteWorst · outcome.status ·) worst)
    (unavailablePartitions.foldl (Assoc.set · · .failed) [])

def buildCoverage (totalPartitions : Nat) (unavailablePartitions : List Nat) (outcomes : List NodeQueryOutcome) :
    QueryCoverage :=
  let worst := (worstByPartition unavailablePartitions outcomes).map Prod.snd
  { totalPartitions
    queriedPartitions := worst.countP (· = .success)
    timedOutPartitions := worst.countP (· = .timeout)
    failedPartitions := worst.countP (· = .failed) }

/-- A node that left the sort values out of an entry has failed. -/
def failOutcomesMissingSortValues (outcomes : List NodeQueryOutcome) : List NodeQueryOutcome :=
  outcomes.map fun outcome =>
    match outcome.status, outcome.results with
    | .success, some results =>
      if results.any fun partition => partition.scored.any fun entry => entry.sortValues.isNone then
        { outcome with status := .failed, results := none }
      else outcome
    | _, _ => outcome

/-- What the nodes that answered found, by partition. -/
def answeredPartitions (outcomes : List NodeQueryOutcome) : List PartitionSearchResult :=
  outcomes.flatMap fun outcome =>
    match outcome.status, outcome.results with
    | .success, some results => results
    | _, _ => []

structure DistributedQueryResult where
  scored : List ScoredEntry
  totalHits : Nat
  coverage : QueryCoverage
  mergeHeldEveryMatch : Bool
  deriving DecidableEq, Repr

structure QueryPartialFailure where
  message : String
  coverage : QueryCoverage
  deriving DecidableEq, Repr

structure FanOutQuery where
  /-- The directions of the sort; none where scores rank. -/
  sort : List SortDirection
  limit : Nat
  offset : Nat
  allowPartialResults : Bool
  totalPartitions : Nat
  unavailablePartitions : List Nat
  deriving DecidableEq, Repr

def executeSingleFanOut (table : FoldTable) (query : FanOutQuery) (answers : List NodeQueryOutcome) :
    Except QueryPartialFailure DistributedQueryResult :=
  let depth := query.limit + query.offset
  let outcomes := if query.sort ≠ [] then failOutcomesMissingSortValues answers else answers
  let coverage := buildCoverage query.totalPartitions query.unavailablePartitions outcomes
  if query.allowPartialResults = false ∧ 0 < coverage.timedOutPartitions + coverage.failedPartitions then
    .error ⟨"One or more partitions failed during query", coverage⟩
  else
    let partitions := answeredPartitions outcomes
    let totalHits := (partitions.map PartitionSearchResult.totalHits).sum
    let allScored := (partitions.map PartitionSearchResult.scored).filter fun scored => 0 < scored.length
    let merged :=
      if query.sort ≠ [] then mergeAndTruncateSortedEntries table allScored depth query.sort
      else mergeAndTruncateScoredEntries allScored depth
    .ok
      { scored := (merged.take depth).drop query.offset
        totalHits
        coverage
        mergeHeldEveryMatch :=
          coverage.queriedPartitions = coverage.totalPartitions && totalHits ≤ merged.length }

/-- The share of a node: the partitions it is asked for, and the entries they hold. -/
structure NodeShare where
  nodeId : String
  partitionIds : List Nat
  entries : List ScoredEntry
  asked : partitionIds ≠ []
  once : partitionIds.Nodup

/-- The order of a query. -/
def rankOf (table : FoldTable) (sort : List SortDirection) : ScoredEntry → ScoredEntry → Ordering :=
  if sort ≠ [] then bySortValues table sort else compareByScoreThenId

/-- The node answers its own best entries in rank order, and how many it has. -/
def NodeShare.answer (table : FoldTable) (query : FanOutQuery) (share : NodeShare) : NodeQueryOutcome where
  nodeId := share.nodeId
  partitionIds := share.partitionIds
  status := .success
  results := some (handleSearch share.partitionIds
    ((sorted (rankOf table query.sort) share.entries).take (query.limit + query.offset)) share.entries.length)

/-- The page of one ranking of all entries. -/
def localPage (table : FoldTable) (query : FanOutQuery) (entries : List ScoredEntry) : List ScoredEntry :=
  ((sorted (rankOf table query.sort) entries).drop query.offset).take query.limit

instance (table : FoldTable) (sort : List SortDirection) : Std.TransCmp (rankOf table sort) := by
  rw [rankOf]
  split <;> infer_instance

theorem rankOf_ties (table : FoldTable) (sort : List SortDirection) : TiesById (rankOf table sort) := by
  rw [rankOf]
  split
  · exact bySortValues_ties table sort
  · exact compareByScoreThenId_ties

theorem handleSearch_eq {first : Nat} {others : List Nat} (once : (first :: others).Nodup)
    (hits : List ScoredEntry) (count : Nat) :
    handleSearch (first :: others) hits count =
      ⟨first, hits, count⟩ :: others.map fun partitionId => ⟨partitionId, [], 0⟩ := by
  rw [handleSearch, List.map_cons]
  congr 1
  · simp
  · apply List.map_congr_left
    intro partitionId member
    have other : partitionId ≠ first := by
      rintro rfl
      exact (List.nodup_cons.mp once).1 member
    simp [other]

theorem noteWorst_success {worst : List (Nat × OutcomeStatus)} {partitionId : Nat}
    (fine : ∀ entry ∈ worst, entry.2 = .success) :
    ∀ entry ∈ noteWorst worst .success partitionId, entry.2 = .success := by
  intro entry member
  rw [noteWorst] at member
  split at member
  · rcases Assoc.mem_set member with rfl | old
    · rfl
    · exact fine entry old
  · -- Nothing is less severe than a success.
    split at member
    next worse => exact absurd worse (Nat.not_lt_zero _)
    next => exact fine entry member

theorem worstByPartition_success {outcomes : List NodeQueryOutcome}
    (answered : ∀ outcome ∈ outcomes, outcome.status = .success) :
    ∀ entry ∈ worstByPartition [] outcomes, entry.2 = .success := by
  have note (partitionIds : List Nat) (worst : List (Nat × OutcomeStatus))
      (fine : ∀ entry ∈ worst, entry.2 = .success) :
      ∀ entry ∈ partitionIds.foldl (noteWorst · .success ·) worst, entry.2 = .success := by
    induction partitionIds generalizing worst with
    | nil => exact fine
    | cons partitionId partitionIds ih => exact ih _ (noteWorst_success fine)
  have noteAll (worst : List (Nat × OutcomeStatus)) (fine : ∀ entry ∈ worst, entry.2 = .success) :
      ∀ entry ∈ outcomes.foldl (fun worst outcome =>
        outcome.partitionIds.foldl (noteWorst · outcome.status ·) worst) worst, entry.2 = .success := by
    induction outcomes generalizing worst with
    | nil => exact fine
    | cons outcome outcomes ih =>
      rw [List.foldl_cons, answered outcome List.mem_cons_self]
      exact ih (fun later member => answered later (List.mem_cons_of_mem _ member)) _
        (note outcome.partitionIds worst fine)
  exact noteAll [] (by simp)

theorem buildCoverage_lost (totalPartitions : Nat) {outcomes : List NodeQueryOutcome}
    (answered : ∀ outcome ∈ outcomes, outcome.status = .success) :
    (buildCoverage totalPartitions [] outcomes).timedOutPartitions +
      (buildCoverage totalPartitions [] outcomes).failedPartitions = 0 := by
  have none (status : OutcomeStatus) (lost : status ≠ .success) :
      ((worstByPartition [] outcomes).map Prod.snd).countP (· = status) = 0 := by
    apply List.countP_eq_zero.mpr
    intro found member
    obtain ⟨entry, listed, rfl⟩ := List.mem_map.mp member
    rw [worstByPartition_success answered entry listed]
    simpa using lost.symm
  rw [buildCoverage]
  simp only [none .timeout (by simp), none .failed (by simp)]

section Answers
variable {table : FoldTable} {query : FanOutQuery} {shares : List NodeShare} {entries : List ScoredEntry}

/-- The best entries of a node, as many as the page reaches to. -/
def NodeShare.best (table : FoldTable) (query : FanOutQuery) (share : NodeShare) : List ScoredEntry :=
  (sorted (rankOf table query.sort) share.entries).take (query.limit + query.offset)

theorem NodeShare.best_subset (share : NodeShare) : ∀ entry ∈ share.best table query, entry ∈ share.entries :=
  fun _ member => sorted_perm.mem_iff.mp (List.mem_of_mem_take member)

theorem answeredPartitions_answer (shares : List NodeShare) :
    answeredPartitions (shares.map (NodeShare.answer table query)) =
      shares.flatMap fun share => handleSearch share.partitionIds (share.best table query) share.entries.length := by
  rw [answeredPartitions, List.flatMap_map]
  rfl

theorem totalHits_answer (shares : List NodeShare) :
    ((answeredPartitions (shares.map (NodeShare.answer table query))).map
      PartitionSearchResult.totalHits).sum = (shares.flatMap NodeShare.entries).length := by
  rw [answeredPartitions_answer]
  induction shares with
  | nil => rfl
  | cons share shares ih =>
    rw [List.flatMap_cons, List.map_append, List.sum_append, ih, List.flatMap_cons, List.length_append]
    congr 1
    cases asked : share.partitionIds with
    | nil => exact absurd asked share.asked
    | cons first others =>
      rw [handleSearch_eq (asked ▸ share.once)]
      simp [Function.comp_def]

theorem scored_answer (shares : List NodeShare) :
    (((answeredPartitions (shares.map (NodeShare.answer table query))).map
      PartitionSearchResult.scored).filter fun scored => 0 < scored.length).flatten =
        (shares.map (NodeShare.best table query)).flatten := by
  rw [flatten_nonEmpty, answeredPartitions_answer]
  induction shares with
  | nil => rfl
  | cons share shares ih =>
    rw [List.flatMap_cons, List.map_append, List.flatten_append, ih, List.map_cons, List.flatten_cons]
    congr 1
    cases asked : share.partitionIds with
    | nil => exact absurd asked share.asked
    | cons first others =>
      rw [handleSearch_eq (asked ▸ share.once)]
      simp [Function.comp_def]

theorem scored_answer_mem {scored : List ScoredEntry}
    (member : scored ∈ (answeredPartitions (shares.map (NodeShare.answer table query))).map
      PartitionSearchResult.scored) : scored = [] ∨ ∃ share ∈ shares, scored = share.best table query := by
  rw [answeredPartitions_answer] at member
  obtain ⟨result, listed, rfl⟩ := List.mem_map.mp member
  obtain ⟨share, among, listed⟩ := List.mem_flatMap.mp listed
  obtain ⟨partitionId, _, rfl⟩ := List.mem_map.mp listed
  dsimp only
  split
  · exact .inr ⟨share, among, rfl⟩
  · exact .inl rfl

theorem failOutcomesMissingSortValues_answer
    (keyed : ∀ share ∈ shares, ∀ entry ∈ share.entries, entry.sortValues.isSome) :
    failOutcomesMissingSortValues (shares.map (NodeShare.answer table query)) =
      shares.map (NodeShare.answer table query) := by
  rw [failOutcomesMissingSortValues, List.map_map]
  apply List.map_congr_left
  intro share among
  have whole : ((handleSearch share.partitionIds (share.best table query) share.entries.length).any
      fun partition => partition.scored.any fun entry => entry.sortValues.isNone) = false := by
    apply Bool.eq_false_iff.mpr
    intro missing
    obtain ⟨partition, listed, missing⟩ := List.any_eq_true.mp missing
    obtain ⟨entry, held, absent⟩ := List.any_eq_true.mp missing
    obtain ⟨partitionId, _, rfl⟩ := List.mem_map.mp listed
    have mine : entry ∈ share.best table query := by
      dsimp only at held
      split at held
      · exact held
      · cases held
    have present := keyed share among entry (share.best_subset entry mine)
    rw [Option.isNone_iff_eq_none.mp absent] at present
    cases present
  simp only [Function.comp_apply, NodeShare.answer]
  rw [if_neg]
  rw [NodeShare.best] at whole
  rw [whole]
  decide

/-- What the lists of the nodes merge to, as far as the page reaches, is the ranking of all
entries: only the first ones of a node can show there. -/
theorem merged_answer (distinct : Distinct (rankOf table query.sort) entries)
    (parts : (shares.flatMap NodeShare.entries).Perm entries) :
    mergeAndTruncate (rankOf table query.sort)
        (((answeredPartitions (shares.map (NodeShare.answer table query))).map
          PartitionSearchResult.scored).filter fun scored => 0 < scored.length)
        (query.limit + query.offset) =
      (sorted (rankOf table query.sort) entries).take (query.limit + query.offset) := by
  have apart : Distinct (rankOf table query.sort) (shares.map NodeShare.entries).flatten :=
    distinct.of_perm (List.flatMap_def ▸ parts.symm)
  have fewer : ((shares.map (NodeShare.best table query)).flatten).Subperm (shares.map NodeShare.entries).flatten := by
    clear apart parts
    induction shares with
    | nil => exact .refl _
    | cons share shares ih =>
      exact ((List.take_sublist _ _).subperm.trans sorted_perm.subperm).append ih
  rw [mergeAndTruncate_ranked (by rw [scored_answer]; exact apart.of_subperm fewer)]
  · rw [scored_answer]
    have firsts := @take_sorted_parts _ (rankOf table query.sort) _ (query.limit + query.offset) []
      (shares.map NodeShare.entries) (by rw [List.nil_append]; exact apart)
    rw [List.nil_append, List.nil_append, List.map_map] at firsts
    rw [sorted_congr distinct (List.flatMap_def ▸ parts.symm)]
    exact firsts
  · intro scored member
    rcases scored_answer_mem (List.mem_filter.mp member).1 with rfl | ⟨share, among, rfl⟩
    · exact List.Pairwise.nil
    · have mine : share.entries.Subperm (shares.map NodeShare.entries).flatten :=
        (List.sublist_flatten_of_mem (List.mem_map_of_mem among)).subperm
      exact (sorted_ranked (apart.of_subperm mine)).sublist (List.take_sublist _ _)

/-- A page of several nodes is the page of one ranking, and counts every entry; where it is
merged from one list, from a few or from many makes no difference. -/
theorem executeSingleFanOut_page (table : FoldTable) (query : FanOutQuery) (shares : List NodeShare)
    (entries : List ScoredEntry) (once : (entries.map ScoredEntry.docId).Nodup)
    (parts : (shares.flatMap NodeShare.entries).Perm entries)
    (keyed : query.sort ≠ [] → ∀ entry ∈ entries, entry.sortValues.isSome)
    (served : query.unavailablePartitions = []) :
    (∃ result, executeSingleFanOut table query (shares.map (NodeShare.answer table query)) = .ok result ∧
      result.scored = localPage table query entries ∧ result.totalHits = entries.length) ∧
    ∀ (arrays : List (List ScoredEntry)) (limit : Nat),
      (arrays.flatten.map ScoredEntry.docId).Nodup →
        sequentialMergeScoredEntries (rankOf table query.sort) arrays limit =
          heapMergeScoredEntries (rankOf table query.sort) arrays limit := by
  have ties := rankOf_ties table query.sort
  constructor
  · have outcomes_ : (if query.sort ≠ [] then
        failOutcomesMissingSortValues (shares.map (NodeShare.answer table query))
        else shares.map (NodeShare.answer table query)) = shares.map (NodeShare.answer table query) := by
      split
      next sorts =>
        apply failOutcomesMissingSortValues_answer
        intro share among entry held
        exact keyed sorts entry (parts.mem_iff.mp (List.mem_flatMap.mpr ⟨share, among, held⟩))
      next => rfl
    have answered : ∀ outcome ∈ shares.map (NodeShare.answer table query), outcome.status = .success := by
      intro outcome member
      obtain ⟨share, _, rfl⟩ := List.mem_map.mp member
      rfl
    have lost := buildCoverage_lost query.totalPartitions answered
    have merged := merged_answer (ties.distinct once) parts
    have byOrder (arrays : List (List ScoredEntry)) (depth : Nat) :
        (if query.sort ≠ [] then mergeAndTruncateSortedEntries table arrays depth query.sort
          else mergeAndTruncateScoredEntries arrays depth) =
            mergeAndTruncate (rankOf table query.sort) arrays depth := by
      rw [rankOf]
      split <;> rfl
    rw [executeSingleFanOut]
    simp only [outcomes_, served, lost, Nat.lt_irrefl, and_false, if_false, byOrder, merged]
    refine ⟨_, rfl, ?_, ?_⟩
    · rw [List.take_take, Nat.min_self, List.drop_take, Nat.add_sub_cancel]
      rfl
    · rw [totalHits_answer]
      exact parts.length_eq
  · intro arrays limit apart
    exact sequentialMerge_eq_heapMerge (ties.distinct apart) limit

/-- Two nodes with three entries, two of which tie on the sort. -/
def twoNodes : List NodeShare :=
  [⟨"n1", [0], [⟨[98], none, some [.boolean true]⟩, ⟨[99], none, some [.other]⟩], by decide, by decide⟩,
    ⟨"n2", [1, 2], [⟨[97], none, some [.boolean true]⟩], by decide, by decide⟩]

theorem executeSingleFanOut_page_two_nodes :
    ∃ result, executeSingleFanOut ⟨fun _ => none, fun _ => none⟩ ⟨[.desc], 1, 1, false, 3, []⟩
        (twoNodes.map (NodeShare.answer ⟨fun _ => none, fun _ => none⟩ ⟨[.desc], 1, 1, false, 3, []⟩)) = .ok result ∧
      result.scored = localPage ⟨fun _ => none, fun _ => none⟩ ⟨[.desc], 1, 1, false, 3, []⟩
        (twoNodes.flatMap NodeShare.entries) ∧
      result.totalHits = 3 :=
  (executeSingleFanOut_page ⟨fun _ => none, fun _ => none⟩ ⟨[.desc], 1, 1, false, 3, []⟩ twoNodes
    (twoNodes.flatMap NodeShare.entries) (by decide) (.refl _) (fun _ => by decide) rfl).1

end Answers

end Narsil.Distribution
