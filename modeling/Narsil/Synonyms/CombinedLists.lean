import Narsil.Synonyms.CombinedSum

/-!
# One list of many

What both ways give is one list of the live rows: their pairs by document, in a document in
the order in which they came up, each with the sum of its frequencies.
-/
namespace Narsil.Synonyms

/-- The ids of documents in turn. -/
def allDocuments : List (Fin (2 ^ 32)) := List.finRange (2 ^ 32)

theorem allDocuments_ascending : allDocuments.Pairwise (· < ·) := List.pairwise_lt_finRange (2 ^ 32)

theorem mem_allDocuments (docId : Fin (2 ^ 32)) : docId ∈ allDocuments := List.mem_finRange docId

attribute [irreducible] allDocuments

def documentOfSum (entry : Pair × Nat) : Fin (2 ^ 32) := entry.1.1

/-- The list of rows none of which is deleted. -/
def sumsOf (live : List PostingRow) : PostingListView where
  rows := (Buckets.inTurn documentOfSum allDocuments (pairSums live)).map rowOfSum
  docIdSet := (live.map PostingRow.docId).toFinset
  deletedDocs := NO_DELETED
  totalTermFrequency := (live.map PostingRow.termFrequency).sum
  ordered := false
  ascending := nofun

variable {live : List PostingRow} {combined : CombinedRows} {lists : List PostingListView}

theorem listOf_eq {order : Option (List Nat)} (rows : (listOf combined order).rows = (sumsOf live).rows)
    (documents : combined.documents = (sumsOf live).docIdSet)
    (total : combined.totalTermFrequency = (sumsOf live).totalTermFrequency) :
    listOf combined order = sumsOf live := by
  cases isList : listOf combined order with
  | mk listRows docIdSet deletedDocs totalTermFrequency ordered ascending =>
    rw [isList] at rows
    obtain ⟨-, rfl, rfl, rfl, rfl⟩ := (PostingListView.mk.injEq ..).mp isList
    simp only [sumsOf, PostingListView.mk.injEq] at rows documents total ⊢
    exact ⟨rows, documents, trivial, total, trivial⟩

theorem ofDocument_sums (docId : Fin (2 ^ 32)) (rows : List PostingRow) :
    (pairSums rows).filter (fun entry => documentOfSum entry = docId) = pairSums (ofDocument docId rows) :=
  filter_pairSums (· = docId) rows

theorem mergedList_eq (ordered : ∀ list ∈ lists, list.ordered = true) :
    mergedList NO_ROWS lists = (sumsOf (allLive lists), NO_ROWS) := by
  have sorted : ∀ cursor ∈ lists.map (fun list => (⟨list, list.rows⟩ : Cursor)),
      cursor.rest.Pairwise fun row later => row.docId ≤ later.docId := by
    intro cursor isIn
    obtain ⟨list, isList, rfl⟩ := List.mem_map.mp isIn
    exact list.ascending (ordered list isList)
  obtain ⟨merged, combines, clean, merged_sorted, documents⟩ := mergeOrderedLists_spec _ ⟨noRows, NO_ROWS⟩ [] sorted
    noRows_combines rfl List.Pairwise.nil nofun
  rw [List.nil_append] at combines merged_sorted
  have live_left : liveLeft (lists.map fun list => ⟨list, list.rows⟩) = allLive lists := by
    rw [liveLeft, List.flatMap_map]
    rfl
  have in_turn : merged = Buckets.inTurn PostingRow.docId allDocuments (allLive lists) :=
    Buckets.eq_of_buckets allDocuments_ascending merged_sorted (fun _ _ => mem_allDocuments _) fun docId _ => by
      rw [← live_left]
      exact documents docId
  have perm : merged.Perm (allLive lists) := by
    rw [in_turn]
    exact Buckets.inTurn_perm (allDocuments_ascending.imp ne_of_lt) fun _ _ => mem_allDocuments _
  have sums_sorted : (pairSums merged).Pairwise fun entry later => documentOfSum entry ≤ documentOfSum later := by
    have pairs_sorted : (merged.map PostingRow.pair).Pairwise fun pair later => pair.1 ≤ later.1 :=
      List.pairwise_map.mpr merged_sorted
    have keys_sorted : ((pairSums merged).map Prod.fst).Pairwise fun pair later => pair.1 ≤ later.1 :=
      pairs_sorted.sublist (Assoc.collect_keys_sublist PostingRow.pair PostingRow.termFrequency _ merged)
    rwa [List.pairwise_map] at keys_sorted
  have sums : pairSums merged = Buckets.inTurn documentOfSum allDocuments (pairSums (allLive lists)) :=
    Buckets.eq_of_buckets allDocuments_ascending sums_sorted (fun _ _ => mem_allDocuments _) fun docId _ => by
      rw [ofDocument_sums, ofDocument_sums, documents, live_left]
  simp only [mergedList, clean, Prod.mk.injEq, and_true]
  refine listOf_eq ?_ (combines.documents.trans ?_) (combines.total.trans ?_)
  · exact combines.rows.trans (congrArg (List.map rowOfSum) sums)
  · exact List.toFinset_eq_of_perm _ _ (perm.map _)
  · exact (perm.map _).sum_eq

theorem unorderedList_eq (lists : List PostingListView) : unorderedList lists = sumsOf (allLive lists) := by
  have combines := combineUnorderedLists_spec lists
  rw [unorderedList]
  refine listOf_eq ?_ combines.documents combines.total
  generalize allLive lists = live at combines
  generalize combineUnorderedLists lists = combined at combines
  have documents : combined.rows.map PostingRow.docId = (pairSums live).map documentOfSum := by
    rw [combines.rows, List.map_map]
    rfl
  let before (left right : Nat) : Bool :=
    let here := ((pairSums live).map documentOfSum).getD left 0
    let there := ((pairSums live).map documentOfSum).getD right 0
    here < there || here == there && left ≤ right
  have before_iff (left right : Nat) : before left right = true ↔
      ((pairSums live).map documentOfSum).getD left 0 < ((pairSums live).map documentOfSum).getD right 0 ∨
        ((pairSums live).map documentOfSum).getD left 0 = ((pairSums live).map documentOfSum).getD right 0 ∧
          left ≤ right := by
    simp only [before, Bool.or_eq_true, Bool.and_eq_true, decide_eq_true_eq, beq_iff_eq]
  have order_sorted : (rowsByDocument ((pairSums live).map documentOfSum)).Pairwise fun left right =>
      before left right = true := by
    apply List.pairwise_mergeSort
    · intro first second third first_second second_third
      rw [before_iff] at first_second second_third ⊢
      omega
    · intro left right
      rw [Bool.or_eq_true, before_iff, before_iff]
      omega
  have order_perm : (rowsByDocument ((pairSums live).map documentOfSum)).Perm (List.range (pairSums live).length) := by
    rw [rowsByDocument, List.length_map]
    exact List.mergeSort_perm _ _
  have in_turn := @Buckets.sortedPlaces _ _ _ documentOfSum _ _ _ allDocuments_ascending
    (fun _ _ => mem_allDocuments _) order_perm (order_sorted.imp fun {left right} ordered x y isX isY => ?_)
  · rw [listOf, documents]
    simp only [sumsOf, combines.rows, List.getElem?_map]
    rw [← in_turn, List.map_filterMap]
  · rw [before_iff] at ordered
    simpa [List.getD, isX, isY] using ordered

/-- One row for each live pair, by document, and counts that are those of the rows. -/
structure SumsLive (lists : List PostingListView) (view : PostingListView) : Prop where
  distinct : (view.rows.map PostingRow.pair).Nodup
  pairs : ∀ pair, (∃ row ∈ view.rows, row.pair = pair) ↔ ∃ row ∈ allLive lists, row.pair = pair
  frequency : ∀ row ∈ view.rows, row.termFrequency =
    (((allLive lists).filter fun other => other.pair = row.pair).map PostingRow.termFrequency).sum
  sorted : view.rows.Pairwise fun row later => row.docId ≤ later.docId
  documents : view.docIdSet = (view.rows.map PostingRow.docId).toFinset
  total : view.totalTermFrequency = (view.rows.map PostingRow.termFrequency).sum
  none_deleted : ∀ docId, view.deletedDocs.has docId = false

theorem sumsOf_sums (lists : List PostingListView) : SumsLive lists (sumsOf (allLive lists)) := by
  generalize same : allLive lists = live
  have perm : (sumsOf live).rows.Perm ((pairSums live).map rowOfSum) :=
    (Buckets.inTurn_perm (allDocuments_ascending.imp ne_of_lt) fun _ _ => mem_allDocuments _).map _
  have pairs_perm : ((sumsOf live).rows.map PostingRow.pair).Perm ((pairSums live).map Prod.fst) := by
    have mapped := perm.map PostingRow.pair
    rwa [List.map_map] at mapped
  have pairs (pair : Pair) : (∃ row ∈ (sumsOf live).rows, row.pair = pair) ↔ ∃ row ∈ live, row.pair = pair := by
    rw [← @mem_keys_pairSums live pair, ← pairs_perm.mem_iff, List.mem_map]
  refine ⟨pairs_perm.nodup_iff.mpr (pairSums_distinct live), ?_, ?_, ?_, ?_, ?_, fun _ => rfl⟩
  · rw [same]
    exact pairs
  · intro row isIn
    obtain ⟨entry, isEntry, rfl⟩ := List.mem_map.mp (perm.mem_iff.mp isIn)
    rw [same]
    exact mem_pairSums isEntry
  · exact List.pairwise_map.mpr (Buckets.inTurn_sorted allDocuments_ascending _)
  · ext docId
    rw [List.mem_toFinset, sumsOf, List.mem_toFinset, List.mem_map, List.mem_map]
    constructor
    · rintro ⟨row, isRow, rfl⟩
      obtain ⟨found, isFound, same_pair⟩ := (pairs row.pair).mpr ⟨row, isRow, rfl⟩
      exact ⟨found, isFound, congrArg Prod.fst same_pair⟩
    · rintro ⟨found, isFound, rfl⟩
      obtain ⟨row, isRow, same_pair⟩ := (pairs found.pair).mp ⟨found, isFound, rfl⟩
      exact ⟨row, isRow, congrArg Prod.fst same_pair⟩
  · rw [(perm.map PostingRow.termFrequency).sum_eq, List.map_map]
    exact (sum_pairSums live).symm

/-- Calls in turn, each with the `rowOfField` of the one before. -/
def combineInTurn (rowOfField : RowOfField) : List (List PostingListView) → List PostingListView
  | [] => []
  | lists :: later =>
    let (view, rowOfField) := combinePostingLists rowOfField lists
    view :: combineInTurn rowOfField later

theorem combinePostingLists_several (several : lists.length ≠ 1) :
    combinePostingLists NO_ROWS lists = (sumsOf (allLive lists), NO_ROWS) := by
  have notSingle : ∀ list, lists = [list] → False := fun list same => several (congrArg List.length same)
  rw [combinePostingLists]
  · split
    next ordered => exact mergedList_eq fun list isIn => List.all_eq_true.mp ordered list isIn
    next => rw [unorderedList_eq]
  · exact notSingle

/-- Several lists make the sums of their live rows whatever was combined before, a single list
is given as it is, and for ordered lists both ways give the same. -/
theorem combineInTurn_sums (calls : List (List PostingListView)) :
    List.Forall₂ (fun lists view =>
        (∀ list, lists = [list] → view = list) ∧ (lists.length ≠ 1 → SumsLive lists view))
      calls (combineInTurn NO_ROWS calls) ∧
    ∀ lists : List PostingListView, (∀ list ∈ lists, list.ordered = true) →
      (mergedList NO_ROWS lists).1 = unorderedList lists := by
  constructor
  · induction calls with
    | nil => exact .nil
    | cons lists later ih =>
      by_cases several : lists.length = 1
      · obtain ⟨list, rfl⟩ := List.length_eq_one_iff.mp several
        refine .cons ⟨fun other same => ?_, fun notOne => absurd rfl notOne⟩ ih
        exact (List.cons.inj same).1
      · rw [combineInTurn, combinePostingLists_several several]
        refine .cons ⟨fun list same => ?_, fun _ => sumsOf_sums lists⟩ ih
        exact absurd (congrArg List.length same) several
  · intro lists ordered
    rw [mergedList_eq ordered, unorderedList_eq]

/-- Of a single list the rows of a deleted document stay. -/
def listWithDeleted : PostingListView where
  rows := [⟨3, 0, 2⟩]
  docIdSet := {3}
  deletedDocs := ⟨1, fun docId => docId == 3, nofun⟩
  totalTermFrequency := 2
  ordered := true
  ascending := fun _ => List.pairwise_singleton _ _

theorem listWithDeleted_kept :
    ¬ SumsLive [listWithDeleted] (combinePostingLists NO_ROWS [listWithDeleted]).1 := by
  intro sums
  obtain ⟨row, isIn, -⟩ := (sums.pairs (3, 0)).mp ⟨⟨3, 0, 2⟩, List.mem_cons_self, rfl⟩
  exact absurd isIn (by simp [allLive, liveRows, listWithDeleted])

def listRepeating : PostingListView where
  rows := [⟨1, 0, 2⟩, ⟨1, 0, 5⟩]
  docIdSet := {1}
  deletedDocs := NO_DELETED
  totalTermFrequency := 7
  ordered := false
  ascending := nofun

theorem combineInTurn_sums_two :
    (∃ view, combineInTurn NO_ROWS [[listWithDeleted, listRepeating]] = [view] ∧
      ∀ row ∈ view.rows, row.docId = 1 ∧ row.termFrequency = 7) ∧
    (mergedList NO_ROWS [listWithDeleted]).1 = unorderedList [listWithDeleted] := by
  refine ⟨?_, (combineInTurn_sums []).2 _ fun list isIn => by rw [List.mem_singleton.mp isIn]; rfl⟩
  have live : allLive [listWithDeleted, listRepeating] = listRepeating.rows := rfl
  have sums := (combineInTurn_sums [[listWithDeleted, listRepeating]]).1
  cases sums with
  | cons first rest =>
    cases rest
    have view_sums := first.2 (by decide)
    refine ⟨_, rfl, fun row isIn => ?_⟩
    have frequency := view_sums.frequency row isIn
    obtain ⟨other, isLive, same⟩ := (view_sums.pairs row.pair).mp ⟨row, isIn, rfl⟩
    rw [live] at frequency isLive
    have pair : row.pair = (1, 0) := by
      rw [← same]
      simp only [listRepeating, List.mem_cons, List.not_mem_nil, or_false] at isLive
      rcases isLive with rfl | rfl <;> rfl
    rw [pair] at frequency
    exact ⟨congrArg Prod.fst pair, by rw [frequency]; rfl⟩

end Narsil.Synonyms
