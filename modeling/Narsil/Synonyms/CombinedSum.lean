import Mathlib.Data.Finset.Lattice.Lemmas
import Narsil.Assoc.Places
import Narsil.Synonyms.CombinedPostings

/-!
# Combined posting lists are sums

The rows that are combined so far are the pairs of the live rows with the sums of their
frequencies, in the order in which the pairs came up. Both ways to find the row of a pair
give its place in that list.
-/
namespace Narsil.Synonyms

abbrev Pair : Type := Fin (2 ^ 32) × Fin FIELD_SLOTS

def PostingRow.pair (row : PostingRow) : Pair := (row.docId, row.fieldNameIndex)

def rowOfSum (entry : Pair × Nat) : PostingRow := ⟨entry.1.1, entry.1.2, entry.2⟩

@[simp] theorem rowOfSum_pair (entry : Pair × Nat) : (rowOfSum entry).pair = entry.1 := rfl

def sumPair (sums : List (Pair × Nat)) (row : PostingRow) : List (Pair × Nat) :=
  Assoc.collect PostingRow.pair PostingRow.termFrequency (fun sum row => sum + row.termFrequency) sums row

/-- The pairs of rows with the sums of their frequencies. -/
def pairSums (rows : List PostingRow) : List (Pair × Nat) := rows.foldl sumPair []

theorem pairSums_concat (rows : List PostingRow) (row : PostingRow) :
    pairSums (rows ++ [row]) = sumPair (pairSums rows) row := List.foldl_append

theorem pairSums_distinct (rows : List PostingRow) : ((pairSums rows).map Prod.fst).Nodup :=
  Assoc.collect_distinct _ _ _ rows

theorem mem_keys_pairSums {rows : List PostingRow} {pair : Pair} :
    pair ∈ (pairSums rows).map Prod.fst ↔ ∃ row ∈ rows, row.pair = pair :=
  Assoc.mem_keys_collect _ _ _

theorem foldl_frequencies (rows : List PostingRow) (sum : Nat) :
    rows.foldl (fun sum row => sum + row.termFrequency) sum = sum + (rows.map PostingRow.termFrequency).sum := by
  induction rows generalizing sum with
  | nil => rfl
  | cons row rest ih => rw [List.foldl_cons, ih, List.map_cons, List.sum_cons, Nat.add_assoc]

theorem mem_pairSums {rows : List PostingRow} {pair : Pair} {sum : Nat} (isIn : (pair, sum) ∈ pairSums rows) :
    sum = ((rows.filter fun row => row.pair = pair).map PostingRow.termFrequency).sum := by
  have found := Assoc.lookup_of_mem (pairSums_distinct rows) isIn
  rw [pairSums, show sumPair = Assoc.collect _ _ _ from rfl, Assoc.lookup_collect] at found
  cases chosen : rows.filter fun row => decide (row.pair = pair) with
  | nil => simp [chosen, Assoc.collected] at found
  | cons first rest =>
    simp only [chosen, Assoc.collected, Option.some.injEq] at found
    rw [List.map_cons, List.sum_cons, ← foldl_frequencies, found]

theorem placeOf_pairSums_concat (rows : List PostingRow) (row : PostingRow) (pair : Pair) :
    Assoc.placeOf (pairSums (rows ++ [row])) pair =
      match Assoc.placeOf (pairSums rows) row.pair with
      | some _ => Assoc.placeOf (pairSums rows) pair
      | none => if pair = row.pair then some (pairSums rows).length else Assoc.placeOf (pairSums rows) pair := by
  rw [pairSums_concat, sumPair, Assoc.collect]
  cases place : Assoc.placeOf (pairSums rows) row.pair with
  | some i =>
    obtain ⟨sum, found⟩ := Assoc.lookup_of_place place
    simp only [found]
    exact Assoc.placeOf_set_old place _ _
  | none =>
    simp only [Assoc.lookup_eq_none.mpr (Assoc.placeOf_eq_none.mp place)]
    exact Assoc.placeOf_set_new place _ _

theorem pairSums_keys_prefix (rows more : List PostingRow) :
    (pairSums rows).map Prod.fst <+: (pairSums (rows ++ more)).map Prod.fst := by
  induction more using List.reverseRecOn with
  | nil => rw [List.append_nil]
  | append_singleton more row ih =>
    rw [← List.append_assoc, pairSums_concat, sumPair, Assoc.collect]
    refine ih.trans ?_
    cases found : Assoc.lookup (pairSums (rows ++ more)) row.pair with
    | none =>
      simp only
      rw [Assoc.set_new _ (Assoc.lookup_eq_none.mp found), List.map_append]
      exact List.prefix_append _ _
    | some sum =>
      simp only
      rw [Assoc.set_keys (Assoc.lookup_isSome.mp (by rw [found]; rfl))]

theorem sum_pairSums (rows : List PostingRow) :
    ((pairSums rows).map Prod.snd).sum = (rows.map PostingRow.termFrequency).sum := by
  induction rows using List.reverseRecOn with
  | nil => rfl
  | append_singleton rows row ih =>
    rw [pairSums_concat, sumPair, Assoc.collect, List.map_append, List.sum_append, ← ih]
    cases found : Assoc.lookup (pairSums rows) row.pair with
    | none =>
      simp only
      rw [Assoc.set_new _ (Assoc.lookup_eq_none.mp found), List.map_append, List.sum_append]
      simp
    | some sum =>
      simp only
      rw [Assoc.sum_set found]
      simp

theorem filter_pairSums (keep : Fin (2 ^ 32) → Prop) [DecidablePred keep] (rows : List PostingRow) :
    (pairSums rows).filter (fun entry => keep entry.1.1) = pairSums (rows.filter fun row => keep row.docId) :=
  Assoc.filter_collect PostingRow.pair PostingRow.termFrequency _ (fun pair : Pair => keep pair.1) rows []

structure Combines (combined : CombinedRows) (added : List PostingRow) : Prop where
  rows : combined.rows = (pairSums added).map rowOfSum
  documents : combined.documents = (added.map PostingRow.docId).toFinset
  total : combined.totalTermFrequency = (added.map PostingRow.termFrequency).sum

variable {combined : CombinedRows} {rows : List PostingRow} {row : PostingRow} {docId : Fin (2 ^ 32)}

theorem noRows_combines : Combines noRows [] := ⟨rfl, rfl, rfl⟩

theorem Combines.add (combines : Combines combined rows) :
    Combines (combined.add (Assoc.placeOf (pairSums rows) row.pair) row) (rows ++ [row]) := by
  have total : combined.totalTermFrequency + row.termFrequency =
      ((rows ++ [row]).map PostingRow.termFrequency).sum := by
    rw [combines.total, List.map_append, List.sum_append]
    rfl
  have documents : insert row.docId combined.documents = ((rows ++ [row]).map PostingRow.docId).toFinset := by
    rw [combines.documents, List.map_append, List.toFinset_append, List.map_singleton, List.toFinset_cons,
      List.toFinset_nil, Finset.union_comm]
    rfl
  cases place : Assoc.placeOf (pairSums rows) row.pair with
  | none =>
    refine ⟨?_, documents, total⟩
    rw [pairSums_concat, sumPair, Assoc.collect, Assoc.lookup_eq_none.mpr (Assoc.placeOf_eq_none.mp place)]
    simp only
    rw [Assoc.set_new _ (Assoc.placeOf_eq_none.mp place), List.map_append, ← combines.rows]
    rfl
  | some i =>
    obtain ⟨sum, found⟩ := Assoc.lookup_of_place place
    refine ⟨?_, ?_, total⟩
    · rw [pairSums_concat, sumPair, Assoc.collect, found]
      simp only [CombinedRows.add]
      rw [← Assoc.modify_place place found (· + row.termFrequency), combines.rows]
      exact Assoc.map_modify _ _ _ _ fun _ => rfl
    · have member : row.docId ∈ combined.documents := by
        obtain ⟨other, isIn, same⟩ := mem_keys_pairSums.mp (Assoc.lookup_isSome.mp (by rw [found]; rfl))
        rw [combines.documents, List.mem_toFinset]
        exact List.mem_map.mpr ⟨other, isIn, congrArg Prod.fst same⟩
      rw [← documents, Finset.insert_eq_self.mpr member]
      rfl

/-- The rows of the fields of a document. -/
def Tracks (docId : Fin (2 ^ 32)) (rowOf : RowOfField) (added : List PostingRow) : Prop :=
  ∀ field, rowOf field = Assoc.placeOf (pairSums added) (docId, field)

variable {s : MergeState} {added run : List PostingRow}

theorem tracks_new (new : ∀ row ∈ added, row.docId ≠ docId) : Tracks docId NO_ROWS added := by
  intro field
  refine (Assoc.placeOf_eq_none.mpr fun isIn => ?_).symm
  obtain ⟨row, isRow, same⟩ := mem_keys_pairSums.mp isIn
  exact new row isRow (congrArg Prod.fst same)

theorem addRow_spec (combines : Combines s.combined added) (tracks : Tracks row.docId s.rowOf added) :
    Combines (addRow s row).combined (added ++ [row]) ∧ Tracks row.docId (addRow s row).rowOf (added ++ [row]) := by
  have here : s.rowOf row.fieldNameIndex = Assoc.placeOf (pairSums added) row.pair := tracks row.fieldNameIndex
  have length : s.combined.rows.length = (pairSums added).length := by rw [combines.rows, List.length_map]
  have step := @Combines.add _ _ row combines
  cases place : Assoc.placeOf (pairSums added) row.pair with
  | some i =>
    rw [place] at here step
    have same : addRow s row = { s with combined := s.combined.add (some i) row } := by rw [addRow, here]
    rw [same]
    refine ⟨step, fun field => ?_⟩
    rw [placeOf_pairSums_concat, place]
    exact tracks field
  | none =>
    rw [place] at here step
    have same : addRow s row = ⟨s.combined.add none row,
        Function.update s.rowOf row.fieldNameIndex (some s.combined.rows.length)⟩ := by rw [addRow, here]
    rw [same]
    refine ⟨step, fun field => ?_⟩
    rw [placeOf_pairSums_concat, place]
    by_cases ofRow : field = row.fieldNameIndex
    · subst ofRow
      simp [PostingRow.pair, length]
    · simp only [Function.update_of_ne ofRow, PostingRow.pair, Prod.mk.injEq, ofRow, and_false, if_false]
      exact tracks field

theorem addRows_spec (combines : Combines s.combined added) (tracks : Tracks docId s.rowOf added)
    (ofDocument : ∀ row ∈ run, row.docId = docId) :
    Combines (run.foldl addRow s).combined (added ++ run) ∧ Tracks docId (run.foldl addRow s).rowOf (added ++ run) := by
  induction run generalizing s added with
  | nil => exact ⟨by rwa [List.append_nil], by rwa [List.append_nil]⟩
  | cons row rest ih =>
    obtain rfl := ofDocument row List.mem_cons_self
    obtain ⟨combined_first, tracks_first⟩ := addRow_spec combines tracks
    rw [List.foldl_cons, show added ++ row :: rest = added ++ [row] ++ rest by simp]
    exact ih combined_first tracks_first fun other isIn => ofDocument other (List.mem_cons_of_mem _ isIn)

theorem DeletedDocs.test (deleted : DeletedDocs) (docId : Fin (2 ^ 32)) :
    (decide (deleted.size > 0) && deleted.has docId) = deleted.has docId := by
  rcases Nat.eq_zero_or_pos deleted.size with none_deleted | some_deleted
  · rw [deleted.empty none_deleted docId, Bool.and_false]
  · simp [some_deleted]

/-- The rows of documents that a list has not deleted. -/
def liveRows (list : PostingListView) (rows : List PostingRow) : List PostingRow :=
  rows.filter fun row => !list.deletedDocs.has row.docId

def liveLeft (cursors : List Cursor) : List PostingRow := cursors.flatMap fun cursor => liveRows cursor.list cursor.rest

def ofDocument (docId : Fin (2 ^ 32)) (rows : List PostingRow) : List PostingRow :=
  rows.filter fun row => row.docId = docId

/-- A cursor that stands before all rows of the document, if the list has any. -/
structure Reaches (docId : Fin (2 ^ 32)) (cursor : Cursor) : Prop where
  sorted : cursor.rest.Pairwise fun row later => row.docId ≤ later.docId
  least : ∀ row ∈ cursor.rest, docId ≤ row.docId

theorem liveRows_ofDocument (list : PostingListView) (docId : Fin (2 ^ 32)) (rows : List PostingRow) :
    ofDocument docId (liveRows list rows) = if list.deletedDocs.has docId then [] else ofDocument docId rows := by
  rw [ofDocument, liveRows, List.filter_filter, ofDocument]
  split
  next deleted =>
    rw [List.filter_eq_nil_iff]
    rintro row - both
    rw [Bool.and_eq_true, decide_eq_true_eq] at both
    rw [both.1, deleted] at both
    cases both.2
  next live =>
    refine List.filter_congr fun row _ => ?_
    by_cases same : row.docId = docId
    · simp [same, live]
    · simp [same]

theorem addRun_spec {cursor : Cursor} (reaches : Reaches docId cursor) (combines : Combines s.combined added)
    (tracks : Tracks docId s.rowOf added) :
    let run := ofDocument docId (liveRows cursor.list cursor.rest)
    Combines (addRun docId s cursor).combined (added ++ run) ∧
      Tracks docId (addRun docId s cursor).rowOf (added ++ run) := by
  simp only [addRun, liveRows_ofDocument, DeletedDocs.test]
  split
  · exact ⟨by rwa [List.append_nil], by rwa [List.append_nil]⟩
  · rw [Buckets.takeWhile_lowest reaches.sorted reaches.least, ← ofDocument]
    exact addRows_spec combines tracks fun row isIn => of_decide_eq_true (List.mem_filter.mp isIn).2

theorem addRuns_spec {cursors : List Cursor} (reaches : ∀ cursor ∈ cursors, Reaches docId cursor)
    (combines : Combines s.combined added) (tracks : Tracks docId s.rowOf added) :
    let run := ofDocument docId (liveLeft cursors)
    Combines (cursors.foldl (addRun docId) s).combined (added ++ run) ∧
      Tracks docId (cursors.foldl (addRun docId) s).rowOf (added ++ run) := by
  induction cursors generalizing s added with
  | nil => exact ⟨by rwa [show liveLeft [] = [] from rfl, ofDocument, List.filter_nil, List.append_nil],
      by rwa [show liveLeft [] = [] from rfl, ofDocument, List.filter_nil, List.append_nil]⟩
  | cons cursor rest ih =>
    obtain ⟨combined_first, tracks_first⟩ := addRun_spec (reaches cursor List.mem_cons_self) combines tracks
    have later := ih (fun other isIn => reaches other (List.mem_cons_of_mem _ isIn)) combined_first tracks_first
    simp only [liveLeft, List.flatMap_cons, List.foldl_cons, ofDocument, List.filter_append,
      List.append_assoc] at later ⊢
    exact later

theorem clearRows_apply (rowOf : RowOfField) (rows : List PostingRow) (field : Fin FIELD_SLOTS) :
    clearRows rowOf rows field = if field ∈ rows.map PostingRow.fieldNameIndex then none else rowOf field := by
  induction rows generalizing rowOf with
  | nil => rfl
  | cons row rest ih =>
    rw [clearRows, List.foldl_cons, ← clearRows, ih]
    by_cases later : field ∈ rest.map PostingRow.fieldNameIndex
    · simp [later]
    · by_cases here : field = row.fieldNameIndex
      · simp [here]
      · simp [here, later]

theorem clearRows_tracks {before : CombinedRows} (before_combines : Combines before added)
    (combines : Combines combined (added ++ run)) {rowOf : RowOfField} (tracks : Tracks docId rowOf (added ++ run))
    (new : ∀ row ∈ added, row.docId ≠ docId) :
    clearRows rowOf (combined.rows.drop before.rows.length) = NO_ROWS := by
  funext field
  rw [clearRows_apply]
  split
  · rfl
  next kept =>
    rw [tracks field]
    refine Assoc.placeOf_eq_none.mpr fun isIn => kept ?_
    obtain ⟨more, all_keys⟩ := pairSums_keys_prefix added run
    have length : before.rows.length = ((pairSums added).map Prod.fst).length := by
      rw [before_combines.rows, List.length_map, List.length_map]
    have dropped : (combined.rows.drop before.rows.length).map PostingRow.pair = more := by
      rw [List.map_drop, combines.rows, List.map_map, show PostingRow.pair ∘ rowOfSum = Prod.fst from rfl, ← all_keys,
        length, List.drop_left]
    rw [← all_keys] at isIn
    rcases List.mem_append.mp isIn with old | isNew
    · obtain ⟨row, isRow, same⟩ := mem_keys_pairSums.mp old
      exact absurd (congrArg Prod.fst same) (new row isRow)
    · rw [← dropped] at isNew
      obtain ⟨row, isRow, same⟩ := List.mem_map.mp isNew
      exact List.mem_map.mpr ⟨row, isRow, congrArg Prod.snd same⟩

theorem mergeDocument_spec {cursors : List Cursor} (reaches : ∀ cursor ∈ cursors, Reaches docId cursor)
    (combines : Combines s.combined added) (clean : s.rowOf = NO_ROWS) (new : ∀ row ∈ added, row.docId ≠ docId) :
    Combines (mergeDocument docId cursors s).combined (added ++ ofDocument docId (liveLeft cursors)) ∧
      (mergeDocument docId cursors s).rowOf = NO_ROWS := by
  obtain ⟨merged, tracks⟩ := addRuns_spec reaches combines (clean ▸ tracks_new new)
  exact ⟨merged, clearRows_tracks combines merged tracks new⟩

theorem IsLowest.reaches {cursors : List Cursor} (lowest : IsLowest cursors docId)
    (sorted : ∀ cursor ∈ cursors, cursor.rest.Pairwise fun row later => row.docId ≤ later.docId) :
    ∀ cursor ∈ cursors, Reaches docId cursor := by
  intro cursor isIn
  refine ⟨sorted cursor isIn, ?_⟩
  have least := lowest.least cursor isIn
  cases rows : cursor.rest with
  | nil => exact fun _ isRow => nomatch isRow
  | cons first rest =>
    have first_least := least first (by rw [rows]; rfl)
    have from_first := (List.pairwise_cons.mp (rows ▸ sorted cursor isIn)).1
    intro row isRow
    rcases List.mem_cons.mp isRow with rfl | later
    · exact first_least
    · exact le_trans first_least (from_first row later)

theorem Reaches.past_rest {cursor : Cursor} (reaches : Reaches docId cursor) :
    (cursor.past docId).rest = cursor.rest.filter fun row => docId < row.docId :=
  Buckets.dropWhile_lowest reaches.sorted reaches.least

theorem ofDocument_liveLeft_cons (docId : Fin (2 ^ 32)) (cursor : Cursor) (rest : List Cursor) :
    ofDocument docId (liveLeft (cursor :: rest)) =
      ofDocument docId (liveRows cursor.list cursor.rest) ++ ofDocument docId (liveLeft rest) := by
  rw [liveLeft, List.flatMap_cons, ofDocument, List.filter_append, ← liveLeft, ← ofDocument, ← ofDocument]

theorem ofDocument_advance {cursors : List Cursor} (reaches : ∀ cursor ∈ cursors, Reaches docId cursor)
    (other : Fin (2 ^ 32)) :
    ofDocument other (liveLeft (advance cursors docId)) =
      if other = docId then [] else ofDocument other (liveLeft cursors) := by
  induction cursors with
  | nil => split <;> rfl
  | cons cursor rest ih =>
    have first := reaches cursor List.mem_cons_self
    have later := ih fun other isIn => reaches other (List.mem_cons_of_mem _ isIn)
    have here : ofDocument other (liveRows cursor.list (cursor.past docId).rest) =
        if other = docId then [] else ofDocument other (liveRows cursor.list cursor.rest) := by
      rw [first.past_rest, liveRows_ofDocument, liveRows_ofDocument, ofDocument, List.filter_filter]
      by_cases same : other = docId
      · subst same
        rw [if_pos rfl, List.filter_eq_nil_iff.mpr, ite_self]
        rintro row - both
        rw [Bool.and_eq_true, decide_eq_true_eq, decide_eq_true_eq] at both
        exact absurd both.2 (by rw [both.1]; exact lt_irrefl _)
      · rw [if_neg same]
        congr 1
        refine List.filter_congr fun row isIn => ?_
        by_cases ofOther : row.docId = other
        · have above : docId < row.docId := lt_of_le_of_ne (first.least row isIn) (by rw [ofOther]; exact Ne.symm same)
          simp [ofOther, ofOther ▸ above]
        · simp [ofOther]
    rw [advance, List.map_cons, ofDocument_liveLeft_cons, ofDocument_liveLeft_cons, ← advance, later]
    refine (congrArg (· ++ _) here).trans ?_
    split <;> rfl

theorem mergeOrderedLists_spec (cursors : List Cursor) (s : MergeState) (added : List PostingRow)
    (sorted : ∀ cursor ∈ cursors, cursor.rest.Pairwise fun row later => row.docId ≤ later.docId)
    (combines : Combines s.combined added) (clean : s.rowOf = NO_ROWS)
    (added_sorted : added.Pairwise fun row later => row.docId ≤ later.docId)
    (behind : ∀ row ∈ added, ∀ cursor ∈ cursors, ∀ later ∈ cursor.rest, row.docId < later.docId) :
    ∃ more, Combines (mergeOrderedLists cursors s).combined (added ++ more) ∧
      (mergeOrderedLists cursors s).rowOf = NO_ROWS ∧
      ((added ++ more).Pairwise fun row later => row.docId ≤ later.docId) ∧
      ∀ docId, ofDocument docId more = ofDocument docId (liveLeft cursors) := by
  induction cursors, s using mergeOrderedLists.induct generalizing added with
  | case1 cursors s stops =>
    have spec := lowestDocumentAt_spec cursors
    rw [stops] at spec
    have nothing : liveLeft cursors = [] := by
      refine List.flatMap_eq_nil_iff.mpr fun cursor isIn => ?_
      rw [spec cursor isIn]
      rfl
    have same : mergeOrderedLists cursors s = s := by
      rw [mergeOrderedLists]
      split
      · rfl
      next other => rw [stops] at other; cases other
    rw [same, nothing]
    exact ⟨[], by rwa [List.append_nil], clean, by rwa [List.append_nil], fun _ => rfl⟩
  | case2 cursors s docId lowest ih =>
    have spec := lowestDocumentAt_spec cursors
    rw [lowest] at spec
    have reaches := spec.reaches sorted
    have new : ∀ row ∈ added, row.docId ≠ docId := by
      obtain ⟨cursor, isIn, stands⟩ := spec.stands
      obtain ⟨first, isFirst, same⟩ := Option.map_eq_some_iff.mp stands
      intro row isRow
      have below := behind row isRow cursor isIn first (List.mem_of_mem_head? isFirst)
      rw [same] at below
      exact ne_of_lt below
    have run_document {row : PostingRow} (isIn : row ∈ ofDocument docId (liveLeft cursors)) : row.docId = docId :=
      of_decide_eq_true (List.mem_filter.mp isIn).2
    have run_left {row : PostingRow} (isIn : row ∈ ofDocument docId (liveLeft cursors)) :
        ∃ cursor ∈ cursors, row ∈ cursor.rest := by
      obtain ⟨cursor, isCursor, live⟩ := List.mem_flatMap.mp (List.mem_filter.mp isIn).1
      exact ⟨cursor, isCursor, (List.mem_filter.mp live).1⟩
    obtain ⟨merged, cleaned⟩ := mergeDocument_spec reaches combines clean new
    have sorted_past : ∀ cursor ∈ advance cursors docId,
        cursor.rest.Pairwise fun row later => row.docId ≤ later.docId := by
      intro cursor isIn
      obtain ⟨before, isBefore, rfl⟩ := List.mem_map.mp isIn
      exact (sorted before isBefore).sublist (List.dropWhile_sublist _)
    have merged_sorted : (added ++ ofDocument docId (liveLeft cursors)).Pairwise
        fun row later => row.docId ≤ later.docId := by
      refine List.pairwise_append.mpr ⟨added_sorted, ?_, fun row isRow later isLater => ?_⟩
      · exact List.pairwise_of_forall_mem_list fun row isIn later isLater =>
          le_of_eq ((run_document isIn).trans (run_document isLater).symm)
      · obtain ⟨cursor, isCursor, isLeft⟩ := run_left isLater
        exact le_of_lt (behind row isRow cursor isCursor later isLeft)
    have behind_past : ∀ row ∈ added ++ ofDocument docId (liveLeft cursors), ∀ cursor ∈ advance cursors docId,
        ∀ later ∈ cursor.rest, row.docId < later.docId := by
      intro row isRow cursor isIn later isLater
      obtain ⟨before, isBefore, rfl⟩ := List.mem_map.mp isIn
      rw [(reaches before isBefore).past_rest] at isLater
      obtain ⟨isLeft, above⟩ := List.mem_filter.mp isLater
      rcases List.mem_append.mp isRow with old | ofRun
      · exact behind row old before isBefore later isLeft
      · rw [run_document ofRun]
        exact of_decide_eq_true above
    have step : mergeOrderedLists cursors s =
        mergeOrderedLists (advance cursors docId) (mergeDocument docId cursors s) := by
      conv_lhs => rw [mergeOrderedLists]
      split
      next stops => rw [stops] at lowest; cases lowest
      next other found => rw [lowest] at found; cases found; rfl
    obtain ⟨more, combined_all, clean_all, sorted_all, more_documents⟩ :=
      ih _ sorted_past merged cleaned merged_sorted behind_past
    rw [List.append_assoc] at combined_all sorted_all
    rw [step]
    refine ⟨ofDocument docId (liveLeft cursors) ++ more, combined_all, clean_all, sorted_all, fun other => ?_⟩
    rw [ofDocument, List.filter_append, ← ofDocument, ← ofDocument, more_documents, ofDocument_advance reaches]
    by_cases same : other = docId
    · subst same
      rw [if_pos rfl, List.append_nil, ofDocument, ofDocument, List.filter_filter]
      simp
    · rw [if_neg same, ofDocument, List.filter_eq_nil_iff.mpr, List.nil_append]
      exact fun row isIn ofOther => same ((of_decide_eq_true ofOther).symm.trans (run_document isIn))

/-- The numbers by which rows are found again. -/
def rowKey (pair : Pair) : Nat := pair.1 * FIELD_SLOTS + pair.2

theorem rowKey_injective : Function.Injective rowKey := by
  rintro ⟨docId, field⟩ ⟨otherId, otherField⟩ same
  have first := field.isLt
  have second := otherField.isLt
  simp only [rowKey, FIELD_SLOTS] at same first second
  rw [Prod.mk.injEq, Fin.ext_iff, Fin.ext_iff]
  omega

theorem addByKey_spec {s : UnorderedState} (combines : Combines s.combined added)
    (tracks : ∀ pair, Assoc.lookup s.rowOf (rowKey pair) = Assoc.placeOf (pairSums added) pair) (row : PostingRow) :
    Combines (addByKey s row).combined (added ++ [row]) ∧
      ∀ pair, Assoc.lookup (addByKey s row).rowOf (rowKey pair) =
        Assoc.placeOf (pairSums (added ++ [row])) pair := by
  have here : Assoc.lookup s.rowOf (row.docId * FIELD_SLOTS + row.fieldNameIndex) =
      Assoc.placeOf (pairSums added) row.pair := tracks row.pair
  have length : s.combined.rows.length = (pairSums added).length := by rw [combines.rows, List.length_map]
  have step := @Combines.add _ _ row combines
  cases place : Assoc.placeOf (pairSums added) row.pair with
  | some i =>
    rw [place] at here step
    have same : addByKey s row = { s with combined := s.combined.add (some i) row } := by rw [addByKey, here]
    rw [same]
    refine ⟨step, fun pair => ?_⟩
    rw [placeOf_pairSums_concat, place]
    exact tracks pair
  | none =>
    rw [place] at here step
    have same : addByKey s row =
        ⟨s.combined.add none row, Assoc.set s.rowOf (rowKey row.pair) s.combined.rows.length⟩ := by
      rw [addByKey, here]
      rfl
    rw [same]
    refine ⟨step, fun pair => ?_⟩
    rw [placeOf_pairSums_concat, place, Assoc.lookup_set, length, tracks pair]
    by_cases ofRow : pair = row.pair
    · rw [if_pos (congrArg rowKey ofRow)]
      exact (if_pos ofRow).symm
    · rw [if_neg fun equal => ofRow (rowKey_injective equal)]
      exact (if_neg ofRow).symm

theorem addList_spec {s : UnorderedState} (combines : Combines s.combined added)
    (tracks : ∀ pair, Assoc.lookup s.rowOf (rowKey pair) = Assoc.placeOf (pairSums added) pair)
    (list : PostingListView) :
    let rows := liveRows list list.rows
    Combines (addList s list).combined (added ++ rows) ∧
      ∀ pair, Assoc.lookup (addList s list).rowOf (rowKey pair) = Assoc.placeOf (pairSums (added ++ rows)) pair := by
  simp only [addList, DeletedDocs.test]
  generalize list.rows = rows
  induction rows generalizing s added with
  | nil => exact ⟨by rwa [liveRows, List.filter_nil, List.append_nil],
      by rwa [liveRows, List.filter_nil, List.append_nil]⟩
  | cons row rest ih =>
    rw [List.foldl_cons, liveRows]
    by_cases deleted : list.deletedDocs.has row.docId = true
    · rw [if_pos deleted, List.filter_cons_of_neg (by simp [deleted]), ← liveRows]
      exact ih combines tracks
    · obtain ⟨combined_first, tracks_first⟩ := addByKey_spec combines tracks row
      rw [if_neg deleted, List.filter_cons_of_pos (by simp [deleted]), ← liveRows, List.append_cons]
      exact ih combined_first tracks_first

/-- The live rows of all the lists, one list after the other. -/
def allLive (lists : List PostingListView) : List PostingRow := lists.flatMap fun list => liveRows list list.rows

theorem combineUnorderedLists_spec (lists : List PostingListView) :
    Combines (combineUnorderedLists lists) (allLive lists) := by
  suffices run : ∀ (s : UnorderedState) (added : List PostingRow), Combines s.combined added →
      (∀ pair, Assoc.lookup s.rowOf (rowKey pair) = Assoc.placeOf (pairSums added) pair) →
      Combines (lists.foldl addList s).combined (added ++ allLive lists) from
    run ⟨noRows, []⟩ [] noRows_combines fun _ => rfl
  intro s added combines tracks
  induction lists generalizing s added with
  | nil => rwa [allLive, List.flatMap_nil, List.append_nil]
  | cons list rest ih =>
    obtain ⟨combined_first, tracks_first⟩ := addList_spec combines tracks list
    rw [List.foldl_cons, allLive, List.flatMap_cons, ← List.append_assoc]
    exact ih _ _ combined_first tracks_first

end Narsil.Synonyms
