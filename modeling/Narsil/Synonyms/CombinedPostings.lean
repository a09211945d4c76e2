import Mathlib.Algebra.GroupWithZero.Nat
import Mathlib.Algebra.BigOperators.Group.List.Basic
import Mathlib.Data.Finset.Insert
import Narsil.Assoc.Groups
import Narsil.Buckets.Stable

/-!
# Combined posting lists

`combinePostingLists` makes one list of the posting lists of several tokens: ordered lists are
merged document after document, others go through a map from documents and fields to rows.
-/
namespace Narsil.Synonyms

def FIELD_SLOTS : Nat := 0x10000

instance : NeZero FIELD_SLOTS := ⟨by decide⟩

instance neZero_docIds : NeZero (2 ^ 32) := ⟨by decide⟩

/-- One place of the arrays of a list. -/
structure PostingRow where
  docId : Fin (2 ^ 32)
  fieldNameIndex : Fin FIELD_SLOTS
  termFrequency : Nat
  deriving DecidableEq

/-- The `deletedDocs` of a list. -/
structure DeletedDocs where
  size : Nat
  has : Fin (2 ^ 32) → Bool
  empty : size = 0 → ∀ docId, has docId = false

/-- A list that says it is ordered has its documents in ascending order. -/
structure PostingListView where
  rows : List PostingRow
  docIdSet : Finset (Fin (2 ^ 32))
  deletedDocs : DeletedDocs
  totalTermFrequency : Nat
  ordered : Bool
  ascending : ordered = true → rows.Pairwise fun row later => row.docId ≤ later.docId

def NO_DELETED : DeletedDocs := ⟨0, fun _ => false, fun _ _ => rfl⟩

structure CombinedRows where
  rows : List PostingRow
  documents : Finset (Fin (2 ^ 32))
  totalTermFrequency : Nat

def noRows : CombinedRows := ⟨[], ∅, 0⟩

/-- A row that is new, or whose frequency goes to a row that is there. -/
def CombinedRows.add (combined : CombinedRows) (existing : Option Nat) (row : PostingRow) : CombinedRows :=
  let totalTermFrequency := combined.totalTermFrequency + row.termFrequency
  match existing with
  | some at_row =>
    { combined with
      rows := combined.rows.modify at_row fun other =>
        { other with termFrequency := other.termFrequency + row.termFrequency }
      totalTermFrequency }
  | none => ⟨combined.rows ++ [row], insert row.docId combined.documents, totalTermFrequency⟩

/-- `rowOfField`, which every call leaves empty for the next one. -/
abbrev RowOfField : Type := Fin FIELD_SLOTS → Option Nat

def NO_ROWS : RowOfField := fun _ => none

structure MergeState where
  combined : CombinedRows
  rowOf : RowOfField

def addRow (s : MergeState) (row : PostingRow) : MergeState :=
  let existing := s.rowOf row.fieldNameIndex
  let combined := s.combined.add existing row
  match existing with
  | some _ => { s with combined }
  | none => ⟨combined, Function.update s.rowOf row.fieldNameIndex (some s.combined.rows.length)⟩

/-- A list and its rows from the cursor on. -/
structure Cursor where
  list : PostingListView
  rest : List PostingRow

def lowestDocumentAt (cursors : List Cursor) : Option (Fin (2 ^ 32)) :=
  cursors.foldl (fun lowest cursor =>
    match cursor.rest.head?, lowest with
    | none, _ => lowest
    | some row, none => some row.docId
    | some row, some document => if row.docId < document then some row.docId else lowest) none

/-- The rows of one document at the cursor of a list. -/
def addRun (docId : Fin (2 ^ 32)) (s : MergeState) (cursor : Cursor) : MergeState :=
  let deletedDocs := cursor.list.deletedDocs
  if decide (deletedDocs.size > 0) && deletedDocs.has docId then s
  else (cursor.rest.takeWhile fun row => row.docId = docId).foldl addRow s

def Cursor.past (cursor : Cursor) (docId : Fin (2 ^ 32)) : Cursor :=
  { cursor with rest := cursor.rest.dropWhile fun row => row.docId = docId }

def clearRows (rowOf : RowOfField) (rows : List PostingRow) : RowOfField :=
  rows.foldl (fun rowOf row => Function.update rowOf row.fieldNameIndex none) rowOf

def mergeDocument (docId : Fin (2 ^ 32)) (cursors : List Cursor) (s : MergeState) : MergeState :=
  let merged := cursors.foldl (addRun docId) s
  { merged with rowOf := clearRows merged.rowOf (merged.combined.rows.drop s.combined.rows.length) }

def rowsLeft (cursors : List Cursor) : Nat := (cursors.map fun cursor => cursor.rest.length).sum

def advance (cursors : List Cursor) (docId : Fin (2 ^ 32)) : List Cursor :=
  cursors.map fun cursor => cursor.past docId

theorem past_length_le (cursor : Cursor) (docId : Fin (2 ^ 32)) :
    (cursor.past docId).rest.length ≤ cursor.rest.length :=
  (List.dropWhile_sublist _).length_le

theorem rowsLeft_past_le (cursors : List Cursor) (docId : Fin (2 ^ 32)) :
    rowsLeft (advance cursors docId) ≤ rowsLeft cursors := by
  induction cursors with
  | nil => exact le_refl _
  | cons cursor rest ih =>
    have first := past_length_le cursor docId
    simp only [rowsLeft, advance, List.map_cons, List.sum_cons] at ih ⊢
    omega

/-- The document stands first in one of the lists, and none has a lower one there. -/
structure IsLowest (cursors : List Cursor) (docId : Fin (2 ^ 32)) : Prop where
  stands : ∃ cursor ∈ cursors, cursor.rest.head?.map PostingRow.docId = some docId
  least : ∀ cursor ∈ cursors, ∀ row, cursor.rest.head? = some row → docId ≤ row.docId

theorem lowestDocumentAt_concat (cursors : List Cursor) (cursor : Cursor) :
    lowestDocumentAt (cursors ++ [cursor]) =
      match cursor.rest.head?, lowestDocumentAt cursors with
      | none, lowest => lowest
      | some row, none => some row.docId
      | some row, some document => if row.docId < document then some row.docId else some document := by
  rw [lowestDocumentAt, List.foldl_append, List.foldl_cons, List.foldl_nil, ← lowestDocumentAt]
  cases cursor.rest.head? <;> cases lowestDocumentAt cursors <;> rfl

theorem lowestDocumentAt_spec (cursors : List Cursor) :
    match lowestDocumentAt cursors with
    | none => ∀ cursor ∈ cursors, cursor.rest = []
    | some docId => IsLowest cursors docId := by
  induction cursors using List.reverseRecOn with
  | nil => exact fun _ isIn => nomatch isIn
  | append_singleton cursors cursor ih =>
    have split {P : Cursor → Prop} (before : ∀ other ∈ cursors, P other) (last : P cursor) :
        ∀ other ∈ cursors ++ [cursor], P other := fun other isIn =>
      (List.mem_append.mp isIn).elim (before other) fun isLast => List.mem_singleton.mp isLast ▸ last
    rw [lowestDocumentAt_concat]
    cases here : cursor.rest.head? with
    | none =>
      have empty : cursor.rest = [] := List.head?_eq_none_iff.mp here
      cases before : lowestDocumentAt cursors with
      | none =>
        rw [before] at ih
        exact split ih empty
      | some docId =>
        rw [before] at ih
        obtain ⟨other, isIn, stands⟩ := ih.stands
        exact ⟨⟨other, List.mem_append_left _ isIn, stands⟩, split ih.least fun row first => by simp [here] at first⟩
    | some row =>
      have last : cursor ∈ cursors ++ [cursor] := List.mem_append_right _ List.mem_cons_self
      cases before : lowestDocumentAt cursors with
      | none =>
        rw [before] at ih
        refine ⟨⟨cursor, last, by rw [here]; rfl⟩, split (fun other isIn first stands => ?_) fun first stands => ?_⟩
        · rw [ih other isIn] at stands
          cases stands
        · rw [here] at stands
          exact (Option.some.inj stands) ▸ le_refl _
      | some docId =>
        rw [before] at ih
        by_cases lower : row.docId < docId
        · simp only [if_pos lower]
          refine ⟨⟨cursor, last, by rw [here]; rfl⟩, split (fun other isIn first stands => ?_) fun first stands => ?_⟩
          · exact le_trans (le_of_lt lower) (ih.least other isIn first stands)
          · rw [here] at stands
            exact (Option.some.inj stands) ▸ le_refl _
        · simp only [if_neg lower]
          obtain ⟨other, isIn, stands⟩ := ih.stands
          refine ⟨⟨other, List.mem_append_left _ isIn, stands⟩, split ih.least fun first stands => ?_⟩
          rw [here] at stands
          exact (Option.some.inj stands) ▸ not_lt.mp lower

theorem rowsLeft_past {cursors : List Cursor} {docId : Fin (2 ^ 32)} (lowest : lowestDocumentAt cursors = some docId) :
    rowsLeft (advance cursors docId) < rowsLeft cursors := by
  have spec := lowestDocumentAt_spec cursors
  rw [lowest] at spec
  obtain ⟨cursor, isIn, stands⟩ := spec.stands
  obtain ⟨front, back, rfl⟩ := List.append_of_mem isIn
  -- The list with the document is read on, the others do not go back.
  have shorter : (cursor.past docId).rest.length < cursor.rest.length := by
    cases rows : cursor.rest with
    | nil => simp [rows] at stands
    | cons row rest =>
      have same : row.docId = docId := by simpa [rows] using stands
      have dropped : (rest.dropWhile fun other => decide (other.docId = docId)).Sublist rest :=
        List.dropWhile_sublist _
      rw [Cursor.past, rows, List.dropWhile_cons_of_pos (by simpa using same)]
      exact Nat.lt_succ_of_le dropped.length_le
  have before := rowsLeft_past_le front docId
  have after := rowsLeft_past_le back docId
  simp only [rowsLeft, advance, List.map_append, List.map_cons, List.sum_append, List.sum_cons] at before after ⊢
  omega

def mergeOrderedLists (cursors : List Cursor) (s : MergeState) : MergeState :=
  match _lowest : lowestDocumentAt cursors with
  | none => s
  | some docId => mergeOrderedLists (advance cursors docId) (mergeDocument docId cursors s)
termination_by rowsLeft cursors
decreasing_by exact rowsLeft_past _lowest

structure UnorderedState where
  combined : CombinedRows
  rowOf : List (Nat × Nat)

def addByKey (s : UnorderedState) (row : PostingRow) : UnorderedState :=
  let key := row.docId * FIELD_SLOTS + row.fieldNameIndex
  let existing := Assoc.lookup s.rowOf key
  let combined := s.combined.add existing row
  match existing with
  | some _ => { s with combined }
  | none => ⟨combined, Assoc.set s.rowOf key s.combined.rows.length⟩

def addList (s : UnorderedState) (list : PostingListView) : UnorderedState :=
  let deleted := list.deletedDocs
  let hasDeleted := decide (deleted.size > 0)
  list.rows.foldl (fun s row => if hasDeleted && deleted.has row.docId then s else addByKey s row) s

def combineUnorderedLists (lists : List PostingListView) : CombinedRows :=
  (lists.foldl addList ⟨noRows, []⟩).combined

def rowsByDocument (docIds : List (Fin (2 ^ 32))) : List Nat :=
  (List.range docIds.length).mergeSort fun left right =>
    let here := docIds.getD left 0
    let there := docIds.getD right 0
    here < there || here == there && left ≤ right

def listOf (combined : CombinedRows) (order : Option (List Nat)) : PostingListView where
  rows := match order with
    | none => combined.rows
    | some order => order.filterMap fun row => combined.rows[row]?
  docIdSet := combined.documents
  deletedDocs := NO_DELETED
  totalTermFrequency := combined.totalTermFrequency
  ordered := false
  ascending := nofun

def mergedList (rowOfField : RowOfField) (lists : List PostingListView) : PostingListView × RowOfField :=
  let merged := mergeOrderedLists (lists.map fun list => ⟨list, list.rows⟩) ⟨noRows, rowOfField⟩
  (listOf merged.combined none, merged.rowOf)

def unorderedList (lists : List PostingListView) : PostingListView :=
  let combined := combineUnorderedLists lists
  listOf combined (some (rowsByDocument (combined.rows.map PostingRow.docId)))

/-- The list, and the `rowOfField` the next call finds. -/
def combinePostingLists (rowOfField : RowOfField) (lists : List PostingListView) : PostingListView × RowOfField :=
  match lists with
  | [list] => (list, rowOfField)
  | lists =>
    if lists.all fun list => list.ordered then mergedList rowOfField lists
    else (unorderedList lists, rowOfField)

end Narsil.Synonyms
