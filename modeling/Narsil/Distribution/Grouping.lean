import Mathlib.Data.Rat.Floor
import Narsil.Assoc.Groups
import Narsil.Distribution.MergeEntries

/-!
# Grouping hits by field values

Hits with the same field values form a group. A ranking is grouped where it is; a cluster
groups on each node and merges the groups of the nodes. Two values are the same where their
JSON text is, and `stringify` stands for that text: nothing is asked of it.
-/
namespace Narsil.Distribution
open Narsil.Ordering Narsil.Ranking

def DEFAULT_MAX_PER_GROUP : Nat := 1

def hitsKeptPerGroup : Option JsNumber → Nat
  | some (.finite maxPerGroup) => if maxPerGroup < 1 then DEFAULT_MAX_PER_GROUP else ⌊maxPerGroup⌋₊
  | _ => DEFAULT_MAX_PER_GROUP

structure RankedHit where
  id : JsString
  score : Option ℚ
  deriving DecidableEq, Repr

/-- A reducer of the caller; each of its two functions may throw. -/
structure GroupReducer (D A : Type) where
  initialValue : Except String A
  reducer : A → D → ℚ → Except String A

structure GroupConfig (D A : Type) where
  fields : List JsString
  maxPerGroup : Option JsNumber
  limit : Option JsNumber
  reduce : Option (GroupReducer D A)

/-- The documents of the hits, and the value a document has at a field path, none for `undefined`. -/
structure GroupedDocuments (D V : Type) where
  document : JsString → Option D
  getNestedValue : D → JsString → Option V

structure GroupResult (V A : Type) where
  values : List (JsString × Option V)
  hits : List RankedHit
  reduced : Option (Except String A)

structure WireGroupEntry (V : Type) where
  values : List (JsString × Option V)
  scored : List ScoredEntry
  deriving DecidableEq, Repr

def foldGroupReducer {D A : Type} (reduce : GroupReducer D A) (rows : List (Option D × ℚ)) : Except String A := do
  let accumulator ← reduce.initialValue
  rows.foldlM (fun accumulator row =>
    match row.1 with
    | none => pure accumulator
    | some document => reduce.reducer accumulator document row.2) accumulator

section Grouping
variable {D V A : Type} (stringify : List (Option V) → JsString)

def GroupedDocuments.fieldValues (documents : GroupedDocuments D V) (docId : JsString) (fieldPaths : List JsString) :
    Option (List (Option V)) :=
  (documents.document docId).map fun document => fieldPaths.map (documents.getNestedValue document)

/-- `stored?.[at]`. -/
def valueAt (stored : Option (List (Option V))) (place : Nat) : Option V :=
  stored.bind fun values => (values[place]?).getD none

/-- The values of a hit, in the order of the fields. -/
def groupValues (documents : GroupedDocuments D V) (fields : List JsString) (hit : RankedHit) : List (Option V) :=
  (List.range fields.length).map (valueAt (documents.fieldValues hit.id fields))

/-- The values of a hit by field, as the group keeps them. -/
def valuesRecord (documents : GroupedDocuments D V) (fields : List JsString) (hit : RankedHit) :
    List (JsString × Option V) :=
  fields.zipIdx.foldl (fun record field =>
    Assoc.set record field.1 (valueAt (documents.fieldValues hit.id fields) field.2)) []

structure OpenGroup (V : Type) where
  values : List (JsString × Option V)
  hits : List RankedHit
  deriving DecidableEq, Repr

/-- Groups in the order of their first hits. -/
def groupMap (documents : GroupedDocuments D V) (fields : List JsString) (hits : List RankedHit) :
    List (JsString × OpenGroup V) :=
  hits.foldl (Assoc.collect (fun hit => stringify (groupValues documents fields hit))
    (fun hit => ⟨valuesRecord documents fields hit, [hit]⟩)
    (fun group hit => { group with hits := group.hits ++ [hit] })) []

/-- Score and id of the hit a group is ranked by. -/
def GroupResult.lead (group : GroupResult V A) : ℚ × JsString :=
  match group.hits.head? with
  | none => (0, [])
  | some hit => (hit.score.getD 0, hit.id)

/-- The group of the higher score first, then the one of the lower id. -/
def compareLeads (a b : ℚ × JsString) : Ordering :=
  (compare b.1 a.1).then (compareCodePoints a.2 b.2)

def compareGroups (a b : GroupResult V A) : Ordering := compareLeads a.lead b.lead

def applyGrouping (hits : List RankedHit) (group : GroupConfig D A) (documents : GroupedDocuments D V) :
    List (GroupResult V A) :=
  if group.fields = [] then [⟨[], hits, none⟩]
  else
    let keptPerGroup := hitsKeptPerGroup group.maxPerGroup
    let groups := (groupMap stringify documents group.fields hits).map fun entry =>
      { values := entry.2.values
        hits := entry.2.hits.take keptPerGroup
        reduced := group.reduce.map fun reduce =>
          foldGroupReducer reduce (entry.2.hits.map fun hit => (documents.document hit.id, hit.score.getD 0)) }
    let groups := sorted compareGroups groups
    match group.limit with
    | some (.finite limit) => if 0 ≤ limit then groups.take ⌊limit⌋₊ else groups
    | _ => groups

end Grouping

section Wire
variable {V A : Type}

/-- A hit as a node sends it, with its sort values in a sorted query. -/
def wireEntry (sortValuesOf : Option (JsString → List RawValue)) (hit : RankedHit) : ScoredEntry :=
  ⟨hit.id, hit.score, sortValuesOf.map fun sortValues => sortValues hit.id⟩

def convertLocalGroupsToWire (sortValuesOf : Option (JsString → List RawValue)) (groups : List (GroupResult V A)) :
    List (WireGroupEntry V) :=
  groups.map fun group => ⟨group.values, group.hits.map (wireEntry sortValuesOf)⟩

/-- The group settings as they reach a node. -/
def wireGroup {D : Type} (group : GroupConfig D A) : GroupConfig D A :=
  { group with maxPerGroup := some (.finite (hitsKeptPerGroup group.maxPerGroup)) }

def WireGroupEntry.lead (group : WireGroupEntry V) : ℚ × JsString :=
  match group.scored.head? with
  | none => (0, [])
  | some entry => (entry.score.getD 0, entry.docId)

structure KeyedLists (V : Type) where
  values : List (JsString × Option V)
  lists : List (List ScoredEntry)
  deriving DecidableEq, Repr

variable (table : FoldTable) (stringify : List (Option V) → JsString)

/-- `JSON.stringify(fields.map(field => group.values[field]))`. -/
def recordKey (fields : List JsString) (values : List (JsString × Option V)) : JsString :=
  stringify (fields.map fun field => (Assoc.lookup values field).getD none)

def groupsByKey (perNode : List (List (WireGroupEntry V))) (fields : List JsString) :
    List (JsString × KeyedLists V) :=
  perNode.foldl (fun byKey groups =>
    groups.foldl (Assoc.collect (fun group => recordKey stringify fields group.values)
      (fun group => ⟨group.values, [group.scored]⟩)
      (fun existing group => { existing with lists := existing.lists ++ [group.scored] })) byKey) []

/-- The order of the entries in a group: by sort values in a sorted query, by score in others. -/
def entryOrder (sortDirections : Option (List SortDirection)) : ScoredEntry → ScoredEntry → Ordering :=
  match sortDirections with
  | some directions => bySortValues table directions
  | none => compareByScoreThenId

def mergeDistributedGroups (perNode : List (List (WireGroupEntry V))) (fields : List JsString) (maxPerGroup : Nat)
    (limit : Option Nat) (sortDirections : Option (List SortDirection)) : List (WireGroupEntry V) :=
  let merged := (groupsByKey stringify perNode fields).map fun entry =>
    { values := entry.2.values
      scored :=
        match sortDirections with
        | some directions => mergeAndTruncateSortedEntries table entry.2.lists maxPerGroup directions
        | none => mergeAndTruncateScoredEntries entry.2.lists maxPerGroup }
  let merged := sorted (fun a b => compareLeads a.lead b.lead) merged
  match limit with
  | some limit => merged.take limit
  | none => merged

end Wire

section Keys
variable {D V A : Type}

theorem hitsKeptPerGroup_pos (maxPerGroup : Option JsNumber) : 0 < hitsKeptPerGroup maxPerGroup := by
  have default_pos : 0 < DEFAULT_MAX_PER_GROUP := by decide
  unfold hitsKeptPerGroup
  split
  · split
    · exact default_pos
    next large => exact Nat.floor_pos.mpr (not_lt.mp large)
  · exact default_pos

theorem hitsKeptPerGroup_wireGroup (group : GroupConfig D A) :
    hitsKeptPerGroup (wireGroup group).maxPerGroup = hitsKeptPerGroup group.maxPerGroup := by
  have positive : (1 : ℚ) ≤ hitsKeptPerGroup group.maxPerGroup := by
    exact_mod_cast hitsKeptPerGroup_pos group.maxPerGroup
  show (if (hitsKeptPerGroup group.maxPerGroup : ℚ) < 1 then _ else _) = _
  rw [if_neg (not_lt.mpr positive), Nat.floor_natCast]

/-- The value of a hit at a field. -/
def hitValue (documents : GroupedDocuments D V) (hit : RankedHit) (field : JsString) : Option V :=
  (documents.document hit.id).bind fun document => documents.getNestedValue document field

theorem valueAt_eq (documents : GroupedDocuments D V) (fields : List JsString) (hit : RankedHit) {place : Nat}
    (inside : place < fields.length) :
    valueAt (documents.fieldValues hit.id fields) place = hitValue documents hit fields[place] := by
  rw [valueAt, GroupedDocuments.fieldValues, hitValue]
  cases documents.document hit.id with
  | none => rfl
  | some document => simp [inside]

theorem groupValues_eq (documents : GroupedDocuments D V) (fields : List JsString) (hit : RankedHit) :
    groupValues documents fields hit = fields.map (hitValue documents hit) := by
  apply List.ext_getElem
  · simp [groupValues]
  · intro place inside inside'
    have listed : place < fields.length := by simpa using inside'
    rw [List.getElem_map, ← valueAt_eq documents fields hit listed]
    simp [groupValues]

theorem lookup_valuesRecord (documents : GroupedDocuments D V) (fields : List JsString) (hit : RankedHit)
    {field : JsString} (member : field ∈ fields) :
    Assoc.lookup (valuesRecord documents fields hit) field = some (hitValue documents hit field) := by
  have plain : valuesRecord documents fields hit =
      fields.foldl (fun record field => Assoc.set record field (hitValue documents hit field)) [] := by
    have values : ∀ entry ∈ fields.zipIdx,
        valueAt (documents.fieldValues hit.id fields) entry.2 = hitValue documents hit entry.1 := by
      intro entry listed
      obtain ⟨_, inside, same⟩ := List.mem_zipIdx listed
      rw [valueAt_eq documents fields hit (by omega)]
      simp [same]
    rw [valuesRecord, List.foldl_ext _ _ _ fun record entry listed => by rw [values entry listed],
      ← List.foldl_map (f := Prod.fst)
        (g := fun record field => Assoc.set record field (hitValue documents hit field)), List.zipIdx_map_fst]
  have run : ∀ (fields : List JsString) (record : List (JsString × Option V)),
      Assoc.lookup (fields.foldl (fun record field => Assoc.set record field (hitValue documents hit field)) record)
        field = if field ∈ fields then some (hitValue documents hit field) else Assoc.lookup record field := by
    intro fields
    induction fields with
    | nil => simp
    | cons first rest ih =>
      intro record
      rw [List.foldl_cons, ih, Assoc.lookup_set]
      by_cases same : field = first
      · simp [same]
      · simp [same]
  rw [plain, run, if_pos member]

theorem recordKey_valuesRecord (stringify : List (Option V) → JsString) (documents : GroupedDocuments D V)
    (fields : List JsString) (hit : RankedHit) :
    recordKey stringify fields (valuesRecord documents fields hit) =
      stringify (groupValues documents fields hit) := by
  rw [recordKey, groupValues_eq]
  congr 1
  apply List.map_congr_left
  intro field member
  rw [lookup_valuesRecord documents fields hit member, Option.getD_some]

end Keys

end Narsil.Distribution
