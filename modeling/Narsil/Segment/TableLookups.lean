import Narsil.Assoc.Entries
import Narsil.Segment.TokenLookups

/-!
# External ids

The ids of the documents of a segment by ordinal, with the ordinals in code point order. An id
that was decoded once is kept with its ordinal, and is looked up there before the bytes are.
-/
namespace Narsil.Segment

open Narsil.Cursor Narsil.Ordering

structure ExternalIdTableData extends StringBlob where
  sortedOrdinals : List Nat

/-- The ids that were decoded so far. -/
structure DecodedIds where
  decoded : List (Nat × JsString)
  decodedOrdinals : List (JsString × Nat)

def NONE_DECODED : DecodedIds := ⟨[], []⟩

namespace ExternalIdTableData

variable (data : ExternalIdTableData)

def count : Nat := data.sortedOrdinals.length

def idAt (ids : DecodedIds) (ordinal : Nat) : JsString × DecodedIds :=
  match Assoc.lookup ids.decoded ordinal with
  | some id => (id, ids)
  | none =>
    let id := decodeText (bytesAt data.blob (data.offsets.getD ordinal 0) (data.offsets.getD (ordinal + 1) 0))
    (id, ⟨Assoc.set ids.decoded ordinal id, Assoc.set ids.decodedOrdinals id ordinal⟩)

/-- The bytes of the id at an ordinal against the query's. -/
def compareOrdinal (query : Cursor.Bytes) (ordinal : Nat) : Int :=
  compareBytes data.blob (data.offsets.getD ordinal 0) (data.offsets.getD (ordinal + 1) 0) query

def ordinalOf (ids : DecodedIds) (docId : JsString) : Int :=
  match Assoc.lookup ids.decodedOrdinals docId with
  | some known => known
  | none =>
    let query := encodeLookupKey docId
    let lo := Search.bisect (fun ordinal => data.compareOrdinal query ordinal < 0) data.sortedOrdinals
    match data.sortedOrdinals[lo]? with
    | none => -1
    | some ordinal => if data.compareOrdinal query ordinal = 0 then ordinal else -1

end ExternalIdTableData

/-- A table and its ids, by ordinal. -/
structure ExternalIdTable extends ExternalIdTableData where
  ids : List JsString
  stores : Stores toStringBlob ids
  wellFormed : ∀ id ∈ ids, WellFormed id
  ordinals : sortedOrdinals.Perm (List.range ids.length)
  ascending : sortedOrdinals.Pairwise fun ordinal later =>
    compareCodePoints (ids.getD ordinal []) (ids.getD later []) = .lt

namespace ExternalIdTable

variable (table : ExternalIdTable)

/-- The ids at ordinals of the table, decoded one after the other. -/
def decodeAll (ids : DecodedIds) : List (Fin table.ids.length) → DecodedIds
  | [] => ids
  | ordinal :: later => decodeAll (table.idAt ids ordinal).2 later

variable {table} {ordinal : Nat} {id text : JsString}

theorem mem_sorted : ordinal ∈ table.sortedOrdinals ↔ ordinal < table.ids.length := by
  rw [table.ordinals.mem_iff, List.mem_range]

theorem getD_of_getElem? (here : table.ids[ordinal]? = some id) : table.ids.getD ordinal [] = id := by
  rw [List.getD, here]
  rfl

theorem distinct : table.ids.Nodup := by
  have sorted_distinct : (table.sortedOrdinals.map fun ordinal => table.ids.getD ordinal []).Nodup := by
    refine List.pairwise_map.mpr (table.ascending.imp fun below same => ?_)
    have equal : compareCodePoints _ _ = .eq := Std.LawfulEqCmp.compare_eq_iff_eq.mpr same
    rw [equal] at below
    cases below
  have by_ordinal : (List.range table.ids.length).map (fun ordinal => table.ids.getD ordinal []) = table.ids := by
    refine List.ext_getElem (by simp) fun ordinal inside inside' => ?_
    rw [List.getElem_map, List.getElem_range]
    exact getD_of_getElem? (List.getElem?_eq_getElem inside')
  rw [← by_ordinal]
  exact (table.ordinals.map _).nodup_iff.mp sorted_distinct

section Compare
variable (wellFormed : WellFormed text)
include wellFormed

theorem compareOrdinal_lt (here : table.ids[ordinal]? = some id) :
    table.compareOrdinal (encodeUtf8 text) ordinal < 0 ↔ compareCodePoints id text = .lt := by
  rw [ExternalIdTableData.compareOrdinal, compareBytes, compareAlong_lt,
    ← compare_encoded (table.wellFormed id (List.mem_of_getElem? here)) wellFormed, ← table.stores.rows ordinal id here]
  rfl

theorem compareOrdinal_eq (here : table.ids[ordinal]? = some id) :
    table.compareOrdinal (encodeUtf8 text) ordinal = 0 ↔ id = text := by
  rw [ExternalIdTableData.compareOrdinal, compareBytes, compareAlong_eq_zero,
    ← encodeUtf8_inj (table.wellFormed id (List.mem_of_getElem? here)) wellFormed, ← table.stores.rows ordinal id here]
  rfl

theorem bisect_at (here : table.ids[ordinal]? = some text) {place : Nat}
    (isPlace : table.sortedOrdinals[place]? = some ordinal) : Search.bisect
      (fun ordinal => decide (table.compareOrdinal (encodeUtf8 text) ordinal < 0)) table.sortedOrdinals = place := by
  have ids_at {other : Nat} (isIn : other ∈ table.sortedOrdinals) :
      table.ids[other]? = some (table.ids.getD other []) := by
    rw [List.getD, List.getElem?_eq_getElem (mem_sorted.mp isIn)]
    rfl
  have leads : Search.Leading (fun ordinal => decide (table.compareOrdinal (encodeUtf8 text) ordinal < 0))
      table.sortedOrdinals := by
    refine List.Pairwise.imp_of_mem (fun {first later} isIn isLater below => ?_) table.ascending
    rw [decide_eq_true_eq, decide_eq_true_eq, compareOrdinal_lt wellFormed (ids_at isIn),
      compareOrdinal_lt wellFormed (ids_at isLater)]
    exact fun lower => Std.TransCmp.lt_trans below lower
  obtain ⟨-, spec⟩ := Search.bisect_spec leads
  have irreflexive (value : JsString) : compareCodePoints value value ≠ .lt := by
    have equal : compareCodePoints value value = .eq := Std.ReflCmp.compare_self
    rw [equal]
    exact nofun
  obtain ⟨place_lt, at_place⟩ := List.getElem?_eq_some_iff.mp isPlace
  refine Nat.le_antisymm ?_ ?_
  · by_contra before
    have passed := (spec place ordinal isPlace).mp (by omega)
    rw [decide_eq_true_eq, compareOrdinal_lt wellFormed here] at passed
    exact irreflexive text passed
  · by_contra after
    have bound_lt := Nat.lt_trans (Nat.lt_of_not_ge after) place_lt
    have bound_at := List.getElem?_eq_getElem bound_lt
    have below := List.pairwise_iff_getElem.mp table.ascending _ place bound_lt place_lt (Nat.lt_of_not_ge after)
    rw [at_place, getD_of_getElem? here, ← compareOrdinal_lt wellFormed (ids_at (List.getElem_mem bound_lt))] at below
    exact absurd ((spec _ _ bound_at).mpr (decide_eq_true below)) (Nat.lt_irrefl _)

end Compare

theorem ordinalOf_bytes {ids : DecodedIds} {docId : JsString} (unknown : Assoc.lookup ids.decodedOrdinals docId = none) :
    table.ordinalOf ids docId = scanFor table.ids (withUnpairedSurrogatesReplaced docId) := by
  have replaced := replaced_wellFormed docId
  rw [ExternalIdTableData.ordinalOf, unknown]
  simp only [encodeLookupKey_eq]
  rw [← encodeUtf8_replaced]
  generalize withUnpairedSurrogatesReplaced docId = text at replaced ⊢
  have place_of {ordinal : Nat} (here : table.ids[ordinal]? = some text) :
      table.sortedOrdinals[Search.bisect (fun ordinal => decide (table.compareOrdinal (encodeUtf8 text) ordinal < 0))
        table.sortedOrdinals]? = some ordinal := by
    obtain ⟨place, isPlace⟩ := List.mem_iff_getElem?.mp
      (mem_sorted.mpr (List.getElem?_eq_some_iff.mp here).1)
    rw [bisect_at replaced here isPlace, isPlace]
  split
  next beyond =>
    refine (scanFor_missing fun isIn => ?_).symm
    obtain ⟨ordinal, here⟩ := List.mem_iff_getElem?.mp isIn
    rw [place_of here] at beyond
    cases beyond
  next ordinal at_place =>
    have here := List.getElem?_eq_getElem (mem_sorted.mp (List.mem_of_getElem? at_place))
    have compared := compareOrdinal_eq replaced here
    split
    next equal => exact (scanFor_at distinct (here.trans (congrArg some (compared.mp equal)))).symm
    next other =>
      refine (scanFor_missing fun isIn => other (compared.mpr ?_)).symm
      obtain ⟨found, isFound⟩ := List.mem_iff_getElem?.mp isIn
      have same := (place_of isFound).symm.trans at_place
      cases same
      exact (List.getElem?_eq_some_iff.mp isFound).2

/-- Each id that is kept with an ordinal was decoded from the id there. -/
def Decoded (table : ExternalIdTable) (ids : DecodedIds) : Prop := ∀ shown ordinal, Assoc.lookup ids.decodedOrdinals shown = some ordinal →
  ∃ id, table.ids[ordinal]? = some id ∧ shown = if id.head? = some BYTE_ORDER_MARK then id.drop 1 else id

theorem idAt_decoded {ids : DecodedIds} (before : Decoded table ids) (ordinal : Fin table.ids.length) :
    Decoded table (table.idAt ids ordinal).2 := by
  rw [ExternalIdTableData.idAt]
  split
  · exact before
  · intro shown other found
    have here : table.ids[ordinal.val]? = some table.ids[ordinal.val] := List.getElem?_eq_getElem ordinal.isLt
    have bytes := table.stores.rows ordinal _ here
    rw [StringBlob.stringBytes] at bytes
    simp only [Assoc.lookup_set, bytes] at found
    split at found
    next same =>
      cases found
      refine ⟨_, here, ?_⟩
      rw [same, decodeText_encoded (table.wellFormed _ (List.getElem_mem ordinal.isLt))]
    next => exact before shown other found

theorem decodeAll_decoded (ordinals : List (Fin table.ids.length)) {ids : DecodedIds}
    (before : Decoded table ids) : Decoded table (table.decodeAll ids ordinals) := by
  induction ordinals generalizing ids with
  | nil => exact before
  | cons ordinal later ih => exact ih (idAt_decoded before ordinal)

end ExternalIdTable

end Narsil.Segment

/-!
## Lookups and scans

When a lookup finds what a scan of the strings finds. The bytes of a query with an unpaired
surrogate are those of the query with the replacement character, an id that begins with a byte
order mark is kept without it once it was decoded, and no code point follows the last one.
-/
namespace Narsil.Segment

open Narsil.Cursor Narsil.Ordering

variable (table : TokenTable) (idTable : ExternalIdTable)

theorem replaced_length (value : JsString) : (withUnpairedSurrogatesReplaced value).length = value.length := by
  induction value using codePoints.induct with
  | case1 => rfl
  | case2 unit => rfl
  | case3 unit low rest pair ih =>
    rw [withUnpairedSurrogatesReplaced, if_pos pair, List.length_cons, List.length_cons, ih]
    rfl
  | case4 unit low rest single ih =>
    rw [withUnpairedSurrogatesReplaced, if_neg single, List.length_cons, ih]
    rfl

theorem scanFor_replaced {strings : List JsString} (wellFormed : ∀ value ∈ strings, WellFormed value)
    (query : JsString) : scanFor strings (withUnpairedSurrogatesReplaced query) = scanFor strings query ↔
      WellFormed query ∨ withUnpairedSurrogatesReplaced query ∉ strings := by
  by_cases isWell : WellFormed query
  · rw [replaced_eq_self isWell]
    exact iff_of_true rfl (.inl isWell)
  · have absent : query ∉ strings := fun isIn => isWell (wellFormed query isIn)
    rw [scanFor_missing absent]
    by_cases found : withUnpairedSurrogatesReplaced query ∈ strings
    · refine iff_of_false (fun missing => ?_) fun either => either.elim isWell fun notIn => notIn found
      obtain ⟨row, isRow⟩ : ∃ row, strings.findIdx? (fun value => value = withUnpairedSurrogatesReplaced query) =
          some row := by
        rw [← Option.isSome_iff_exists, List.findIdx?_isSome]
        exact List.any_eq_true.mpr ⟨_, found, decide_eq_true rfl⟩
      rw [scanFor, isRow] at missing
      simp only at missing
      omega
    · exact iff_of_true (scanFor_missing found) (.inr found)

theorem scanWhere_replaced {strings : List JsString} (text : JsString) :
    scanWhere (startsWith (withUnpairedSurrogatesReplaced text)) strings = scanWhere (startsWith text) strings ↔
      WellFormed text ∨ ∀ value ∈ strings,
        ¬ text <+: value ∧ ¬ withUnpairedSurrogatesReplaced text <+: value := by
  have mem_scan (query : JsString) {row : Nat} (inside : row < strings.length) :
      row ∈ scanWhere (startsWith query) strings ↔ query <+: strings[row] := by
    rw [scanWhere, List.mem_filter, List.mem_range, List.getElem?_eq_getElem inside, Option.any_some, startsWith,
      List.isPrefixOf_iff_prefix]
    exact and_iff_right inside
  by_cases isWell : WellFormed text
  · rw [replaced_eq_self isWell]
    exact iff_of_true rfl (.inl isWell)
  · rw [or_iff_right isWell]
    constructor
    · intro same value isIn
      obtain ⟨row, inside, rfl⟩ := List.getElem_of_mem isIn
      have rows := mem_scan (withUnpairedSurrogatesReplaced text) inside
      rw [same, mem_scan text inside] at rows
      -- No string begins with both, which are of one length and differ.
      have notBoth : ¬ (text <+: strings[row] ∧ withUnpairedSurrogatesReplaced text <+: strings[row]) := by
        rintro ⟨first, second⟩
        have equal := (List.prefix_of_prefix_length_le second first (Nat.le_of_eq (replaced_length text))).eq_of_length
          (replaced_length text)
        exact isWell (equal ▸ replaced_wellFormed text)
      exact ⟨fun first => notBoth ⟨first, rows.mp first⟩, fun second => notBoth ⟨rows.mpr second, second⟩⟩
    · intro neither
      refine List.filter_congr fun row isRow => ?_
      have inside := List.mem_range.mp isRow
      have value := neither _ (List.getElem_mem inside)
      rw [List.getElem?_eq_getElem inside, Option.any_some, Option.any_some, startsWith, startsWith, Bool.eq_iff_iff,
        List.isPrefixOf_iff_prefix, List.isPrefixOf_iff_prefix]
      exact iff_of_false value.2 value.1

theorem ordinalOf_iff (decoded : List (Fin idTable.ids.length)) (docId : JsString) :
    let ids := idTable.decodeAll NONE_DECODED decoded
    idTable.ordinalOf ids docId = scanFor idTable.ids docId ↔
      match Assoc.lookup ids.decodedOrdinals docId with
      | some ordinal => idTable.ids[ordinal]? ≠ some (BYTE_ORDER_MARK :: docId)
      | none => WellFormed docId ∨ withUnpairedSurrogatesReplaced docId ∉ idTable.ids := by
  have held := @ExternalIdTable.decodeAll_decoded idTable decoded NONE_DECODED nofun
  simp only
  generalize idTable.decodeAll NONE_DECODED decoded = ids at held
  cases known : Assoc.lookup ids.decodedOrdinals docId with
  | none =>
    rw [ExternalIdTable.ordinalOf_bytes known]
    exact scanFor_replaced idTable.wellFormed docId
  | some ordinal =>
    have answer : idTable.ordinalOf ids docId = ordinal := by rw [ExternalIdTableData.ordinalOf, known]
    obtain ⟨id, here, shown⟩ := held docId ordinal known
    simp only [answer, here, ne_eq, Option.some.injEq]
    by_cases marked : id.head? = some BYTE_ORDER_MARK
    · rw [if_pos marked] at shown
      cases id with
      | nil => cases marked
      | cons unit rest =>
        obtain rfl := Option.some.inj marked
        obtain rfl : docId = rest := shown
        refine iff_of_false (fun same => ?_) fun other => other rfl
        by_cases isIn : docId ∈ idTable.ids
        · obtain ⟨other, isOther⟩ := List.mem_iff_getElem?.mp isIn
          rw [scanFor_at ExternalIdTable.distinct isOther, Int.natCast_inj] at same
          subst same
          rw [isOther] at here
          exact absurd (congrArg List.length (Option.some.inj here)) (by simp)
        · rw [scanFor_missing isIn] at same
          omega
    · rw [if_neg marked] at shown
      subst shown
      refine iff_of_true (scanFor_at ExternalIdTable.distinct here).symm fun same => ?_
      exact absurd (congrArg List.length same) (by simp)

/-- Lookups agree with scans of the strings for just these queries. Bytes compare as code points
do, and units do not. -/
theorem lookups_scan (decoded : List (Fin idTable.ids.length)) (query : JsString) :
    (table.find query = scanFor table.strings query ↔
      WellFormed query ∨ withUnpairedSurrogatesReplaced query ∉ table.strings) ∧
    ((table.prefixRange query).positions = scanWhere (startsWith query) table.strings ↔
      WellFormed query ∨ ∀ value ∈ table.strings,
        ¬ query <+: value ∧ ¬ withUnpairedSurrogatesReplaced query <+: value) ∧
    ((∃ range, table.firstCharRange query = some range ∧
        range.positions = scanWhere (sameFirstUnit query) table.strings) ↔ query.head? ≠ some 0xdbff) ∧
    (idTable.ordinalOf (idTable.decodeAll NONE_DECODED decoded) query = scanFor idTable.ids query ↔
      match Assoc.lookup (idTable.decodeAll NONE_DECODED decoded).decodedOrdinals query with
      | some ordinal => idTable.ids[ordinal]? ≠ some (BYTE_ORDER_MARK :: query)
      | none => WellFormed query ∨ withUnpairedSurrogatesReplaced query ∉ idTable.ids) ∧
    (∀ left right, WellFormed left → WellFormed right →
      (compareAlong (encodeUtf8 left) (encodeUtf8 right) < 0 ↔ compareCodePoints left right = .lt) ∧
      (compareAlong (encodeUtf8 left) (encodeUtf8 right) = 0 ↔ left = right)) ∧
    ∃ left right, WellFormed left ∧ WellFormed right ∧
      List.compareLex compare left right ≠ compareCodePoints left right := by
  refine ⟨?_, ?_, TokenTable.firstCharRange_spec table query, ordinalOf_iff idTable decoded query, ?_, ?_⟩
  · rw [TokenTable.find_eq]
    exact scanFor_replaced table.wellFormed query
  · rw [TokenTable.prefixRange_positions]
    exact scanWhere_replaced query
  · intro left right wellFormed wellFormed'
    rw [compareAlong_lt, compare_encoded wellFormed wellFormed', compareAlong_eq_zero,
      encodeUtf8_inj wellFormed wellFormed']
    exact ⟨Iff.rfl, Iff.rfl⟩
  · exact ⟨[0xffff], [0xd800, 0xdc00], by decide, by decide, by decide⟩

/-- The table of one token, which begins with the last high surrogate. -/
def lastToken : TokenTable where
  toStringBlob := encodeStringBlob [[0xdbff, 0xdc00]]
  payloadSlots := [0]
  documentFrequencies := [1]
  strings := [[0xdbff, 0xdc00]]
  slots := rfl
  stores := encodeStringBlob_stores _
  wellFormed := by decide
  ascending := List.pairwise_singleton _ _

theorem lastToken_throws : ¬ ∃ range, lastToken.firstCharRange [0xdbff, 0xdc00] = some range ∧
    range.positions = scanWhere (sameFirstUnit [0xdbff, 0xdc00]) lastToken.strings := by
  rintro ⟨range, found, -⟩
  rw [TokenTable.last_throws] at found
  cases found

end Narsil.Segment
