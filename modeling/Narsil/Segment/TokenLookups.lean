import Mathlib.Data.List.Sort
import Narsil.Search.Bisection
import Narsil.Segment.StringBlob

/-!
# Token tables

The tokens of a frozen segment in code point order. A token, the tokens with a prefix and
those with a first unit are found by bisecting over the bytes.
-/
namespace Narsil.Segment

open Narsil.Cursor Narsil.Ordering

structure FrozenTokenTableData extends StringBlob where
  payloadSlots : List Nat
  documentFrequencies : List Nat

/-- Positions from `start` on and before `finish`, the `end` of the source. -/
structure TokenRange where
  start : Nat
  finish : Nat
  deriving DecidableEq

def compareAlong : Cursor.Bytes → Cursor.Bytes → Int
  | byte :: bytes, other :: others =>
    let diff : Int := byte.toNat - other.toNat
    if diff ≠ 0 then diff else compareAlong bytes others
  | bytes, others => (bytes.length : Int) - others.length

def compareBytes (blob : Cursor.Bytes) (start finish : Nat) (query : Cursor.Bytes) : Int :=
  compareAlong (bytesAt blob start finish) query

def startsWithBytes (blob : Cursor.Bytes) (start finish : Nat) (query : Cursor.Bytes) : Bool :=
  query.isPrefixOf (bytesAt blob start finish)

def nextCodePoint (codePoint : Nat) : Nat :=
  let next := codePoint + 1
  if 0xd800 ≤ next ∧ next ≤ 0xdfff then 0xe000 else next

/-- `String.fromCodePoint`, which throws beyond the last code point. -/
def fromCodePoint (codePoint : Nat) : Option JsString :=
  if codePoint ≤ 0x10ffff then some (unitsOf codePoint) else none

namespace FrozenTokenTableData

variable (data : FrozenTokenTableData)

def size : Nat := data.payloadSlots.length

def compareRow (query : Cursor.Bytes) (row : Nat) : Int :=
  compareBytes data.blob (data.offsets.getD row 0) (data.offsets.getD (row + 1) 0) query

def startsRow (query : Cursor.Bytes) (row : Nat) : Bool :=
  startsWithBytes data.blob (data.offsets.getD row 0) (data.offsets.getD (row + 1) 0) query

def lowerBound (query : Cursor.Bytes) : Nat :=
  Search.bisect (fun mid => data.compareRow query mid < 0) (List.range data.size)

def prefixEnd (start : Nat) (query : Cursor.Bytes) : Nat :=
  Search.bisectBetween (fun mid => data.startsRow query mid || decide (data.compareRow query mid < 0))
    (List.range data.size) data.size start data.size

def find (token : JsString) : Int :=
  let query := encodeLookupKey token
  let at_row := data.lowerBound query
  if at_row ≥ data.size then -1 else if data.compareRow query at_row = 0 then at_row else -1

def prefixRange (text : JsString) : TokenRange :=
  let bytes := encodeUtf8 text
  let start := data.lowerBound bytes
  ⟨start, data.prefixEnd start bytes⟩

def codePointRange (fromCodePoint' toCodePoint : Nat) : Option TokenRange := do
  let lowest ← fromCodePoint fromCodePoint'
  let next ← fromCodePoint toCodePoint
  some ⟨data.lowerBound (encodeUtf8 lowest), data.lowerBound (encodeUtf8 next)⟩

/-- Nothing where the source throws. -/
def firstCharRange (token : JsString) : Option TokenRange :=
  match token.head? with
  | none => some ⟨0, 0⟩
  | some unit =>
    if 0xd800 ≤ unit ∧ unit ≤ 0xdbff then
      let lowest := 0x10000 + (unit.toNat - 0xd800) <<< 10
      data.codePointRange lowest (lowest + 0x400)
    else if 0xdc00 ≤ unit ∧ unit ≤ 0xdfff then some ⟨0, 0⟩
    else data.codePointRange unit.toNat (nextCodePoint unit.toNat)

end FrozenTokenTableData

/-- A table and the tokens it holds. -/
structure TokenTable extends FrozenTokenTableData where
  strings : List JsString
  slots : payloadSlots.length = strings.length
  stores : Stores toStringBlob strings
  wellFormed : ∀ value ∈ strings, WellFormed value
  ascending : strings.Pairwise fun value later => compareCodePoints value later = .lt

theorem compareAlong_lt (bytes others : Cursor.Bytes) :
    compareAlong bytes others < 0 ↔ List.compareLex compare (byteNumbers bytes) (byteNumbers others) = .lt := by
  induction bytes generalizing others with
  | nil =>
    cases others with
    | nil => exact iff_of_false (by decide) (by decide)
    | cons other others =>
      refine iff_of_true ?_ rfl
      rw [compareAlong, List.length_nil, List.length_cons]
      · omega
      · simp
  | cons byte bytes ih =>
    cases others with
    | nil =>
      refine iff_of_false ?_ (by rintro ⟨⟩)
      rw [compareAlong, List.length_nil, List.length_cons]
      · omega
      · simp
    | cons other others =>
      rw [compareAlong, byteNumbers, byteNumbers, List.map_cons, List.map_cons, List.compareLex_cons_cons]
      rcases Nat.lt_trichotomy byte.toNat other.toNat with below | same | above
      · rw [if_pos (by omega), compare_lt_iff_lt.mpr below]
        exact iff_of_true (by omega) rfl
      · rw [if_neg (by omega), compare_eq_iff_eq.mpr same]
        exact ih others
      · rw [if_pos (by omega), compare_gt_iff_gt.mpr above]
        exact iff_of_false (by omega) (by rintro ⟨⟩)

theorem compareAlong_eq_zero (bytes others : Cursor.Bytes) : compareAlong bytes others = 0 ↔ bytes = others := by
  induction bytes generalizing others with
  | nil =>
    cases others with
    | nil => exact iff_of_true rfl rfl
    | cons other others =>
      refine iff_of_false ?_ (by rintro ⟨⟩)
      rw [compareAlong, List.length_nil, List.length_cons]
      · omega
      · simp
  | cons byte bytes ih =>
    cases others with
    | nil =>
      refine iff_of_false ?_ (by rintro ⟨⟩)
      rw [compareAlong, List.length_nil, List.length_cons]
      · omega
      · simp
    | cons other others =>
      rw [compareAlong, List.cons.injEq, ← UInt8.toNat_inj]
      by_cases same : byte.toNat = other.toNat
      · rw [if_neg (by omega), ih]
        exact (and_iff_right same).symm
      · rw [if_pos (by omega)]
        exact iff_of_false (by omega) fun both => same both.1

theorem below_or_starts {left right front : JsString} (below : compareCodePoints left right = .lt)
    (starts : front <+: right) : compareCodePoints left front = .lt ∨ front <+: left := by
  induction front generalizing left right with
  | nil => exact .inr List.nil_prefix
  | cons unit front ih =>
    obtain ⟨back, rfl⟩ := starts
    cases left with
    | nil => exact .inl rfl
    | cons first left =>
      rw [List.cons_append, compareCodePoints] at below
      rw [compareCodePoints]
      by_cases same : first = unit
      · rw [if_pos same] at below ⊢
        rcases ih below (List.prefix_append front back) with lower | begins
        · exact .inl lower
        · exact .inr (List.cons_prefix_cons.mpr ⟨same.symm, begins⟩)
      · rw [if_neg same] at below ⊢
        exact .inl below

theorem not_below_of_starts {front value : JsString} (starts : front <+: value) :
    compareCodePoints value front ≠ .lt := by
  induction front generalizing value with
  | nil => cases value <;> exact nofun
  | cons unit front ih =>
    obtain ⟨back, rfl⟩ := starts
    rw [List.cons_append, compareCodePoints, if_pos rfl]
    exact ih (List.prefix_append front back)

end Narsil.Segment

/-!
## Lookups in token tables

What is found by bisecting is what a scan of the tokens finds, for the token that the bytes of
the query stand for: the query with its unpaired surrogates replaced.
-/
namespace Narsil.Segment

open Narsil.Cursor Narsil.Ordering

def scanFor (strings : List JsString) (query : JsString) : Int :=
  match strings.findIdx? fun value => value = query with
  | some row => row
  | none => -1

/-- The positions of the strings that pass a test. -/
def scanWhere (test : JsString → Bool) (strings : List JsString) : List Nat :=
  (List.range strings.length).filter fun row => (strings[row]?).any test

/-- The positions a loop from the start of a range to its end visits. -/
def TokenRange.positions (range : TokenRange) : List Nat := List.range' range.start (range.finish - range.start)

def startsWith (query value : JsString) : Bool := query.isPrefixOf value

def sameFirstUnit (query value : JsString) : Bool := query.head?.any fun unit => value.head? = some unit

theorem scanFor_missing {strings : List JsString} {query : JsString} (missing : query ∉ strings) :
    scanFor strings query = -1 := by
  rw [scanFor, List.findIdx?_eq_none_iff.mpr fun value isIn => ?_]
  exact decide_eq_false fun same => missing (same ▸ isIn)

theorem scanFor_at {strings : List JsString} (distinct : strings.Nodup) {row : Nat} {query : JsString}
    (here : strings[row]? = some query) : scanFor strings query = row := by
  obtain ⟨inside, rfl⟩ := List.getElem?_eq_some_iff.mp here
  rw [scanFor, List.findIdx?_eq_some_iff_getElem.mpr ⟨inside, decide_eq_true rfl, fun before earlier => ?_⟩]
  intro same
  exact absurd (distinct.getElem_inj_iff.mp (of_decide_eq_true same)) (Nat.ne_of_lt earlier)

theorem positions_eq_scan {strings : List JsString} {test : JsString → Bool} {range : TokenRange}
    (within : range.finish ≤ strings.length)
    (rows : ∀ row value, strings[row]? = some value →
      (test value = true ↔ range.start ≤ row ∧ row < range.finish)) :
    range.positions = scanWhere test strings := by
  refine @List.Perm.eq_of_pairwise Nat (· ≤ ·) _ _ (fun i j _ _ first second => Nat.le_antisymm first second) ?_ ?_ ?_
  · exact List.pairwise_le_range' 1
  · exact (List.pairwise_lt_range.imp Nat.le_of_lt).filter _
  · refine (List.perm_ext_iff_of_nodup List.nodup_range' (List.nodup_range.filter _)).mpr fun row => ?_
    rw [List.mem_range'_1, List.mem_filter, List.mem_range]
    constructor
    · intro inside
      have row_lt : row < strings.length := by omega
      refine ⟨row_lt, ?_⟩
      rw [List.getElem?_eq_getElem row_lt, Option.any_some, rows row _ (List.getElem?_eq_getElem row_lt)]
      omega
    · rintro ⟨row_lt, passed⟩
      rw [List.getElem?_eq_getElem row_lt, Option.any_some, rows row _ (List.getElem?_eq_getElem row_lt)] at passed
      omega

namespace TokenTable

variable (table : TokenTable) {row : Nat} {value text : JsString}

theorem size_eq : table.size = table.strings.length := table.slots

theorem distinct : table.strings.Nodup :=
  table.ascending.imp fun below same => by
    have equal : compareCodePoints _ _ = .eq := Std.LawfulEqCmp.compare_eq_iff_eq.mpr same
    rw [equal] at below
    cases below

variable {table} (wellFormed : WellFormed text)
include wellFormed

theorem compareRow_lt (here : table.strings[row]? = some value) :
    table.compareRow (encodeUtf8 text) row < 0 ↔ compareCodePoints value text = .lt := by
  rw [FrozenTokenTableData.compareRow, compareBytes, compareAlong_lt,
    ← compare_encoded (table.wellFormed value (List.mem_of_getElem? here)) wellFormed,
    ← table.stores.rows row value here]
  rfl

theorem compareRow_eq (here : table.strings[row]? = some value) :
    table.compareRow (encodeUtf8 text) row = 0 ↔ value = text := by
  rw [FrozenTokenTableData.compareRow, compareBytes, compareAlong_eq_zero,
    ← encodeUtf8_inj (table.wellFormed value (List.mem_of_getElem? here)) wellFormed,
    ← table.stores.rows row value here]
  rfl

theorem startsRow_iff (here : table.strings[row]? = some value) :
    table.startsRow (encodeUtf8 text) row = true ↔ text <+: value := by
  rw [FrozenTokenTableData.startsRow, startsWithBytes, List.isPrefixOf_iff_prefix,
    ← encodeUtf8_starts wellFormed (table.wellFormed value (List.mem_of_getElem? here)),
    ← table.stores.rows row value here]
  rfl

omit wellFormed in
theorem leading {passes : Nat → Bool} {test : JsString → Prop}
    (tests : ∀ row value, table.strings[row]? = some value → (passes row = true ↔ test value))
    (closed : ∀ value later, compareCodePoints value later = .lt → test later → test value) :
    Search.Leading passes (List.range table.size) := by
  rw [Search.Leading, List.pairwise_iff_getElem]
  intro i j i_lt j_lt before
  simp only [List.length_range, size_eq] at i_lt j_lt
  rw [List.getElem_range, List.getElem_range, tests j _ (List.getElem?_eq_getElem j_lt),
    tests i _ (List.getElem?_eq_getElem i_lt)]
  exact closed _ _ (List.pairwise_iff_getElem.mp table.ascending i j i_lt j_lt before)

theorem lowerBound_spec : table.lowerBound (encodeUtf8 text) ≤ table.strings.length ∧
    ∀ row value, table.strings[row]? = some value →
      (row < table.lowerBound (encodeUtf8 text) ↔ compareCodePoints value text = .lt) := by
  have leads : Search.Leading (fun mid => decide (table.compareRow (encodeUtf8 text) mid < 0))
      (List.range table.size) :=
    @leading table _ (fun value => compareCodePoints value text = .lt)
      (fun row value here => decide_eq_true_iff.trans (compareRow_lt wellFormed here))
      fun value later below lower => Std.TransCmp.lt_trans below lower
  obtain ⟨within, rows⟩ := Search.bisect_spec leads
  refine ⟨(within.trans_eq List.length_range).trans_eq (size_eq table), fun row value here => ?_⟩
  have row_lt : row < table.size := by
    rw [size_eq]
    exact (List.getElem?_eq_some_iff.mp here).1
  rw [FrozenTokenTableData.lowerBound, rows row row (List.getElem?_range row_lt), decide_eq_true_eq,
    compareRow_lt wellFormed here]

theorem prefixEnd_spec : table.prefixEnd (table.lowerBound (encodeUtf8 text)) (encodeUtf8 text) ≤ table.strings.length ∧
    ∀ row value, table.strings[row]? = some value →
      (row < table.prefixEnd (table.lowerBound (encodeUtf8 text)) (encodeUtf8 text) ↔
        text <+: value ∨ compareCodePoints value text = .lt) := by
  have tests : ∀ row value, table.strings[row]? = some value →
      ((table.startsRow (encodeUtf8 text) row || decide (table.compareRow (encodeUtf8 text) row < 0)) = true ↔
        text <+: value ∨ compareCodePoints value text = .lt) := by
    intro row value here
    rw [Bool.or_eq_true, decide_eq_true_eq, startsRow_iff wellFormed here, compareRow_lt wellFormed here]
  have leads := @leading table _ (fun value => text <+: value ∨ compareCodePoints value text = .lt) tests <| by
    rintro value later below (starts | lower)
    · exact (below_or_starts below starts).symm
    · exact .inr (Std.TransCmp.lt_trans below lower)
  obtain ⟨lowest_within, lowest⟩ := @lowerBound_spec table text wellFormed
  have rows : (List.range table.size).length = table.size := List.length_range
  -- Below the lower bound every row passes, and behind the last row there is none.
  obtain ⟨within, spec⟩ := Search.bisectBetween_spec leads table.size (table.lowerBound (encodeUtf8 text)) table.size
    (Nat.sub_le _ _) (size_eq table ▸ lowest_within) (Nat.le_of_eq rows.symm)
    (fun row other below here => by
      obtain ⟨row_lt, rfl⟩ := List.getElem?_eq_some_iff.mp here
      rw [List.length_range, size_eq] at row_lt
      rw [List.getElem_range, tests row _ (List.getElem?_eq_getElem row_lt)]
      exact .inr ((lowest row _ (List.getElem?_eq_getElem row_lt)).mp below))
    (fun row other after here => by
      rw [List.getElem?_eq_none (by rw [rows]; exact after)] at here
      cases here)
  refine ⟨(within.trans_eq rows).trans_eq (size_eq table), fun row value here => ?_⟩
  have row_lt : row < table.size := by
    rw [size_eq]
    exact (List.getElem?_eq_some_iff.mp here).1
  rw [← tests row value here, ← spec row row (List.getElem?_range row_lt)]
  rfl

omit wellFormed

variable (table)

theorem find_eq (token : JsString) : table.find token = scanFor table.strings (withUnpairedSurrogatesReplaced token) := by
  have replaced := replaced_wellFormed token
  generalize same : withUnpairedSurrogatesReplaced token = text at replaced ⊢
  obtain ⟨within, below⟩ := @lowerBound_spec table text replaced
  rw [FrozenTokenTableData.find, encodeLookupKey_eq, ← encodeUtf8_replaced, same]
  simp only [size_eq]
  have missing_below {row : Nat} (isRow : table.strings[row]? = some text) :
      row = table.lowerBound (encodeUtf8 text) := by
    -- The rows before the lower bound are below the text, and so is the row at it if it is before the text.
    refine Nat.le_antisymm ?_ ?_
    · by_contra after
      have row_lt := (List.getElem?_eq_some_iff.mp isRow).1
      have at_bound : table.lowerBound (encodeUtf8 text) < table.strings.length := by omega
      have lower := List.pairwise_iff_getElem.mp table.ascending _ row at_bound row_lt (by omega)
      rw [(List.getElem?_eq_some_iff.mp isRow).2] at lower
      exact absurd ((below _ _ (List.getElem?_eq_getElem at_bound)).mpr lower) (Nat.lt_irrefl _)
    · by_contra before
      have lower := (below row text isRow).mp (by omega)
      have equal : compareCodePoints text text = .eq := Std.ReflCmp.compare_self
      rw [equal] at lower
      cases lower
  split
  next beyond =>
    refine (scanFor_missing fun isIn => ?_).symm
    obtain ⟨row, isRow⟩ := List.mem_iff_getElem?.mp isIn
    have row_lt := (List.getElem?_eq_some_iff.mp isRow).1
    have := missing_below isRow
    omega
  next inside =>
    have here := List.getElem?_eq_getElem (Nat.lt_of_not_ge inside)
    have compared := compareRow_eq replaced here
    split
    next equal => exact (scanFor_at table.distinct (here.trans (congrArg some (compared.mp equal)))).symm
    next other =>
      refine (scanFor_missing fun isIn => other (compared.mpr ?_)).symm
      obtain ⟨row, isRow⟩ := List.mem_iff_getElem?.mp isIn
      have at_bound := missing_below isRow
      subst at_bound
      exact (List.getElem?_eq_some_iff.mp isRow).2

theorem prefixRange_positions (text : JsString) : (table.prefixRange text).positions =
    scanWhere (startsWith (withUnpairedSurrogatesReplaced text)) table.strings := by
  have replaced := replaced_wellFormed text
  rw [FrozenTokenTableData.prefixRange, ← encodeUtf8_replaced]
  generalize withUnpairedSurrogatesReplaced text = text at replaced ⊢
  obtain ⟨-, lowest⟩ := @lowerBound_spec table text replaced
  obtain ⟨within, highest⟩ := @prefixEnd_spec table text replaced
  refine positions_eq_scan within fun row value here => ?_
  have first := lowest row value here
  have last := highest row value here
  rw [startsWith, List.isPrefixOf_iff_prefix, last, ← Nat.not_lt, first]
  constructor
  · exact fun starts => ⟨not_below_of_starts starts, .inl starts⟩
  · exact fun ⟨notBelow, either⟩ => either.resolve_right notBelow

theorem fromCodePoint_scalar {point : Nat} (scalar : IsScalar point) : fromCodePoint point = some (unitsOf point) :=
  if_pos (Nat.le_of_lt_succ scalar.1)

theorem unitsOf_wellFormed {point : Nat} (scalar : IsScalar point) : WellFormed (unitsOf point) := by
  have points := codePoints_unitsOf scalar []
  rw [List.append_nil] at points
  rw [WellFormed, points]
  intro other isIn
  rw [List.mem_singleton.mp isIn]
  exact scalar

theorem below_unitsOf {point : Nat} (scalar : IsScalar point) {value : JsString} (wellFormed : WellFormed value) :
    compareCodePoints value (unitsOf point) = .lt ↔ ∀ first, (codePoints value).head? = some first → first < point := by
  have points := codePoints_unitsOf scalar []
  rw [List.append_nil] at points
  rw [compareCodePoints_points wellFormed (unitsOf_wellFormed scalar), points]
  cases codePoints value with
  | nil => exact iff_of_true rfl nofun
  | cons first rest =>
    rw [List.compareLex_cons_cons, List.head?_cons]
    rcases Nat.lt_trichotomy first point with below | same | above
    · rw [compare_lt_iff_lt.mpr below]
      exact iff_of_true rfl fun other isFirst => Option.some.inj isFirst ▸ below
    · subst same
      rw [compare_eq_iff_eq.mpr rfl]
      refine iff_of_false ?_ fun below => absurd (below _ rfl) (Nat.lt_irrefl _)
      cases rest <;> exact nofun
    · rw [compare_gt_iff_gt.mpr above]
      exact iff_of_false nofun fun below => absurd (below _ rfl) (by omega)

theorem codePointRange_positions {lowest next : Nat} (scalar : IsScalar lowest) (scalar' : IsScalar next)
    {test : JsString → Bool} (tests : ∀ value ∈ table.strings, (test value = true ↔
      ∃ first, (codePoints value).head? = some first ∧ lowest ≤ first ∧ first < next)) :
    ∃ range, table.codePointRange lowest next = some range ∧ range.positions = scanWhere test table.strings := by
  rw [FrozenTokenTableData.codePointRange, fromCodePoint_scalar scalar, fromCodePoint_scalar scalar']
  refine ⟨_, rfl, positions_eq_scan (lowerBound_spec (unitsOf_wellFormed scalar')).1 fun row value here => ?_⟩
  have isIn := List.mem_of_getElem? here
  rw [tests value isIn, ← Nat.not_lt, (lowerBound_spec (unitsOf_wellFormed scalar)).2 row value here,
    (lowerBound_spec (unitsOf_wellFormed scalar')).2 row value here, below_unitsOf scalar (table.wellFormed value isIn),
    below_unitsOf scalar' (table.wellFormed value isIn)]
  cases (codePoints value).head? with
  | none => exact iff_of_false (fun ⟨_, first, _⟩ => nomatch first) fun ⟨notBelow, _⟩ => notBelow nofun
  | some first =>
    constructor
    · rintro ⟨other, same, above, below⟩
      cases same
      exact ⟨fun lower => absurd (lower _ rfl) (by omega), fun other same => by cases same; exact below⟩
    · rintro ⟨notBelow, below⟩
      refine ⟨first, rfl, ?_, below first rfl⟩
      by_contra lower
      exact notBelow fun other same => by cases same; omega

theorem head?_units (value : JsString) :
    value.head? = (codePoints value).head?.bind fun point => (unitsOf point).head? := by
  conv_lhs => rw [← units_codePoints value]
  cases codePoints value with
  | nil => rfl
  | cons point rest =>
    rw [List.flatMap_cons, List.head?_cons, Option.bind_some, unitsOf]
    split <;> rfl

theorem sameFirstUnit_iff {unit : UInt16} (rest value : JsString) : sameFirstUnit (unit :: rest) value = true ↔
    ∃ first, (codePoints value).head? = some first ∧ (unitsOf first).head? = some unit := by
  rw [sameFirstUnit, List.head?_cons, Option.any_some, decide_eq_true_eq, head?_units, Option.bind_eq_some_iff]

theorem firstUnit_iff {first : Nat} (scalar : IsScalar first) (unit : UInt16) :
    (unitsOf first).head? = some unit ↔
      (¬ IsSurrogate unit.toNat ∧ first = unit.toNat) ∨
      (0xd800 ≤ unit.toNat ∧ unit.toNat < 0xdc00 ∧ 0x10000 + (unit.toNat - 0xd800) * 0x400 ≤ first ∧
        first < 0x10000 + (unit.toNat - 0xd800) * 0x400 + 0x400) := by
  obtain ⟨bound, notSurrogate⟩ := scalar
  have unit_bound := unit.toNat_lt
  simp only [IsSurrogate] at notSurrogate ⊢
  rw [unitsOf]
  split
  next basic =>
    rw [List.head?_cons, Option.some.injEq, ← UInt16.toNat_inj, toNat_toUInt16 basic]
    omega
  next beyond =>
    rw [List.head?_cons, Option.some.injEq, ← UInt16.toNat_inj, toNat_toUInt16 (by omega)]
    omega

theorem first_scalar {table : TokenTable} {value : JsString} (isIn : value ∈ table.strings) {first : Nat}
    (isFirst : (codePoints value).head? = some first) : IsScalar first :=
  table.wellFormed value isIn first (List.mem_of_mem_head? isFirst)

theorem high_range (unit : UInt16) (high : 0xd800 ≤ unit ∧ unit ≤ 0xdbff) (last : unit ≠ 0xdbff) (rest : JsString) :
    ∃ range, table.firstCharRange (unit :: rest) = some range ∧
      range.positions = scanWhere (sameFirstUnit (unit :: rest)) table.strings := by
  have bounds := high
  simp only [UInt16.le_iff_toNat_le, UInt16.reduceToNat] at bounds
  have notLast : unit.toNat ≠ 0xdbff := fun same => last (UInt16.toNat_inj.mp same)
  have shifted : (unit.toNat - 0xd800) <<< 10 = (unit.toNat - 0xd800) * 0x400 := Nat.shiftLeft_eq _ _
  rw [FrozenTokenTableData.firstCharRange, List.head?_cons]
  simp only [if_pos high, shifted]
  refine codePointRange_positions table ⟨by omega, by rw [IsSurrogate]; omega⟩ ⟨by omega, by rw [IsSurrogate]; omega⟩
    fun value isIn => ?_
  rw [sameFirstUnit_iff]
  refine exists_congr fun first => and_congr_right fun isFirst => ?_
  rw [firstUnit_iff (first_scalar isIn isFirst) unit, IsSurrogate]
  omega

theorem low_range (unit : UInt16) (low : 0xdc00 ≤ unit ∧ unit ≤ 0xdfff) (rest : JsString) :
    ∃ range, table.firstCharRange (unit :: rest) = some range ∧
      range.positions = scanWhere (sameFirstUnit (unit :: rest)) table.strings := by
  have bounds := low
  simp only [UInt16.le_iff_toNat_le, UInt16.reduceToNat] at bounds
  have notHigh : ¬ (0xd800 ≤ unit ∧ unit ≤ 0xdbff) := by
    simp only [UInt16.le_iff_toNat_le, UInt16.reduceToNat]
    omega
  rw [FrozenTokenTableData.firstCharRange, List.head?_cons]
  simp only [if_neg notHigh, if_pos low]
  refine ⟨_, rfl, (List.filter_eq_nil_iff.mpr fun row _ passed => ?_).symm⟩
  obtain ⟨value, here, passes⟩ := (Option.any_eq_true _ _).mp passed
  obtain ⟨first, isFirst, isUnit⟩ := (sameFirstUnit_iff rest value).mp passes
  rw [firstUnit_iff (first_scalar (List.mem_of_getElem? here) isFirst) unit, IsSurrogate] at isUnit
  omega

theorem basic_range (unit : UInt16) (notHigh : ¬ (0xd800 ≤ unit ∧ unit ≤ 0xdbff))
    (notLow : ¬ (0xdc00 ≤ unit ∧ unit ≤ 0xdfff)) (rest : JsString) :
    ∃ range, table.firstCharRange (unit :: rest) = some range ∧
      range.positions = scanWhere (sameFirstUnit (unit :: rest)) table.strings := by
  have bound := unit.toNat_lt
  have bounds := And.intro notHigh notLow
  simp only [UInt16.le_iff_toNat_le, UInt16.reduceToNat] at bounds
  have next : nextCodePoint unit.toNat = unit.toNat + 1 ∨
      unit.toNat = 0xd7ff ∧ nextCodePoint unit.toNat = 0xe000 := by
    rw [nextCodePoint]
    split
    · exact .inr ⟨by omega, rfl⟩
    · exact .inl rfl
  have next_scalar : IsScalar (nextCodePoint unit.toNat) := by
    rw [IsScalar, IsSurrogate]
    simp only [nextCodePoint] at next ⊢
    split <;> omega
  rw [FrozenTokenTableData.firstCharRange, List.head?_cons]
  simp only [if_neg notHigh, if_neg notLow]
  refine codePointRange_positions table ⟨by omega, by rw [IsSurrogate]; omega⟩ next_scalar fun value isIn => ?_
  rw [sameFirstUnit_iff]
  refine exists_congr fun first => and_congr_right fun isFirst => ?_
  have scalar := first_scalar isIn isFirst
  rw [firstUnit_iff scalar unit, IsSurrogate]
  have notSurrogate := scalar.2
  rw [IsSurrogate] at notSurrogate
  omega

/-- The code point after the last one that begins with the unit 0xdbff is none, and asking for
its string throws. -/
theorem last_throws (rest : JsString) : table.firstCharRange (0xdbff :: rest) = none := by
  have high : (0xd800 : UInt16) ≤ 0xdbff ∧ (0xdbff : UInt16) ≤ 0xdbff := by decide
  have beyond : fromCodePoint (0x10000 + ((0xdbff : UInt16).toNat - 0xd800) <<< 10 + 0x400) = none :=
    if_neg (by decide)
  rw [FrozenTokenTableData.firstCharRange, List.head?_cons]
  simp only [if_pos high]
  rw [FrozenTokenTableData.codePointRange, beyond]
  cases fromCodePoint (0x10000 + ((0xdbff : UInt16).toNat - 0xd800) <<< 10) <;> rfl

theorem firstCharRange_spec (token : JsString) :
    (∃ range, table.firstCharRange token = some range ∧
      range.positions = scanWhere (sameFirstUnit token) table.strings) ↔ token.head? ≠ some 0xdbff := by
  cases token with
  | nil =>
    refine iff_of_true ⟨_, rfl, (List.filter_eq_nil_iff.mpr fun row _ passed => ?_).symm⟩ nofun
    obtain ⟨value, -, passes⟩ := (Option.any_eq_true _ _).mp passed
    cases passes
  | cons unit rest =>
    by_cases last : unit = 0xdbff
    · subst last
      refine iff_of_false (fun ⟨range, found, _⟩ => ?_) fun other => other rfl
      rw [last_throws] at found
      cases found
    · refine iff_of_true ?_ fun same => last (Option.some.inj same)
      by_cases high : 0xd800 ≤ unit ∧ unit ≤ 0xdbff
      · exact high_range table unit high last rest
      · by_cases low : 0xdc00 ≤ unit ∧ unit ≤ 0xdfff
        · exact low_range table unit low rest
        · exact basic_range table unit high low rest

end TokenTable

end Narsil.Segment
