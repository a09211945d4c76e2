import Mathlib.Data.List.Flatten
import Narsil.Codes.Separated
import Narsil.Cursor.Binding

/-!
# Well-formed strings

A string without unpaired surrogates is a text of code points, each written in one unit or
two. Units compare as code points do once they are adjusted, and not as they are.
-/
namespace Narsil.Ordering

def IsSurrogate (codePoint : Nat) : Prop := 0xd800 ≤ codePoint ∧ codePoint < 0xe000

instance (codePoint : Nat) : Decidable (IsSurrogate codePoint) := inferInstanceAs (Decidable (_ ∧ _))

/-- A code point that is no surrogate. -/
def IsScalar (codePoint : Nat) : Prop := codePoint < 0x110000 ∧ ¬ IsSurrogate codePoint

instance (codePoint : Nat) : Decidable (IsScalar codePoint) := inferInstanceAs (Decidable (_ ∧ _))

def WellFormed (value : JsString) : Prop := ∀ point ∈ codePoints value, IsScalar point

instance (value : JsString) : Decidable (WellFormed value) := inferInstanceAs (Decidable (∀ _ ∈ _, _))

/-- The units of a code point. -/
def unitsOf (codePoint : Nat) : JsString :=
  if codePoint < 0x10000 then [codePoint.toUInt16]
  else [(0xd800 + (codePoint - 0x10000) / 0x400).toUInt16, (0xdc00 + (codePoint - 0x10000) % 0x400).toUInt16]

theorem pair_bounds {unit low : UInt16} (pair : (isHighSurrogate unit && isLowSurrogate low) = true) :
    0xd800 ≤ unit.toNat ∧ unit.toNat < 0xdc00 ∧ 0xdc00 ≤ low.toNat ∧ low.toNat < 0xe000 := by
  simp only [isHighSurrogate, isLowSurrogate, Bool.and_eq_true, decide_eq_true_eq, UInt16.le_iff_toNat_le,
    UInt16.lt_iff_toNat_lt, UInt16.reduceToNat] at pair
  omega

theorem toNat_toUInt16 {value : Nat} (fits : value < 0x10000) : value.toUInt16.toNat = value := by
  rw [Nat.toUInt16_eq, UInt16.toNat_ofNat', Nat.mod_eq_of_lt fits]

theorem two_eq {α : Type} {a b c d : α} (first : a = c) (second : b = d) : [a, b] = [c, d] := by
  rw [first, second]

theorem unitsOf_unit (unit : UInt16) : unitsOf unit.toNat = [unit] := by
  rw [unitsOf, if_pos unit.toNat_lt, Nat.toUInt16_eq, UInt16.ofNat_toNat]

theorem unitsOf_pair {unit low : UInt16} (pair : (isHighSurrogate unit && isLowSurrogate low) = true) :
    unitsOf (0x10000 + (unit.toNat - 0xd800) * 0x400 + (low.toNat - 0xdc00)) = [unit, low] := by
  have bounds := pair_bounds pair
  rw [unitsOf, if_neg (by omega)]
  refine two_eq ?_ ?_ <;> rw [← UInt16.toNat_inj, toNat_toUInt16 (by omega)] <;> omega

theorem units_codePoints (value : JsString) : (codePoints value).flatMap unitsOf = value := by
  induction value using codePoints.induct with
  | case1 => rfl
  | case2 unit => rw [codePoints, List.flatMap_singleton, unitsOf_unit]
  | case3 unit low rest pair ih =>
    have first := unitsOf_pair pair
    rw [codePoints, if_pos pair, List.flatMap_cons, ih, first]
    rfl
  | case4 unit low rest single ih =>
    rw [codePoints, if_neg single, List.flatMap_cons, unitsOf_unit, ih]
    rfl

theorem codePoints_lt (value : JsString) : ∀ point ∈ codePoints value, point < 0x110000 := by
  induction value using codePoints.induct with
  | case1 =>
    intro _ isIn
    cases isIn
  | case2 unit =>
    intro point isIn
    have bound := unit.toNat_lt
    rw [List.mem_singleton.mp isIn]
    omega
  | case3 unit low rest pair ih =>
    intro point isIn
    have bounds := pair_bounds pair
    rw [codePoints, if_pos pair, List.mem_cons] at isIn
    rcases isIn with first | later
    · omega
    · exact ih point later
  | case4 unit low rest single ih =>
    intro point isIn
    rw [codePoints, if_neg single] at isIn
    have bound := unit.toNat_lt
    rcases List.mem_cons.mp isIn with rfl | later
    · omega
    · exact ih point later

theorem codePoints_unitsOf {point : Nat} (scalar : IsScalar point) (rest : JsString) :
    codePoints (unitsOf point ++ rest) = point :: codePoints rest := by
  obtain ⟨bound, notSurrogate⟩ := scalar
  rw [IsSurrogate] at notSurrogate
  rw [unitsOf]
  split
  next basic =>
    have same := toNat_toUInt16 basic
    cases rest with
    | nil => exact congrArg (fun point => [point]) same
    | cons low rest =>
      have notHigh : ¬ (isHighSurrogate point.toUInt16 && isLowSurrogate low) = true := by
        intro pair
        have bounds := pair_bounds pair
        omega
      rw [List.singleton_append, codePoints, if_neg notHigh, same]
  next beyond =>
    have high := @toNat_toUInt16 (0xd800 + (point - 0x10000) / 0x400) (by omega)
    have low := @toNat_toUInt16 (0xdc00 + (point - 0x10000) % 0x400) (by omega)
    have pair : (isHighSurrogate (0xd800 + (point - 0x10000) / 0x400).toUInt16 &&
        isLowSurrogate (0xdc00 + (point - 0x10000) % 0x400).toUInt16) = true := by
      simp only [isHighSurrogate, isLowSurrogate, Bool.and_eq_true, decide_eq_true_eq, UInt16.le_iff_toNat_le,
        UInt16.lt_iff_toNat_lt, UInt16.reduceToNat, high, low]
      omega
    have joined : 0x10000 + (0xd800 + (point - 0x10000) / 0x400 - 0xd800) * 0x400 +
        (0xdc00 + (point - 0x10000) % 0x400 - 0xdc00) = point := by omega
    rw [List.cons_append, List.singleton_append, codePoints, if_pos pair, high, low, joined]

theorem codePoints_units {points : List Nat} (scalars : ∀ point ∈ points, IsScalar point) :
    codePoints (points.flatMap unitsOf) = points := by
  induction points with
  | nil => rfl
  | cons point rest ih =>
    rw [List.flatMap_cons, codePoints_unitsOf (scalars point List.mem_cons_self),
      ih fun other isIn => scalars other (List.mem_cons_of_mem _ isIn)]

def adjustedUnits (value : JsString) : List Nat := value.map fun unit => (adjustUtf16Unit unit).toNat

theorem compare_toNat (left right : UInt16) : compare left right = compare left.toNat right.toNat := by
  rw [UInt16.compare_eq_toNat_compare_toNat]

theorem compareCodePoints_adjusted (left right : JsString) :
    compareCodePoints left right = List.compareLex compare (adjustedUnits left) (adjustedUnits right) := by
  induction left generalizing right with
  | nil => cases right <;> rfl
  | cons unit units ih =>
    cases right with
    | nil => rfl
    | cons other others =>
      rw [compareCodePoints_eq, List.compareLex_cons_cons, ← compareCodePoints_eq, ih, compare_toNat]
      exact List.compareLex_cons_cons.symm

theorem adjusted_toNat (unit : UInt16) : (adjustUtf16Unit unit).toNat =
    if unit.toNat < 0xd800 then unit.toNat else if unit.toNat < 0xe000 then unit.toNat + 0x2000
    else unit.toNat - 0x800 := by
  have bound := unit.toNat_lt
  simp only [adjustUtf16Unit, UInt16.lt_iff_toNat_lt, UInt16.reduceToNat]
  split
  · rfl
  · split
    · simp only [UInt16.toNat_add, UInt16.reduceToNat]
      omega
    · simp only [UInt16.toNat_sub, UInt16.reduceToNat]
      omega

theorem adjustedUnits_unitsOf {point : Nat} (scalar : IsScalar point) : adjustedUnits (unitsOf point) =
    if point < 0xd800 then [point] else if point < 0x10000 then [point - 0x800]
    else [0xf800 + (point - 0x10000) / 0x400, 0xfc00 + (point - 0x10000) % 0x400] := by
  obtain ⟨bound, notSurrogate⟩ := scalar
  rw [IsSurrogate] at notSurrogate
  rw [unitsOf, adjustedUnits]
  by_cases basic : point < 0x10000
  · rw [if_pos basic, List.map_singleton, adjusted_toNat, toNat_toUInt16 basic]
    split
    · rfl
    · rw [if_neg (by omega)]
  · rw [if_neg basic, List.map_cons, List.map_singleton, adjusted_toNat, adjusted_toNat, toNat_toUInt16 (by omega),
      toNat_toUInt16 (by omega), if_neg (by omega), if_pos (by omega), if_neg (by omega), if_pos (by omega),
      if_neg (by omega), if_neg basic]
    exact two_eq (by omega) (by omega)

theorem adjustedUnits_separated : Codes.Separated IsScalar fun point => adjustedUnits (unitsOf point) where
  nonempty point scalar := by
    rw [adjustedUnits_unitsOf scalar]
    split
    · exact List.cons_ne_nil _ _
    · split <;> exact List.cons_ne_nil _ _
  parts a b scalarA scalarB below := by
    rw [adjustedUnits_unitsOf scalarA, adjustedUnits_unitsOf scalarB]
    have notSurrogate := scalarA.2
    have notSurrogate' := scalarB.2
    rw [IsSurrogate] at notSurrogate notSurrogate'
    have boundB := scalarB.1
    by_cases beyondA : a < 0x10000
    · by_cases beyondB : b < 0x10000
      · refine ⟨[], if a < 0xd800 then a else a - 0x800, if b < 0xd800 then b else b - 0x800, [], [], ?_, ?_, ?_⟩
        · rw [if_pos beyondA]; split <;> rfl
        · rw [if_pos beyondB]; split <;> rfl
        · split <;> split <;> omega
      · refine ⟨[], if a < 0xd800 then a else a - 0x800, 0xf800 + (b - 0x10000) / 0x400, [],
          [0xfc00 + (b - 0x10000) % 0x400], ?_, ?_, ?_⟩
        · rw [if_pos beyondA]; split <;> rfl
        · rw [if_neg (by omega), if_neg beyondB]; rfl
        · split <;> omega
    · rw [if_neg (by omega), if_neg beyondA, if_neg (by omega), if_neg (by omega)]
      -- Two pairs part at the high halves, or where these are the same at the low ones.
      by_cases sameHigh : (a - 0x10000) / 0x400 = (b - 0x10000) / 0x400
      · exact ⟨[0xf800 + (a - 0x10000) / 0x400], _, _, [], [], rfl, by rw [sameHigh]; rfl, by omega⟩
      · exact ⟨[], _, _, _, _, rfl, rfl, by omega⟩

theorem adjustedUnits_eq (value : JsString) :
    adjustedUnits value = (codePoints value).flatMap fun point => adjustedUnits (unitsOf point) := by
  conv_lhs => rw [← units_codePoints value]
  rw [adjustedUnits, List.map_flatMap]
  rfl

theorem compareCodePoints_points {left right : JsString} (wellFormed : WellFormed left) (wellFormed' : WellFormed right) :
    compareCodePoints left right = List.compareLex compare (codePoints left) (codePoints right) := by
  rw [compareCodePoints_adjusted, adjustedUnits_eq, adjustedUnits_eq right,
    adjustedUnits_separated.compareLex wellFormed wellFormed']

def REPLACEMENT_CHARACTER : UInt16 := 0xfffd

def replacedUnit (unit : UInt16) : UInt16 := if unit < 0xd800 || 0xe000 ≤ unit then unit else REPLACEMENT_CHARACTER

/-- The units before the first unpaired surrogate, which the source keeps as they are, come out
the same from its loop. -/
def withUnpairedSurrogatesReplaced : JsString → JsString
  | [] => []
  | [unit] => [replacedUnit unit]
  | unit :: low :: rest =>
    if isHighSurrogate unit && isLowSurrogate low then unit :: low :: withUnpairedSurrogatesReplaced rest
    else replacedUnit unit :: withUnpairedSurrogatesReplaced (low :: rest)

def replacedPoint (codePoint : Nat) : Nat := if IsSurrogate codePoint then 0xfffd else codePoint

theorem replacedPoint_scalar {point : Nat} (bound : point < 0x110000) : IsScalar (replacedPoint point) := by
  rw [replacedPoint]
  split
  · decide
  next notSurrogate => exact ⟨bound, notSurrogate⟩

theorem replacedUnit_point (unit : UInt16) : [replacedUnit unit] = unitsOf (replacedPoint unit.toNat) := by
  have bound := unit.toNat_lt
  have kept : (unit < 0xd800 || 0xe000 ≤ unit : Bool) = true ↔ ¬ IsSurrogate unit.toNat := by
    simp only [Bool.or_eq_true, decide_eq_true_eq, UInt16.le_iff_toNat_le, UInt16.lt_iff_toNat_lt,
      UInt16.reduceToNat, IsSurrogate]
    omega
  rw [replacedUnit, replacedPoint]
  by_cases surrogate : IsSurrogate unit.toNat
  · rw [if_pos surrogate, if_neg fun isKept => kept.mp isKept surrogate]
    rfl
  · rw [if_neg surrogate, if_pos (kept.mpr surrogate), unitsOf_unit]

theorem replaced_eq (value : JsString) :
    withUnpairedSurrogatesReplaced value = ((codePoints value).map replacedPoint).flatMap unitsOf := by
  induction value using codePoints.induct with
  | case1 => rfl
  | case2 unit =>
    rw [withUnpairedSurrogatesReplaced, codePoints, List.map_singleton, List.flatMap_singleton, replacedUnit_point]
  | case3 unit low rest pair ih =>
    have bounds := pair_bounds pair
    rw [withUnpairedSurrogatesReplaced, codePoints, if_pos pair, if_pos pair, List.map_cons, List.flatMap_cons, ← ih,
      replacedPoint, if_neg (fun surrogate => by rw [IsSurrogate] at surrogate; omega), unitsOf_pair pair]
    rfl
  | case4 unit low rest single ih =>
    rw [withUnpairedSurrogatesReplaced, codePoints, if_neg single, if_neg single, List.map_cons, List.flatMap_cons, ← ih,
      ← replacedUnit_point]
    rfl

theorem codePoints_replaced (value : JsString) :
    codePoints (withUnpairedSurrogatesReplaced value) = (codePoints value).map replacedPoint := by
  rw [replaced_eq, codePoints_units]
  intro point isIn
  obtain ⟨before, isBefore, rfl⟩ := List.mem_map.mp isIn
  exact replacedPoint_scalar (codePoints_lt value before isBefore)

theorem replaced_wellFormed (value : JsString) : WellFormed (withUnpairedSurrogatesReplaced value) := by
  intro point isIn
  rw [codePoints_replaced] at isIn
  obtain ⟨before, isBefore, rfl⟩ := List.mem_map.mp isIn
  exact replacedPoint_scalar (codePoints_lt value before isBefore)

theorem replaced_eq_self {value : JsString} (wellFormed : WellFormed value) :
    withUnpairedSurrogatesReplaced value = value := by
  rw [replaced_eq]
  conv_rhs => rw [← units_codePoints value]
  congr 1
  refine (List.map_congr_left fun point isIn => ?_).trans (List.map_id _)
  rw [replacedPoint, if_neg (wellFormed point isIn).2]
  rfl

end Narsil.Ordering

/-!
## UTF-8

The bytes of well-formed strings compare as their code points do, one string begins another
exactly where its bytes do, and a string is read back from its bytes.
-/
namespace Narsil.Ordering

open Narsil.Cursor

def byteNumbers (bytes : Bytes) : List Nat := bytes.map UInt8.toNat

theorem byteNumbers_cons {value : Nat} (fits : value < 0x100) (rest : Bytes) :
    byteNumbers (value.toUInt8 :: rest) = value :: byteNumbers rest := by
  rw [byteNumbers, List.map_cons, Nat.toUInt8_eq, UInt8.toNat_ofNat', Nat.mod_eq_of_lt fits, ← byteNumbers]

theorem utf8Bytes_numbers {point : Nat} (scalar : IsScalar point) : byteNumbers (utf8Bytes point) =
    if point < 0x80 then [point]
    else if point < 0x800 then [0xc0 + point / 64, 0x80 + point % 64]
    else if point < 0x10000 then [0xe0 + point / 4096, 0x80 + point / 64 % 64, 0x80 + point % 64]
    else [0xf0 + point / 262144, 0x80 + point / 4096 % 64, 0x80 + point / 64 % 64, 0x80 + point % 64] := by
  obtain ⟨bound, notSurrogate⟩ := scalar
  rw [IsSurrogate] at notSurrogate
  have shift6 : point >>> 6 = point / 64 := Nat.shiftRight_eq_div_pow point 6
  have shift12 : point >>> 12 = point / 4096 := Nat.shiftRight_eq_div_pow point 12
  have shift18 : point >>> 18 = point / 262144 := Nat.shiftRight_eq_div_pow point 18
  rw [utf8Bytes, shift6, shift12, shift18]
  split
  next => exact byteNumbers_cons (by omega) _
  next =>
    split
    next => rw [byteNumbers_cons (by omega), byteNumbers_cons (by omega)]; rfl
    next =>
      split
      next =>
        rw [byteNumbers_cons (by omega), byteNumbers_cons (by omega), byteNumbers_cons (by omega)]
        rfl
      next =>
        rw [byteNumbers_cons (by omega), byteNumbers_cons (by omega), byteNumbers_cons (by omega),
          byteNumbers_cons (by omega)]
        rfl

theorem utf8_nonempty (point : Nat) : utf8Bytes point ≠ [] := by
  rw [utf8Bytes]
  repeat' split
  all_goals exact List.cons_ne_nil _ _

theorem utf8_separated : Codes.Separated IsScalar fun point => byteNumbers (utf8Bytes point) where
  nonempty point _ := fun empty => utf8_nonempty point (List.map_eq_nil_iff.mp empty)
  parts a b scalarA scalarB below := by
    rw [utf8Bytes_numbers scalarA, utf8Bytes_numbers scalarB]
    have boundB := scalarB.1
    by_cases oneB : b < 0x80
    · rw [if_pos (show a < 0x80 by omega), if_pos oneB]
      exact ⟨[], a, b, [], [], rfl, rfl, below⟩
    by_cases oneA : a < 0x80
    · rw [if_pos oneA, if_neg oneB]
      refine ⟨[], a, (if b < 0x800 then 0xc0 + b / 64 else if b < 0x10000 then 0xe0 + b / 4096
        else 0xf0 + b / 262144), [], (if b < 0x800 then [0x80 + b % 64] else if b < 0x10000 then
        [0x80 + b / 64 % 64, 0x80 + b % 64] else [0x80 + b / 4096 % 64, 0x80 + b / 64 % 64, 0x80 + b % 64]),
        rfl, ?_, ?_⟩
      · split
        · rfl
        · split <;> rfl
      · split
        · omega
        · split <;> omega
    rw [if_neg oneA, if_neg oneB]
    by_cases twoB : b < 0x800
    · rw [if_pos (show a < 0x800 by omega), if_pos twoB]
      by_cases lead : a / 64 = b / 64
      · exact ⟨[0xc0 + a / 64], _, _, [], [], rfl, by rw [lead]; rfl, by omega⟩
      · exact ⟨[], _, _, _, _, rfl, rfl, by omega⟩
    by_cases twoA : a < 0x800
    · rw [if_pos twoA, if_neg twoB]
      split
      · exact ⟨[], _, _, _, _, rfl, rfl, by omega⟩
      · exact ⟨[], _, _, _, _, rfl, rfl, by omega⟩
    rw [if_neg twoA, if_neg twoB]
    by_cases threeB : b < 0x10000
    · rw [if_pos (show a < 0x10000 by omega), if_pos threeB]
      by_cases lead : a / 4096 = b / 4096
      · by_cases second : a / 64 % 64 = b / 64 % 64
        · exact ⟨[0xe0 + a / 4096, 0x80 + a / 64 % 64], _, _, [], [], rfl, by rw [lead, second]; rfl, by omega⟩
        · exact ⟨[0xe0 + a / 4096], _, _, _, _, rfl, by rw [lead]; rfl, by omega⟩
      · exact ⟨[], _, _, _, _, rfl, rfl, by omega⟩
    by_cases threeA : a < 0x10000
    · rw [if_pos threeA, if_neg threeB]
      exact ⟨[], _, _, _, _, rfl, rfl, by omega⟩
    rw [if_neg threeA, if_neg threeB]
    by_cases lead : a / 262144 = b / 262144
    · by_cases second : a / 4096 % 64 = b / 4096 % 64
      · by_cases third : a / 64 % 64 = b / 64 % 64
        · exact ⟨[0xf0 + a / 262144, 0x80 + a / 4096 % 64, 0x80 + a / 64 % 64], _, _, [], [], rfl,
            by rw [lead, second, third]; rfl, by omega⟩
        · exact ⟨[0xf0 + a / 262144, 0x80 + a / 4096 % 64], _, _, _, _, rfl, by rw [lead, second]; rfl, by omega⟩
      · exact ⟨[0xf0 + a / 262144], _, _, _, _, rfl, by rw [lead]; rfl, by omega⟩
    · exact ⟨[], _, _, _, _, rfl, rfl, by omega⟩

theorem encodeUtf8_numbers (value : JsString) :
    byteNumbers (encodeUtf8 value) = (codePoints value).flatMap fun point => byteNumbers (utf8Bytes point) :=
  List.map_flatMap

theorem encodeUtf8_replaced (value : JsString) :
    encodeUtf8 (withUnpairedSurrogatesReplaced value) = encodeUtf8 value := by
  rw [encodeUtf8, codePoints_replaced, List.flatMap_map, encodeUtf8]
  refine List.flatMap_congr fun point _ => ?_
  rw [replacedPoint]
  split
  next surrogate =>
    rw [IsSurrogate] at surrogate
    have replacement : utf8Bytes point = [0xef, 0xbf, 0xbd] := by
      rw [utf8Bytes, if_neg (by omega), if_neg (by omega), if_pos surrogate]
    rw [replacement]
    rfl
  next => rfl

section Encoded
variable {left right : JsString} (wellFormed : WellFormed left) (wellFormed' : WellFormed right)
include wellFormed wellFormed'

theorem compare_encoded :
    List.compareLex compare (byteNumbers (encodeUtf8 left)) (byteNumbers (encodeUtf8 right)) =
      compareCodePoints left right := by
  rw [encodeUtf8_numbers, encodeUtf8_numbers, Codes.Separated.compareLex utf8_separated wellFormed wellFormed',
    compareCodePoints_points wellFormed wellFormed']

theorem encodeUtf8_inj : encodeUtf8 left = encodeUtf8 right ↔ left = right := by
  refine ⟨fun same => ?_, fun same => by rw [same]⟩
  have numbers := congrArg byteNumbers same
  rw [encodeUtf8_numbers, encodeUtf8_numbers] at numbers
  rw [← units_codePoints left, ← units_codePoints right,
    Codes.Separated.injective utf8_separated wellFormed wellFormed' numbers]

theorem codePoints_starts : codePoints left <+: codePoints right ↔ left <+: right := by
  refine Iff.trans (Codes.Separated.prefix_iff adjustedUnits_separated wellFormed wellFormed').symm ?_
  rw [← adjustedUnits_eq, ← adjustedUnits_eq, adjustedUnits, adjustedUnits,
    List.prefix_map_iff_of_injective]
  exact fun unit other same => adjustUtf16Unit_inj (UInt16.toNat_inj.mp same)

theorem encodeUtf8_starts : encodeUtf8 left <+: encodeUtf8 right ↔ left <+: right := by
  rw [← codePoints_starts wellFormed wellFormed', ← Codes.Separated.prefix_iff utf8_separated wellFormed wellFormed',
    ← encodeUtf8_numbers, ← encodeUtf8_numbers, byteNumbers, byteNumbers, List.prefix_map_iff_of_injective]
  exact fun byte other same => UInt8.toNat_inj.mp same

end Encoded

/-- A code point whose bytes are being read: how many are missing, and the bounds of the next. -/
structure Decoding where
  needed : Nat
  point : Nat
  lower : Nat
  upper : Nat

inductive Lead
  | point (codePoint : Nat)
  | more (decoding : Decoding)
  | invalid

def leadOf (byte : Nat) : Lead :=
  if byte < 0x80 then .point byte
  else if 0xc2 ≤ byte ∧ byte ≤ 0xdf then .more ⟨1, byte % 32, 0x80, 0xbf⟩
  else if 0xe0 ≤ byte ∧ byte ≤ 0xef then
    .more ⟨2, byte % 16, if byte = 0xe0 then 0xa0 else 0x80, if byte = 0xed then 0x9f else 0xbf⟩
  else if 0xf0 ≤ byte ∧ byte ≤ 0xf4 then
    .more ⟨3, byte % 8, if byte = 0xf0 then 0x90 else 0x80, if byte = 0xf4 then 0x8f else 0xbf⟩
  else .invalid

def fromLead (byte : Nat) (later : Option Decoding → List Nat) : List Nat :=
  match leadOf byte with
  | .point codePoint => codePoint :: later none
  | .more decoding => later (some decoding)
  | .invalid => 0xfffd :: later none

/-- The code points of bytes, with a replacement character for what is none. -/
def decodePoints : Option Decoding → List Nat → List Nat
  | none, [] => []
  | some _, [] => [0xfffd]
  | none, byte :: bytes => fromLead byte fun decoding => decodePoints decoding bytes
  | some decoding, byte :: bytes =>
    if decoding.lower ≤ byte ∧ byte ≤ decoding.upper then
      let point := decoding.point * 64 + byte % 64
      if decoding.needed = 1 then point :: decodePoints none bytes
      else decodePoints (some ⟨decoding.needed - 1, point, 0x80, 0xbf⟩) bytes
    else 0xfffd :: fromLead byte fun decoding => decodePoints decoding bytes

def BYTE_ORDER_MARK : UInt16 := 0xfeff

/-- `TextDecoder` leaves out a byte order mark in front. -/
def decodeText (bytes : Bytes) : JsString :=
  let shown := if [0xef, 0xbb, 0xbf].isPrefixOf bytes then bytes.drop 3 else bytes
  (decodePoints none (byteNumbers shown)).flatMap unitsOf

section Decode
variable {needed point lower upper byte : Nat} {bytes : List Nat}

theorem decodePoints_more (isNext : lower ≤ byte ∧ byte ≤ upper) (several : needed ≠ 1) :
    decodePoints (some ⟨needed, point, lower, upper⟩) (byte :: bytes) =
      decodePoints (some ⟨needed - 1, point * 64 + byte % 64, 0x80, 0xbf⟩) bytes := by
  rw [decodePoints, if_pos isNext]
  exact if_neg several

theorem decodePoints_last (isNext : lower ≤ byte ∧ byte ≤ upper) :
    decodePoints (some ⟨1, point, lower, upper⟩) (byte :: bytes) =
      (point * 64 + byte % 64) :: decodePoints none bytes := by
  rw [decodePoints, if_pos isNext]
  rfl

theorem decodePoints_lead {decoding : Decoding} (lead : leadOf byte = .more decoding) :
    decodePoints none (byte :: bytes) = decodePoints (some decoding) bytes := by
  rw [decodePoints, fromLead, lead]

theorem leadOf_two (two : 0xc2 ≤ byte ∧ byte ≤ 0xdf) : leadOf byte = .more ⟨1, byte % 32, 0x80, 0xbf⟩ := by
  rw [leadOf, if_neg (by omega), if_pos two]

theorem leadOf_three (three : 0xe0 ≤ byte ∧ byte ≤ 0xef) : leadOf byte =
    .more ⟨2, byte % 16, if byte = 0xe0 then 0xa0 else 0x80, if byte = 0xed then 0x9f else 0xbf⟩ := by
  rw [leadOf, if_neg (by omega), if_neg (by omega), if_pos three]

theorem leadOf_four (four : 0xf0 ≤ byte ∧ byte ≤ 0xf4) : leadOf byte =
    .more ⟨3, byte % 8, if byte = 0xf0 then 0x90 else 0x80, if byte = 0xf4 then 0x8f else 0xbf⟩ := by
  rw [leadOf, if_neg (by omega), if_neg (by omega), if_neg (by omega), if_pos four]

theorem decodePoints_scalar (scalar : IsScalar point) (bytes : List Nat) :
    decodePoints none (byteNumbers (utf8Bytes point) ++ bytes) = point :: decodePoints none bytes := by
  rw [utf8Bytes_numbers scalar]
  obtain ⟨bound, notSurrogate⟩ := scalar
  rw [IsSurrogate] at notSurrogate
  by_cases one : point < 0x80
  · rw [if_pos one, List.singleton_append, decodePoints, fromLead, leadOf, if_pos one]
  by_cases two : point < 0x800
  · rw [if_neg one, if_pos two, List.cons_append, List.singleton_append, decodePoints_lead (leadOf_two (by omega)),
      decodePoints_last (by omega)]
    refine congrArg (· :: decodePoints none bytes) ?_
    omega
  by_cases three : point < 0x10000
  · -- The bounds of the second byte keep out long forms and surrogates.
    rw [if_neg one, if_neg two, if_pos three, List.cons_append, List.cons_append, List.singleton_append,
      decodePoints_lead (leadOf_three (by omega)), decodePoints_more (by split <;> split <;> omega) (by decide),
      decodePoints_last (by omega)]
    refine congrArg (· :: decodePoints none bytes) ?_
    omega
  · rw [if_neg one, if_neg two, if_neg three, List.cons_append, List.cons_append, List.cons_append,
      List.singleton_append, decodePoints_lead (leadOf_four (by omega)),
      decodePoints_more (by split <;> split <;> omega) (by decide), decodePoints_more (by omega) (by decide),
      decodePoints_last (by omega)]
    refine congrArg (· :: decodePoints none bytes) ?_
    omega

end Decode

theorem decodePoints_encoded {points : List Nat} (scalars : ∀ point ∈ points, IsScalar point) :
    decodePoints none (points.flatMap fun point => byteNumbers (utf8Bytes point)) = points := by
  induction points with
  | nil => rfl
  | cons point points ih =>
    rw [List.flatMap_cons, decodePoints_scalar (scalars point List.mem_cons_self),
      ih fun other isIn => scalars other (List.mem_cons_of_mem _ isIn)]

theorem mark_wellFormed : WellFormed [BYTE_ORDER_MARK] := by decide

theorem decodePoints_string {value : JsString} (wellFormed : WellFormed value) :
    (decodePoints none (byteNumbers (encodeUtf8 value))).flatMap unitsOf = value := by
  rw [encodeUtf8_numbers, decodePoints_encoded wellFormed, units_codePoints]

theorem codePoints_mark (value : JsString) :
    codePoints (BYTE_ORDER_MARK :: value) = 0xfeff :: codePoints value :=
  @codePoints_unitsOf 0xfeff (by decide) value

theorem decodeText_encoded {value : JsString} (wellFormed : WellFormed value) : decodeText (encodeUtf8 value) =
    if value.head? = some BYTE_ORDER_MARK then value.drop 1 else value := by
  have marked : [0xef, 0xbb, 0xbf].isPrefixOf (encodeUtf8 value) = true ↔ value.head? = some BYTE_ORDER_MARK := by
    rw [List.isPrefixOf_iff_prefix]
    refine Iff.trans (encodeUtf8_starts mark_wellFormed wellFormed) ?_
    cases value with
    | nil => exact iff_of_false (by simp) nofun
    | cons unit rest =>
      rw [List.cons_prefix_cons, List.head?_cons, Option.some.injEq]
      exact ⟨fun both => both.1.symm, fun same => ⟨same.symm, List.nil_prefix⟩⟩
  rw [decodeText]
  by_cases isMark : value.head? = some BYTE_ORDER_MARK
  · cases value with
    | nil => cases isMark
    | cons unit rest =>
      obtain rfl := Option.some.inj isMark
      have points := codePoints_mark rest
      have rest_wellFormed : WellFormed rest := fun point isIn =>
        wellFormed point (points ▸ List.mem_cons_of_mem _ isIn)
      have bytes : encodeUtf8 (BYTE_ORDER_MARK :: rest) = [0xef, 0xbb, 0xbf] ++ encodeUtf8 rest := by
        rw [encodeUtf8, points]
        rfl
      simp only [if_pos (marked.mpr isMark), if_pos isMark]
      rw [bytes]
      exact decodePoints_string rest_wellFormed
  · simp only [if_neg fun starts => isMark (marked.mp starts), if_neg isMark]
    exact decodePoints_string wellFormed

end Narsil.Ordering
