import Mathlib.Data.List.Basic

/-!
# Comparing strings

A string is its UTF-16 units, well formed or not. Identifiers are compared by code
points; sort values by their case folds, and by code points where the folds agree.
-/
namespace Narsil.Ordering

/-- A string, unit by unit. -/
abbrev JsString := List UInt16

instance lawfulBEq_jsString : LawfulBEq JsString := inferInstance

/-- A string of ASCII characters. -/
def ascii (text : String) : JsString := text.toList.map fun character => character.toNat.toUInt16

def isHighSurrogate (unit : UInt16) : Bool := 0xd800 ≤ unit && unit < 0xdc00

def isLowSurrogate (unit : UInt16) : Bool := 0xdc00 ≤ unit && unit < 0xe000

def adjustUtf16Unit (unit : UInt16) : UInt16 :=
  if unit < 0xd800 then unit else if unit < 0xe000 then unit + 0x2000 else unit - 0x800

/-- The first differing units decide, and a prefix comes before its extensions. -/
def compareCodePoints : JsString → JsString → Ordering
  | [], [] => .eq
  | [], _ :: _ => .lt
  | _ :: _, [] => .gt
  | left :: lefts, right :: rights =>
    if left = right then compareCodePoints lefts rights
    else compare (adjustUtf16Unit left) (adjustUtf16Unit right)

theorem adjustUtf16Unit_inj {left right : UInt16} (same : adjustUtf16Unit left = adjustUtf16Unit right) :
    left = right := by
  unfold adjustUtf16Unit at same
  rw [← UInt16.toNat_inj] at same ⊢
  have hl := left.toNat_lt
  have hr := right.toNat_lt
  split_ifs at same with l1 l2 r1 r2 r1 r2 <;>
    simp only [UInt16.lt_iff_toNat_lt, UInt16.toNat_add, UInt16.toNat_sub, UInt16.reduceToNat] at * <;> omega

instance : Std.LawfulEqCmp fun left right => compare (adjustUtf16Unit left) (adjustUtf16Unit right) where
  compare_self := Std.ReflOrd.compare_self
  eq_of_compare equal := adjustUtf16Unit_inj (Std.LawfulEqOrd.eq_of_compare equal)

instance : Std.TransCmp fun left right => compare (adjustUtf16Unit left) (adjustUtf16Unit right) where
  eq_swap := Std.OrientedOrd.eq_swap
  isLE_trans := Std.TransOrd.isLE_trans

theorem compareCodePoints_eq : compareCodePoints =
    List.compareLex fun left right => compare (adjustUtf16Unit left) (adjustUtf16Unit right) := by
  funext left right
  induction left generalizing right with
  | nil => cases right <;> rfl
  | cons unit units ih =>
    cases right with
    | nil => rfl
    | cons other others =>
      rw [compareCodePoints, List.compareLex_cons_cons, ih]
      by_cases same : unit = other
      · rw [if_pos same, same, Std.ReflOrd.compare_self]
        rfl
      · rw [if_neg same]
        cases order : compare (adjustUtf16Unit unit) (adjustUtf16Unit other) with
        | eq => exact absurd (adjustUtf16Unit_inj (Std.LawfulEqOrd.eq_of_compare order)) same
        | lt => rfl
        | gt => rfl

instance : Std.TransCmp compareCodePoints := by
  rw [compareCodePoints_eq]
  infer_instance

instance : Std.LawfulEqCmp compareCodePoints := by
  rw [compareCodePoints_eq]
  infer_instance

/-- The code points of a string; a surrogate without its pair stands for itself. -/
def codePoints : JsString → List Nat
  | [] => []
  | [unit] => [unit.toNat]
  | unit :: low :: rest =>
    if isHighSurrogate unit && isLowSurrogate low then
      (0x10000 + (unit.toNat - 0xd800) * 0x400 + (low.toNat - 0xdc00)) :: codePoints rest
    else unit.toNat :: codePoints (low :: rest)

def exceedsFrom (maximum : Nat) : JsString → Nat → Bool
  | [], _ => false
  | [_], counted => maximum < counted + 1
  | unit :: low :: rest, counted =>
    if maximum < counted + 1 then true
    else if isHighSurrogate unit && isLowSurrogate low then exceedsFrom maximum rest (counted + 1)
    else exceedsFrom maximum (low :: rest) (counted + 1)

def exceedsCodePoints (value : JsString) (maximum : Nat) : Bool :=
  if value.length ≤ maximum then false else exceedsFrom maximum value 0

/-- The units of the first code points. -/
def takeCodePoints : Nat → JsString → JsString
  | 0, _ => []
  | _ + 1, [] => []
  | _ + 1, [unit] => [unit]
  | count + 1, unit :: low :: rest =>
    if isHighSurrogate unit && isLowSurrogate low then unit :: low :: takeCodePoints count rest
    else unit :: takeCodePoints count (low :: rest)

def SORT_VALUE_MAX_CODE_POINTS : Nat := 512

def truncateSortString (value : JsString) : JsString :=
  if value.length ≤ SORT_VALUE_MAX_CODE_POINTS then value
  else takeCodePoints SORT_VALUE_MAX_CODE_POINTS value

theorem codePoints_length_le (value : JsString) : (codePoints value).length ≤ value.length := by
  induction value using codePoints.induct with
  | case1 => simp [codePoints]
  | case2 unit => simp [codePoints]
  | case3 unit low rest pair ih => simp [codePoints, pair]; omega
  | case4 unit low rest single ih =>
    rw [codePoints, if_neg single, List.length_cons, List.length_cons]
    exact Nat.succ_le_succ ih

theorem exceedsFrom_eq (maximum : Nat) (value : JsString) (counted : Nat) (fits : counted ≤ maximum) :
    exceedsFrom maximum value counted = decide (maximum < counted + (codePoints value).length) := by
  induction value using codePoints.induct generalizing counted with
  | case1 => exact (decide_eq_false (Nat.not_lt.mpr fits)).symm
  | case2 unit => simp [exceedsFrom, codePoints]
  | case3 unit low rest pair ih =>
    rw [exceedsFrom, codePoints, if_pos pair, if_pos pair]
    split
    · simp; omega
    · rw [ih (counted + 1) (by omega), List.length_cons, Nat.add_right_comm, Nat.add_assoc]
  | case4 unit low rest single ih =>
    rw [exceedsFrom, codePoints, if_neg single, if_neg single]
    split
    · simp; omega
    · rw [ih (counted + 1) (by omega), List.length_cons, Nat.add_right_comm, Nat.add_assoc]

theorem exceedsCodePoints_eq (value : JsString) (maximum : Nat) :
    exceedsCodePoints value maximum = decide (maximum < (codePoints value).length) := by
  rw [exceedsCodePoints]
  split
  · have := codePoints_length_le value
    simp; omega
  · rw [exceedsFrom_eq maximum value 0 (Nat.zero_le _), Nat.zero_add]

theorem codePoints_takeCodePoints (count : Nat) (value : JsString) :
    codePoints (takeCodePoints count value) = (codePoints value).take count := by
  induction value using codePoints.induct generalizing count with
  | case1 => cases count <;> simp [takeCodePoints, codePoints]
  | case2 unit => cases count <;> simp [takeCodePoints, codePoints]
  | case3 unit low rest pair ih =>
    cases count with
    | zero => simp [takeCodePoints, codePoints]
    | succ count => rw [takeCodePoints, if_pos pair, codePoints, codePoints, if_pos pair, if_pos pair,
        ih, List.take_succ_cons]
  | case4 unit low rest single ih =>
    cases count with
    | zero => simp [takeCodePoints, codePoints]
    | succ count =>
      rw [takeCodePoints, if_neg single, codePoints, if_neg single, List.take_succ_cons, ← ih]
      -- What is kept of the rest is empty or begins as the rest does, so no pair is made or cut.
      cases count with
      | zero => simp [takeCodePoints, codePoints]
      | succ count =>
        rcases rest with _ | ⟨next, rest⟩
        · simp [takeCodePoints, codePoints, single]
        · rw [takeCodePoints]
          split <;> rw [codePoints, if_neg single]

theorem truncateSortString_le (value : JsString) :
    (codePoints (truncateSortString value)).length ≤ SORT_VALUE_MAX_CODE_POINTS := by
  rw [truncateSortString]
  split
  next short => exact Nat.le_trans (codePoints_length_le value) short
  next => rw [codePoints_takeCodePoints]; exact List.length_take_le _ _

theorem codePoints_append {front back : JsString}
    (apart : ∀ unit low, front.getLast? = some unit → back.head? = some low →
      ¬(isHighSurrogate unit && isLowSurrogate low)) :
    codePoints (front ++ back) = codePoints front ++ codePoints back := by
  induction front using codePoints.induct with
  | case1 => rfl
  | case2 unit =>
    cases back with
    | nil => simp [codePoints]
    | cons low rest =>
      rw [List.singleton_append]
      conv_lhs => rw [codePoints, if_neg (apart unit low rfl rfl)]
      rfl
  | case3 unit low rest pair ih =>
    rw [List.cons_append, List.cons_append, codePoints, codePoints, if_pos pair, if_pos pair, ih,
      List.cons_append]
    intro last next isLast
    apply apart
    rw [List.getLast?_cons_cons]
    cases rest with
    | nil => cases isLast
    | cons unit rest => rwa [List.getLast?_cons_cons]
  | case4 unit low rest single ih =>
    rw [List.cons_append, List.cons_append, codePoints, codePoints, if_neg single, if_neg single,
      ← List.cons_append, ih, List.cons_append]
    intro last next isLast
    apply apart
    rwa [List.getLast?_cons_cons]

/-- The full case foldings, to one code point and to several. -/
structure FoldTable where
  single : Nat → Option Nat
  multi : Nat → Option (List Nat)

def foldOf (table : FoldTable) (codePoint : Nat) : List Nat :=
  if codePoint < 0x80 then
    [if 0x41 ≤ codePoint ∧ codePoint ≤ 0x5a then codePoint + 0x20 else codePoint]
  else
    match table.single codePoint with
    | some folded => [folded]
    | none => (table.multi codePoint).getD [codePoint]

def foldedCodePoints (table : FoldTable) (value : JsString) : List Nat :=
  (codePoints value).flatMap (foldOf table)

/-- The length of the prefix two strings share. -/
def sharedPrefix : JsString → JsString → Nat
  | left :: lefts, right :: rights => if left = right then sharedPrefix lefts rights + 1 else 0
  | _, _ => 0

/-- Where the folds are compared from: the first differing units, or the high
surrogate before them. -/
def foldStart (left right : JsString) : Nat :=
  match left[sharedPrefix left right - 1]? with
  | some previous =>
    if 0 < sharedPrefix left right && isHighSurrogate previous then sharedPrefix left right - 1
    else sharedPrefix left right
  | none => sharedPrefix left right

/-- The source folds as it compares; the folded code points are the same. -/
def compareCaseFolded (table : FoldTable) (left right : JsString) : Ordering :=
  if sharedPrefix left right = left.length ∧ sharedPrefix left right = right.length then .eq
  else List.compareLex compare (foldedCodePoints table (left.drop (foldStart left right)))
    (foldedCodePoints table (right.drop (foldStart left right)))

def compareSortStrings (table : FoldTable) (left right : JsString) : Ordering :=
  (compareCaseFolded table left right).then (compareCodePoints left right)

section Folds
variable {table : FoldTable} {left right : JsString}

theorem sharedPrefix_take (left right : JsString) :
    left.take (sharedPrefix left right) = right.take (sharedPrefix left right) := by
  fun_induction sharedPrefix left right with
  | case1 lefts unit rights ih => rw [List.take_succ_cons, List.take_succ_cons, ih]
  | case2 => rfl
  | case3 => rfl

theorem sharedPrefix_le_left (left right : JsString) : sharedPrefix left right ≤ left.length := by
  fun_induction sharedPrefix left right <;> simp_all

theorem foldStart_le : foldStart left right ≤ sharedPrefix left right := by
  rw [foldStart]
  split
  · split <;> omega
  · exact Nat.le_refl _

theorem foldStart_cases (left right : JsString) :
    (foldStart left right < sharedPrefix left right ∧
      ∃ previous, left[foldStart left right]? = some previous ∧ isHighSurrogate previous) ∨
    (foldStart left right = sharedPrefix left right ∧ ∀ previous, 0 < sharedPrefix left right →
      left[sharedPrefix left right - 1]? = some previous → isHighSurrogate previous = false) := by
  rw [foldStart]
  split
  next previous found =>
    split
    next high =>
      rw [Bool.and_eq_true, decide_eq_true_eq] at high
      exact .inl ⟨by omega, previous, found, high.2⟩
    next low =>
      refine .inr ⟨rfl, fun other positive again => ?_⟩
      rw [found] at again
      cases again
      simpa [positive] using low
  next missing =>
    refine .inr ⟨rfl, fun other _ again => ?_⟩
    rw [missing] at again
    cases again

theorem foldStart_apart {value : JsString}
    (shared : value.take (sharedPrefix left right) = left.take (sharedPrefix left right))
    {unit low : UInt16} (last : (value.take (foldStart left right)).getLast? = some unit)
    (next : (value.drop (foldStart left right)).head? = some low) :
    ¬(isHighSurrogate unit && isLowSurrogate low) := by
  have sameAt (at_ : Nat) (inside : at_ < sharedPrefix left right) : value[at_]? = left[at_]? := by
    have same := congrArg (fun units => units[at_]?) shared
    simpa [List.getElem?_take_of_lt inside] using same
  rw [List.head?_drop] at next
  rcases foldStart_cases left right with ⟨inside, previous, found, high⟩ | ⟨here, notHigh⟩
  · rw [sameAt _ inside, found] at next
    cases next
    -- A high surrogate is no low one.
    simp only [isHighSurrogate, isLowSurrogate, Bool.and_eq_true, decide_eq_true_eq,
      UInt16.le_iff_toNat_le, UInt16.lt_iff_toNat_lt, UInt16.reduceToNat] at high ⊢
    omega
  · rw [here, List.getLast?_take] at last
    split at last
    next => cases last
    next positive =>
      have fits := sharedPrefix_le_left left right
      rw [sameAt _ (by omega), List.getElem?_eq_getElem (by omega), Option.some_or] at last
      have := notHigh unit (by omega) (by rw [List.getElem?_eq_getElem (by omega)]; exact last)
      simp [this]

theorem foldedCodePoints_drop (value : JsString)
    (shared : value.take (sharedPrefix left right) = left.take (sharedPrefix left right)) :
    foldedCodePoints table value = foldedCodePoints table (left.take (foldStart left right)) ++
      foldedCodePoints table (value.drop (foldStart left right)) := by
  have front := congrArg (List.take (foldStart left right)) shared
  rw [List.take_take, List.take_take, Nat.min_eq_left foldStart_le] at front
  rw [foldedCodePoints, foldedCodePoints, foldedCodePoints, ← List.flatMap_append, ← front,
    ← codePoints_append, List.take_append_drop]
  intro unit low last next
  exact foldStart_apart shared last next

theorem compareLex_append {shared lefts rights : List Nat} :
    List.compareLex compare (shared ++ lefts) (shared ++ rights) = List.compareLex compare lefts rights := by
  induction shared with
  | nil => rfl
  | cons point points ih =>
    rw [List.cons_append, List.cons_append, List.compareLex_cons_cons, Std.ReflOrd.compare_self, ih]
    rfl

theorem compareCaseFolded_eq : compareCaseFolded table left right =
    List.compareLex compare (foldedCodePoints table left) (foldedCodePoints table right) := by
  have shared := sharedPrefix_take left right
  rw [compareCaseFolded]
  split
  next whole =>
    rw [List.take_of_length_le (Nat.le_of_eq whole.1.symm),
      List.take_of_length_le (Nat.le_of_eq whole.2.symm)] at shared
    rw [shared]
    exact Std.ReflCmp.compare_self.symm
  next =>
    rw [foldedCodePoints_drop left rfl, foldedCodePoints_drop right shared.symm,
      compareLex_append]

end Folds

instance (table : FoldTable) : Std.TransCmp (compareCaseFolded table) := by
  have same : compareCaseFolded table = compareOn (foldedCodePoints table) := by
    funext left right
    exact compareCaseFolded_eq
  rw [same]
  infer_instance

instance (table : FoldTable) : Std.TransCmp (compareSortStrings table) :=
  inferInstanceAs (Std.TransCmp (compareLex (compareCaseFolded table) compareCodePoints))

end Narsil.Ordering
