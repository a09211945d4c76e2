import Narsil.Fuzzy.BandedDistance
import Narsil.Ordering.Strings

/-!
# The distance of two strings

Strings without surrogates are compared unit by unit, and the others by their code points.
A cell of the table is at most one past the tolerance and at most the longer length.
-/
namespace Narsil.Fuzzy

open Edits Narsil.Ordering

def FIRST_SURROGATE : UInt16 := 0xd800
def LAST_SURROGATE : UInt16 := 0xdfff

def hasSurrogate (text : JsString) : Bool := text.any fun unit => FIRST_SURROGATE ≤ unit && unit ≤ LAST_SURROGATE

/-- `tabulatedLevenshtein` as it is called: on strings. -/
def tabulatedStrings (a b : JsString) (tolerance : Int) : FuzzyMatch :=
  if tolerance < 0 then ⟨-1, false, 0⟩
  else if hasSurrogate a || hasSurrogate b then bandedDistance (codePoints a) (codePoints b) tolerance.toNat
  else bandedDistance (a.map UInt16.toNat) (b.map UInt16.toNat) tolerance.toNat

def boundedLevenshtein (a b : JsString) (tolerance : Int) : FuzzyMatch :=
  if tolerance < 0 then ⟨-1, false, 0⟩
  else if a = b then ⟨0, true, 0⟩
  else tabulatedStrings a b tolerance

theorem codePoints_of_no_surrogate {text : JsString} (none : hasSurrogate text = false) :
    codePoints text = text.map UInt16.toNat := by
  induction text using codePoints.induct with
  | case1 => rfl
  | case2 unit => rfl
  | case3 unit low rest pair ih =>
    rw [hasSurrogate, List.any_cons, Bool.or_eq_false_iff] at none
    have single := none.1
    simp only [isHighSurrogate, isLowSurrogate, FIRST_SURROGATE, LAST_SURROGATE, Bool.and_eq_true,
      Bool.and_eq_false_iff, decide_eq_true_eq, decide_eq_false_iff_not, UInt16.le_iff_toNat_le,
      UInt16.lt_iff_toNat_lt, UInt16.reduceToNat] at pair single
    omega
  | case4 unit low rest single ih =>
    rw [hasSurrogate, List.any_cons, Bool.or_eq_false_iff] at none
    rw [codePoints, if_neg single, ih none.2]
    rfl

theorem tabulatedStrings_eq (a b : JsString) (tolerance : Int) :
    tabulatedStrings a b tolerance = tabulatedLevenshtein (codePoints a) (codePoints b) tolerance := by
  rw [tabulatedStrings, tabulatedLevenshtein]
  split
  · rfl
  · cases surrogates : hasSurrogate a || hasSurrogate b with
    | true => rfl
    | false =>
      obtain ⟨left, right⟩ := Bool.or_eq_false_iff.mp surrogates
      rw [codePoints_of_no_surrogate left, codePoints_of_no_surrogate right]
      rfl

/-- The match is within the tolerance just when the distance of the code points is, and then
    reports it. -/
theorem boundedLevenshtein_exact (a b : JsString) (tolerance : Nat) :
    ((boundedLevenshtein a b tolerance).withinTolerance = true ↔
        editDistance (codePoints a) (codePoints b) ≤ tolerance) ∧
      ((boundedLevenshtein a b tolerance).withinTolerance = true →
        (boundedLevenshtein a b tolerance).distance = editDistance (codePoints a) (codePoints b)) := by
  have not_negative : ¬ (tolerance : Int) < 0 := Int.not_lt.mpr (Int.natCast_nonneg tolerance)
  rw [boundedLevenshtein, if_neg not_negative]
  by_cases same : a = b
  · subst same
    have equal : editDistance (codePoints a) (codePoints a) = 0 :=
      Nat.le_zero.mp (Edited.refl (codePoints a)).editDistance_le
    rw [if_pos rfl, equal]
    exact ⟨⟨fun _ => Nat.zero_le _, fun _ => rfl⟩, fun _ => rfl⟩
  · rw [if_neg same, tabulatedStrings_eq, tabulatedLevenshtein, if_neg not_negative, Int.toNat_natCast]
    obtain ⟨distance, within⟩ := bandedDistance_answers (codePoints a) (codePoints b) tolerance
    refine ⟨within, fun found => ?_⟩
    rw [distance, Nat.min_eq_left (Nat.le_succ_of_le (within.mp found))]

end Narsil.Fuzzy
