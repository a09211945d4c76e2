import Mathlib.Data.Nat.Digits.Lemmas

/-!
# Decimal digits

A number written with the highest digit first, and the value of such a list of digits.
-/
namespace Decimal

def value (digits : List ℕ) : ℕ := Nat.ofDigits 10 digits.reverse

/-- The digits of a number, without zeros in front; 0 is a digit of its own. -/
def digits (n : ℕ) : List ℕ := if n = 0 then [0] else (Nat.digits 10 n).reverse

/-- Every member is a decimal digit. -/
def IsDigits (digits : List ℕ) : Prop := ∀ digit ∈ digits, digit < 10

/-- No zero in front, other than the zero that stands for 0. -/
def Canonical (digits : List ℕ) : Prop := digits = [0] ∨ ∃ first rest, digits = first :: rest ∧ first ≠ 0

@[simp] theorem value_nil : value [] = 0 := rfl

theorem value_append (front back : List ℕ) :
    value (front ++ back) = value front * 10 ^ back.length + value back := by
  rw [value, List.reverse_append, Nat.ofDigits_append, List.length_reverse, ← value, ← value]
  ring

theorem value_cons (digit : ℕ) (rest : List ℕ) :
    value (digit :: rest) = digit * 10 ^ rest.length + value rest := by
  rw [← List.singleton_append, value_append]
  simp [value]

@[simp] theorem value_replicate_zero (count : ℕ) : value (List.replicate count 0) = 0 := by
  induction count with
  | zero => rfl
  | succ count ih => rw [List.replicate_succ, value_cons, ih, Nat.zero_mul]

theorem value_lt {digits : List ℕ} (decimal : IsDigits digits) : value digits < 10 ^ digits.length := by
  rw [value, ← List.length_reverse]
  exact Nat.ofDigits_lt_base_pow_length (by omega) fun digit member =>
    decimal digit (List.mem_reverse.mp member)

@[simp] theorem value_digits (n : ℕ) : value (digits n) = n := by
  rw [digits]
  split
  next zero => rw [zero]; rfl
  · rw [value, List.reverse_reverse, Nat.ofDigits_digits]

theorem digits_isDigits (n : ℕ) : IsDigits (digits n) := by
  intro digit member
  rw [digits] at member
  split at member
  · rw [List.mem_singleton.mp member]
    omega
  · exact Nat.digits_lt_base (by omega) (List.mem_reverse.mp member)

theorem digits_canonical (n : ℕ) : Canonical (digits n) := by
  rw [digits]
  split
  · exact .inl rfl
  next nonzero =>
    right
    have some_digits : Nat.digits 10 n ≠ [] := Nat.digits_ne_nil_iff_ne_zero.mpr nonzero
    cases shape : (Nat.digits 10 n).reverse with
    | nil => exact absurd (List.reverse_eq_nil_iff.mp shape) some_digits
    | cons first rest =>
      refine ⟨first, rest, rfl, ?_⟩
      have last := Nat.getLast_digit_ne_zero 10 nonzero
      have head : (Nat.digits 10 n).getLast some_digits = first := by
        rw [List.getLast_eq_head_reverse]
        simp only [shape, List.head_cons]
      rwa [head] at last

theorem Canonical.ne_nil {digits : List ℕ} (canonical : Canonical digits) : digits ≠ [] := by
  rcases canonical with rfl | ⟨first, rest, rfl, -⟩ <;> simp

theorem value_inj {left right : List ℕ} (decimal : IsDigits left) (decimal' : IsDigits right)
    (same : left.length = right.length) (equal : value left = value right) : left = right := by
  rw [← List.reverse_inj]
  refine Nat.ofDigits_inj_of_len_eq (by omega) (by simpa using same) ?_ ?_ equal
  · exact fun digit isIn => decimal digit (List.mem_reverse.mp isIn)
  · exact fun digit isIn => decimal' digit (List.mem_reverse.mp isIn)

theorem length_digits_le_iff (n k : ℕ) : (digits n).length ≤ k + 1 ↔ n < 10 ^ (k + 1) := by
  rw [digits]
  split
  next zero =>
    subst zero
    simp
  · rw [List.length_reverse]
    exact Nat.digits_length_le_iff (by omega) n

theorem length_digits_pos (n : ℕ) : 0 < (digits n).length := List.length_pos_iff.mpr (digits_canonical n).ne_nil

theorem value_replicate_nine (count : ℕ) : value (List.replicate count 9) + 1 = 10 ^ count := by
  induction count with
  | zero => rfl
  | succ count ih =>
    rw [List.replicate_succ, value_cons, List.length_replicate, Nat.pow_succ, ← ih]
    ring

end Decimal
