import Mathlib.Data.List.Basic

/-!
# Repeating a relation

A relation between positions, applied a counted number of times: what an
expression repeated between two bounds spans.
-/
namespace Spans

variable {α : Type} {r s : α → α → Prop}

def Iterate (r : α → α → Prop) : Nat → α → α → Prop
  | 0, i, j => i = j
  | n + 1, i, k => ∃ j, r i j ∧ Iterate r n j k

/-- Between `min` and `max` times; without a `max`, any number from `min`. -/
def Counted (min : Nat) (max : Option Nat) (r : α → α → Prop) (i j : α) : Prop :=
  ∃ n, min ≤ n ∧ (∀ m, max = some m → n ≤ m) ∧ Iterate r n i j

theorem iterate_one {i j : α} : Iterate r 1 i j ↔ r i j := by
  simp [Iterate]

theorem iterate_add {m n : Nat} {i k : α} :
    Iterate r (m + n) i k ↔ ∃ j, Iterate r m i j ∧ Iterate r n j k := by
  induction m generalizing i with
  | zero => simp [Iterate]
  | succ m ih =>
    rw [Nat.succ_add]
    constructor
    · rintro ⟨mid, first, rest⟩
      obtain ⟨j, left, right⟩ := ih.mp rest
      exact ⟨j, ⟨mid, first, left⟩, right⟩
    · rintro ⟨j, ⟨mid, first, left⟩, right⟩
      exact ⟨mid, first, ih.mpr ⟨j, left, right⟩⟩

theorem iterate_mono (weaker : ∀ i j, r i j → s i j) {n : Nat} {i j : α}
    (h : Iterate r n i j) : Iterate s n i j := by
  induction n generalizing i with
  | zero => exact h
  | succ n ih =>
    obtain ⟨mid, first, rest⟩ := h
    exact ⟨mid, weaker _ _ first, ih rest⟩

theorem counted_congr (same : ∀ i j, r i j ↔ s i j) {min : Nat} {max : Option Nat} {i j : α} :
    Counted min max r i j ↔ Counted min max s i j := by
  constructor
  · rintro ⟨n, low, high, h⟩
    exact ⟨n, low, high, iterate_mono (fun i j => (same i j).mp) h⟩
  · rintro ⟨n, low, high, h⟩
    exact ⟨n, low, high, iterate_mono (fun i j => (same i j).mpr) h⟩

theorem counted_none_of_max_zero {i j : α} : Counted 0 (some 0) r i j ↔ i = j := by
  constructor
  · rintro ⟨n, _, high, h⟩
    obtain rfl : n = 0 := Nat.le_zero.mp (high 0 rfl)
    exact h
  · exact fun h => ⟨0, Nat.le_refl _, by simp, h⟩

theorem counted_once {i j : α} : Counted 1 (some 1) r i j ↔ r i j := by
  constructor
  · rintro ⟨n, low, high, h⟩
    obtain rfl : n = 1 := Nat.le_antisymm (high 1 rfl) low
    exact iterate_one.mp h
  · exact fun h => ⟨1, Nat.le_refl _, by simp, iterate_one.mpr h⟩

theorem counted_exactly {n : Nat} {i j : α} : Counted n (some n) r i j ↔ Iterate r n i j := by
  constructor
  · rintro ⟨m, low, high, h⟩
    obtain rfl : m = n := Nat.le_antisymm (high n rfl) low
    exact h
  · exact fun h => ⟨n, Nat.le_refl n, fun _ same => Nat.le_of_eq (Option.some.inj same), h⟩

theorem counted_max_succ {most : Nat} {i k : α} :
    Counted 0 (some (most + 1)) r i k ↔ (∃ j, r i j ∧ Counted 0 (some most) r j k) ∨ i = k := by
  constructor
  · rintro ⟨n, _, high, h⟩
    have bound := high (most + 1) rfl
    cases n with
    | zero => exact Or.inr h
    | succ n =>
      obtain ⟨j, first, rest⟩ := h
      refine Or.inl ⟨j, first, n, Nat.zero_le _, ?_, rest⟩
      intro m same
      rw [Option.some.injEq] at same
      omega
  · rintro (⟨j, first, n, _, high, rest⟩ | same)
    · have bound := high most rfl
      refine ⟨n + 1, Nat.zero_le _, ?_, j, first, rest⟩
      intro m same
      rw [Option.some.injEq] at same
      omega
    · exact ⟨0, Nat.le_refl _, fun _ _ => Nat.zero_le _, same⟩

theorem iterate_then_counted {least min : Nat} {max : Option Nat} {i k : α} :
    (∃ j, Iterate r least i j ∧ Counted min max r j k) ↔
      Counted (least + min) (max.map fun most => least + most) r i k := by
  constructor
  · rintro ⟨j, left, n, low, high, right⟩
    refine ⟨least + n, by omega, ?_, iterate_add.mpr ⟨j, left, right⟩⟩
    intro m bounded
    obtain ⟨most, is_max, rfl⟩ := Option.map_eq_some_iff.mp bounded
    have bound := high most is_max
    omega
  · rintro ⟨n, low, high, h⟩
    obtain ⟨more, rfl⟩ : ∃ more, n = least + more := ⟨n - least, by omega⟩
    obtain ⟨j, left, right⟩ := iterate_add.mp h
    refine ⟨j, left, more, by omega, ?_, right⟩
    intro m bounded
    have bound := high (least + m) (by rw [bounded]; rfl)
    omega

theorem counted_unbounded_step {min : Nat} {i j k : α} (first : r i j)
    (rest : Counted min none r j k) : Counted (min + 1) none r i k := by
  obtain ⟨n, low, _, h⟩ := rest
  exact ⟨n + 1, by omega, by simp, j, first, h⟩

theorem counted_unbounded_zero {i j : α} (h : Counted 1 none r i j) : Counted 0 none r i j := by
  obtain ⟨n, _, high, h⟩ := h
  exact ⟨n, Nat.zero_le _, high, h⟩

theorem iterate_diagonal (stays : ∀ i j, r i j → i = j) {n : Nat} {i j : α}
    (h : Iterate r n i j) : i = j ∧ (0 < n → r i i) := by
  induction n generalizing i with
  | zero => exact ⟨h, fun absurd_pos => absurd absurd_pos (Nat.lt_irrefl 0)⟩
  | succ n ih =>
    obtain ⟨mid, first, rest⟩ := h
    obtain rfl := stays _ _ first
    exact ⟨(ih rest).1, fun _ => first⟩

theorem counted_diagonal_none (stays : ∀ i j, r i j → i = j) {max : Option Nat} {i j : α} :
    Counted 0 max r i j ↔ i = j := by
  constructor
  · rintro ⟨n, _, _, h⟩
    exact (iterate_diagonal stays h).1
  · exact fun h => ⟨0, Nat.le_refl _, fun _ _ => Nat.zero_le _, h⟩

theorem counted_diagonal (stays : ∀ i j, r i j → i = j) {min : Nat} {max : Option Nat}
    (some_time : 0 < min) (ordered : ∀ m, max = some m → min ≤ m) {i j : α} :
    Counted min max r i j ↔ r i j := by
  constructor
  · rintro ⟨n, low, _, h⟩
    obtain ⟨rfl, held⟩ := iterate_diagonal stays h
    exact held (by omega)
  · intro h
    obtain rfl := stays _ _ h
    refine ⟨min, Nat.le_refl _, ordered, ?_⟩
    have repeated : ∀ n, Iterate r n i i := by
      intro n
      induction n with
      | zero => rfl
      | succ n ih => exact ⟨i, h, ih⟩
    exact repeated min

theorem iterate_counted {min : Nat} {max : Option Nat} {n : Nat} {i j : α}
    (h : Iterate (Counted min max r) n i j) :
    ∃ total, Iterate r total i j ∧ n * min ≤ total ∧ ∀ m, max = some m → total ≤ n * m := by
  induction n generalizing i with
  | zero => exact ⟨0, h, by simp, by simp⟩
  | succ n ih =>
    obtain ⟨mid, ⟨k, low, high, first⟩, rest⟩ := h
    obtain ⟨total, later, low', high'⟩ := ih rest
    refine ⟨k + total, iterate_add.mpr ⟨mid, first, later⟩, ?_, ?_⟩
    · rw [Nat.succ_mul]
      omega
    · intro m bounded
      have first_high := high m bounded
      have later_high := high' m bounded
      rw [Nat.succ_mul]
      omega

/-- Bounds with no lower bound above one and no upper bound but one. -/
def Loose (min : Nat) (max : Option Nat) : Prop := min ≤ 1 ∧ (max = none ∨ max = some 1)

theorem counted_loose_twice {min min' : Nat} {max max' : Option Nat} (outer : Loose min max)
    (inner : Loose min' max') {i j : α} :
    Counted min max (Counted min' max' r) i j ↔
      Counted (if min = 0 ∨ min' = 0 then 0 else 1)
        (if max = none ∨ max' = none then none else some 1) r i j := by
  obtain ⟨low, high⟩ := outer
  obtain ⟨low', high'⟩ := inner
  have once : ∀ i j, r i j → Counted min' max' r i j := by
    intro i j h
    refine ⟨1, low', ?_, iterate_one.mpr h⟩
    rintro m rfl
    rcases high' with h' | h' <;> simp at h'
    omega
  have empty : min' = 0 → ∀ i, Counted min' max' r i i := fun zero i =>
    ⟨0, by omega, fun _ _ => Nat.zero_le _, rfl⟩
  constructor
  · rintro ⟨n, atLeast, atMost, h⟩
    obtain ⟨total, spans, below, above⟩ := iterate_counted h
    refine ⟨total, ?_, ?_, spans⟩
    · split
      · exact Nat.zero_le _
      · next both =>
        rw [not_or] at both
        have one : min = 1 := by omega
        have one' : min' = 1 := by omega
        subst one one'
        omega
    · intro m bounded
      split at bounded
      · simp at bounded
      · next both =>
        rw [not_or] at both
        obtain rfl : 1 = m := by simpa using bounded
        have one := high.resolve_left both.1
        have one' := high'.resolve_left both.2
        have n_le := atMost 1 one
        have total_le := above 1 one'
        omega
  · rintro ⟨total, below, above, spans⟩
    by_cases unboundedInner : max' = none
    · -- one round takes every repetition, or none where there is none to take
      by_cases enough : min' ≤ total
      · refine ⟨1, low, ?_, iterate_one.mpr ⟨total, enough, by simp [unboundedInner], spans⟩⟩
        rintro m rfl
        rcases high with h' | h' <;> simp at h'
        omega
      · have none_taken : total = 0 := by omega
        subst none_taken
        have zero : min = 0 := by
          by_contra some_time
          rw [if_neg (by omega)] at below
          omega
        exact ⟨0, by omega, fun _ _ => Nat.zero_le _, spans⟩
    · have bounded' : max' = some 1 := high'.resolve_left unboundedInner
      -- every repetition is a round of its own
      have rounds : Iterate (Counted min' max' r) total i j := iterate_mono once spans
      by_cases enough : min ≤ total
      · refine ⟨total, enough, ?_, rounds⟩
        intro m bounded
        rcases high with h' | h'
        · simp [h'] at bounded
        · have limit := above 1 (by simp [h', bounded'])
          rw [h', Option.some.injEq] at bounded
          omega
      · have none_taken : total = 0 := by omega
        subst none_taken
        obtain rfl : i = j := spans
        have zero' : min' = 0 := by
          by_contra some_time
          rw [if_neg (by omega)] at below
          omega
        refine ⟨1, low, ?_, iterate_one.mpr (empty zero' i)⟩
        rintro m rfl
        rcases high with h' | h' <;> simp at h'
        omega

end Spans
