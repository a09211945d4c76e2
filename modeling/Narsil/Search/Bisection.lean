import Mathlib.Data.List.Basic

/-!
# Bisection

The first position of a list whose element no longer passes a test is found by halving,
where the elements that pass come first.
-/
namespace Search

variable {α : Type*}

/-- The element at a position passes. -/
def passesAt (passes : α → Bool) (values : List α) (position : Nat) : Bool :=
  match values[position]? with
  | none => false
  | some value => passes value

def bisectBetween (passes : α → Bool) (values : List α) : Nat → Nat → Nat → Nat
  | 0, lo, _ => lo
  | fuel + 1, lo, hi =>
    if lo < hi then
      if passesAt passes values ((lo + hi) / 2) then bisectBetween passes values fuel ((lo + hi) / 2 + 1) hi
      else bisectBetween passes values fuel lo ((lo + hi) / 2)
    else lo

/-- The number of elements that come before the first one that does not pass. -/
def bisect (passes : α → Bool) (values : List α) : Nat :=
  bisectBetween passes values values.length 0 values.length

/-- What passes comes first. -/
def Leading (passes : α → Bool) (values : List α) : Prop :=
  values.Pairwise fun earlier later => passes later = true → passes earlier = true

section Bisecting
variable {passes : α → Bool} {values : List α}

theorem Leading.passes_before (leading : Leading passes values) {i j : Nat} {value other : α}
    (at_i : values[i]? = some value) (at_j : values[j]? = some other) (order : i ≤ j)
    (later : passes other = true) : passes value = true := by
  rcases Nat.eq_or_lt_of_le order with rfl | before
  · rw [at_i] at at_j
    exact (Option.some.inj at_j) ▸ later
  · obtain ⟨i_within, rfl⟩ := List.getElem?_eq_some_iff.mp at_i
    obtain ⟨j_within, rfl⟩ := List.getElem?_eq_some_iff.mp at_j
    exact List.pairwise_iff_getElem.mp leading i j i_within j_within before later

theorem bisectBetween_spec (leading : Leading passes values) (fuel lo hi : Nat) (enough : hi - lo ≤ fuel)
    (order : lo ≤ hi) (within : hi ≤ values.length)
    (below : ∀ i value, i < lo → values[i]? = some value → passes value = true)
    (above : ∀ i value, hi ≤ i → values[i]? = some value → passes value = false) :
    bisectBetween passes values fuel lo hi ≤ values.length ∧
      ∀ i value, values[i]? = some value →
        (i < bisectBetween passes values fuel lo hi ↔ passes value = true) := by
  induction fuel generalizing lo hi with
  | zero =>
    obtain rfl : lo = hi := by omega
    refine ⟨within, fun i value here => ⟨fun before => below i value before here, fun pass => ?_⟩⟩
    by_contra after
    rw [above i value (by simpa [bisectBetween] using after) here] at pass
    exact absurd pass (by simp)
  | succ fuel ih =>
    rw [bisectBetween]
    by_cases open_ : lo < hi
    · have mid_within : (lo + hi) / 2 < values.length := by omega
      obtain ⟨middle, at_mid⟩ : ∃ middle, values[(lo + hi) / 2]? = some middle :=
        ⟨_, List.getElem?_eq_getElem mid_within⟩
      have tested : passesAt passes values ((lo + hi) / 2) = passes middle := by simp [passesAt, at_mid]
      rw [if_pos open_, tested]
      cases passed : passes middle with
      | true =>
        rw [if_pos rfl]
        apply ih _ _ (by omega) (by omega) within
        · exact fun i value before here => leading.passes_before here at_mid (by omega) passed
        · exact above
      | false =>
        rw [if_neg (by simp)]
        apply ih _ _ (by omega) (by omega) (by omega) below
        intro i value after here
        by_contra passes_value
        rw [Bool.not_eq_false] at passes_value
        rw [leading.passes_before at_mid here after passes_value] at passed
        exact absurd passed (by simp)
    · obtain rfl : lo = hi := by omega
      rw [if_neg open_]
      refine ⟨within, fun i value here => ⟨fun before => below i value before here, fun pass => ?_⟩⟩
      by_contra after
      rw [above i value (by omega) here] at pass
      exact absurd pass (by simp)

theorem bisect_spec (leading : Leading passes values) :
    bisect passes values ≤ values.length ∧
      ∀ i value, values[i]? = some value → (i < bisect passes values ↔ passes value = true) := by
  apply bisectBetween_spec leading _ _ _ (by omega) (Nat.zero_le _) (Nat.le_refl _)
  · exact fun i value before => absurd before (Nat.not_lt_zero i)
  · intro i value after here
    rw [List.getElem?_eq_none after] at here
    exact absurd here (by simp)

theorem mem_slice {start finish : Nat} {value : α} :
    value ∈ (values.take finish).drop start ↔ ∃ i, start ≤ i ∧ i < finish ∧ values[i]? = some value := by
  rw [List.mem_iff_getElem?]
  constructor
  · rintro ⟨i, here⟩
    rw [List.getElem?_drop, List.getElem?_take] at here
    split at here
    · next within => exact ⟨start + i, by omega, within, here⟩
    · exact absurd here (by simp)
  · rintro ⟨i, after, before, here⟩
    refine ⟨i - start, ?_⟩
    rw [List.getElem?_drop, List.getElem?_take, show start + (i - start) = i by omega, if_pos before]
    exact here

theorem mem_between {passes' : α → Bool} (leading : Leading passes values) (leading' : Leading passes' values)
    {value : α} : value ∈ (values.take (bisect passes' values)).drop (bisect passes values) ↔
      value ∈ values ∧ passes value = false ∧ passes' value = true := by
  rw [mem_slice]
  constructor
  · rintro ⟨i, after, before, here⟩
    refine ⟨List.mem_of_getElem? here, ?_, ((bisect_spec leading').2 i value here).mp before⟩
    rw [← Bool.not_eq_true, ← (bisect_spec leading).2 i value here]
    omega
  · rintro ⟨member, not_passed, passed⟩
    obtain ⟨i, here⟩ := List.mem_iff_getElem?.mp member
    refine ⟨i, ?_, ((bisect_spec leading').2 i value here).mpr passed, here⟩
    rw [← Bool.not_eq_true, ← (bisect_spec leading).2 i value here] at not_passed
    omega

theorem mem_from (leading : Leading passes values) {value : α} :
    value ∈ (values.take values.length).drop (bisect passes values) ↔ value ∈ values ∧ passes value = false := by
  rw [List.take_length]
  constructor
  · intro member
    obtain ⟨i, here⟩ := List.mem_iff_getElem?.mp member
    rw [List.getElem?_drop] at here
    refine ⟨List.mem_of_getElem? here, ?_⟩
    rw [← Bool.not_eq_true, ← (bisect_spec leading).2 _ value here]
    omega
  · rintro ⟨member, not_passed⟩
    obtain ⟨i, here⟩ := List.mem_iff_getElem?.mp member
    rw [← Bool.not_eq_true, ← (bisect_spec leading).2 i value here] at not_passed
    rw [List.mem_iff_getElem?]
    exact ⟨i - bisect passes values, by rw [List.getElem?_drop, ← here]; congr 1; omega⟩

theorem mem_until (leading : Leading passes values) {value : α} :
    value ∈ (values.take (bisect passes values)).drop 0 ↔ value ∈ values ∧ passes value = true := by
  rw [mem_slice]
  constructor
  · rintro ⟨i, _, before, here⟩
    exact ⟨List.mem_of_getElem? here, ((bisect_spec leading).2 i value here).mp before⟩
  · rintro ⟨member, passed⟩
    obtain ⟨i, here⟩ := List.mem_iff_getElem?.mp member
    exact ⟨i, Nat.zero_le i, ((bisect_spec leading).2 i value here).mpr passed, here⟩

end Bisecting

end Search
