import Mathlib.Order.Basic
import Mathlib.Data.Nat.Basic

/-!
# Numbers that climb to a fixed point

A number that depends on itself is found by asking for it again until it is what it was asked
with. Where more never gives less and there is a bound, that ends.
-/
namespace Climbing

/-- The number that gives itself, asked for so many times. -/
def settleFrom (next : Nat → Nat) : Nat → Nat → Option Nat
  | 0, _ => none
  | fuel + 1, value => if next value = value then some value else settleFrom next fuel (next value)

variable {next : Nat → Nat} {bound : Nat}

theorem settles (mono : ∀ {low high}, low ≤ high → next low ≤ next high) (bounded : ∀ value, next value ≤ bound)
    {fuel value : Nat} (climbs : value ≤ next value) (enough : bound - value < fuel) :
    ∃ fixed, settleFrom next fuel value = some fixed ∧ next fixed = fixed := by
  induction fuel generalizing value with
  | zero => omega
  | succ fuel ih =>
    rw [settleFrom]
    by_cases same : next value = value
    · exact ⟨value, if_pos same, same⟩
    · have more : value < next value := Nat.lt_of_le_of_ne climbs (Ne.symm same)
      have within := bounded value
      rw [if_neg same]
      exact ih (mono climbs) (by omega)

theorem settleFrom_more {fuel more value fixed : Nat} (found : settleFrom next fuel value = some fixed)
    (enough : fuel ≤ more) : settleFrom next more value = some fixed := by
  induction fuel generalizing more value with
  | zero => cases found
  | succ fuel ih =>
    obtain ⟨more, rfl⟩ := Nat.exists_eq_add_of_le enough
    rw [Nat.add_right_comm, settleFrom]
    rw [settleFrom] at found
    split at found
    · next same => rw [if_pos same, found]
    · next other =>
      rw [if_neg other]
      exact ih found (Nat.le_add_right _ _)

end Climbing
