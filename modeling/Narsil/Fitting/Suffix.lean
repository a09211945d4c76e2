import Mathlib.Algebra.BigOperators.Group.List.Basic
import Mathlib.Algebra.GroupWithZero.Nat
import Mathlib.Data.List.Infix

/-!
# The longest back part that fits

What a list keeps that forgets its oldest members until the sizes of the rest are within a
limit.
-/
namespace Fitting

variable {α : Type} {size : α → Nat} {limit : Nat} {all kept : List α}

structure Longest (size : α → Nat) (limit : Nat) (all kept : List α) : Prop where
  suffix : kept <:+ all
  fits : (kept.map size).sum ≤ limit
  longest : ∀ other, other <:+ all → (other.map size).sum ≤ limit → other <:+ kept

theorem Longest.whole (fits : (all.map size).sum ≤ limit) : Longest size limit all all :=
  ⟨List.suffix_rfl, fits, fun _ suffix _ => suffix⟩

/-- What is too large with its first member keeps what the rest keeps. -/
theorem Longest.forget {first : α} {rest : List α} (exceeds : limit < ((first :: rest).map size).sum)
    (of_rest : Longest size limit rest kept) : Longest size limit (first :: rest) kept := by
  refine ⟨of_rest.suffix.trans (List.suffix_cons first rest), of_rest.fits, ?_⟩
  intro other suffix fits
  rcases List.suffix_cons_iff.mp suffix with rfl | shorter
  · exact absurd fits (Nat.not_le.mpr exceeds)
  · exact of_rest.longest other shorter fits

/-- Nothing forgotten earlier would fit beside a new member. -/
theorem Longest.push {new : α} {left : List α} (before : Longest size limit all kept)
    (after : Longest size limit (kept ++ [new]) left) : Longest size limit (all ++ [new]) left := by
  have grown : ∀ {front back : List α}, front <:+ back → front ++ [new] <:+ back ++ [new] := by
    rintro front back ⟨more, rfl⟩
    exact ⟨more, by rw [List.append_assoc]⟩
  refine ⟨after.suffix.trans (grown before.suffix), after.fits, ?_⟩
  intro other suffix fits
  apply after.longest other _ fits
  rcases List.eq_nil_or_concat other with rfl | ⟨front, last, rfl⟩
  · exact List.nil_suffix
  · rw [List.concat_eq_append] at suffix fits ⊢
    obtain ⟨more, whole⟩ := suffix
    rw [← List.append_assoc] at whole
    obtain ⟨same, rfl⟩ := List.append_singleton_inj.mp whole
    rw [List.map_append, List.sum_append] at fits
    exact grown (before.longest front ⟨more, same⟩ (by omega))

end Fitting
