import Mathlib.Data.List.Basic
import Mathlib.Order.MinMax

/-!
# Edits and the edit distance

A list is edited by keeping, changing, deleting and inserting single elements. The
distance is the least number of edits that are not keeps.
-/
namespace Edits

variable {α : Type*}

/-- The right list comes of the left by that many edits. -/
inductive Edited : Nat → List α → List α → Prop
  | nil : Edited 0 [] []
  | keep {count : Nat} {left right : List α} (x : α) (rest : Edited count left right) :
      Edited count (x :: left) (x :: right)
  | substitute {count : Nat} {left right : List α} (x y : α) (rest : Edited count left right) :
      Edited (count + 1) (x :: left) (y :: right)
  | delete {count : Nat} {left right : List α} (x : α) (rest : Edited count left right) :
      Edited (count + 1) (x :: left) right
  | insert {count : Nat} {left right : List α} (y : α) (rest : Edited count left right) :
      Edited (count + 1) left (y :: right)

namespace Edited

theorem refl (list : List α) : Edited 0 list list := by
  induction list with
  | nil => exact nil
  | cons x rest ih => exact ih.keep x

theorem inserted (right : List α) : Edited right.length [] right := by
  induction right with
  | nil => exact nil
  | cons y rest ih => exact ih.insert y

theorem deleted (left : List α) : Edited left.length left [] := by
  induction left with
  | nil => exact nil
  | cons x rest ih => exact ih.delete x

theorem append {count more : Nat} {left right left' right' : List α}
    (first : Edited count left right) (second : Edited more left' right') :
    Edited (count + more) (left ++ left') (right ++ right') := by
  induction first with
  | nil => simpa using second
  | keep x _ ih => exact ih.keep x
  | substitute x y _ ih => exact Nat.add_right_comm _ 1 _ ▸ ih.substitute x y
  | delete x _ ih => exact Nat.add_right_comm _ 1 _ ▸ ih.delete x
  | insert y _ ih => exact Nat.add_right_comm _ 1 _ ▸ ih.insert y

theorem reverse {count : Nat} {left right : List α} (edited : Edited count left right) :
    Edited count left.reverse right.reverse := by
  induction edited with
  | nil => exact nil
  | keep x _ ih => simpa using ih.append (refl [x])
  | substitute x y _ ih => simpa using ih.append (nil.substitute x y)
  | delete x _ ih => simpa using ih.append (nil.delete x)
  | insert y _ ih => simpa using ih.append (nil.insert y)

theorem length_le {count : Nat} {left right : List α} (edited : Edited count left right) :
    left.length ≤ right.length + count ∧ right.length ≤ left.length + count := by
  induction edited with
  | nil => simp
  | keep x _ ih | substitute x y _ ih | delete x _ ih | insert y _ ih =>
    simp only [List.length_cons]
    omega

end Edited

section Distance
variable [DecidableEq α]

def editDistance : List α → List α → Nat
  | [], right => right.length
  | x :: left, [] => (x :: left).length
  | x :: left, y :: right =>
    min (min (editDistance left (y :: right) + 1) (editDistance (x :: left) right + 1))
      (editDistance left right + if x = y then 0 else 1)
termination_by left right => left.length + right.length

theorem edited_editDistance (left right : List α) : Edited (editDistance left right) left right := by
  induction left, right using editDistance.induct with
  | case1 right =>
    rw [editDistance]
    exact Edited.inserted right
  | case2 x left =>
    rw [editDistance]
    exact Edited.deleted (x :: left)
  | case3 x left y right by_delete by_insert by_both =>
    rw [editDistance]
    have both : Edited (editDistance left right + if x = y then 0 else 1) (x :: left) (y :: right) := by
      split
      · next same => exact same ▸ by_both.keep x
      · exact by_both.substitute x y
    rcases min_choice (min (editDistance left (y :: right) + 1) (editDistance (x :: left) right + 1))
      (editDistance left right + if x = y then 0 else 1) with least | least
    · rw [least]
      rcases min_choice (editDistance left (y :: right) + 1) (editDistance (x :: left) right + 1)
        with least | least
      · rw [least]
        exact by_delete.delete x
      · rw [least]
        exact by_insert.insert y
    · rw [least]
      exact both

theorem editDistance_nil_right (left : List α) : editDistance left [] = left.length := by
  cases left with
  | nil => rw [editDistance]
  | cons x left => rw [editDistance]

theorem editDistance_cons_left_le (x : α) (left right : List α) :
    editDistance (x :: left) right ≤ editDistance left right + 1 := by
  cases right with
  | nil =>
    rw [editDistance_nil_right, editDistance_nil_right]
    exact Nat.le_refl _
  | cons y right =>
    rw [editDistance.eq_3]
    omega

theorem editDistance_cons_right_le (y : α) (left right : List α) :
    editDistance left (y :: right) ≤ editDistance left right + 1 := by
  cases left with
  | nil =>
    rw [editDistance, editDistance]
    exact Nat.le_refl _
  | cons x left =>
    rw [editDistance.eq_3]
    omega

theorem Edited.editDistance_le {count : Nat} {left right : List α} (edited : Edited count left right) :
    editDistance left right ≤ count := by
  induction edited with
  | nil =>
    rw [editDistance]
    exact Nat.le_refl _
  | keep x _ ih =>
    rw [editDistance, if_pos rfl]
    omega
  | @substitute count left right x y _ ih =>
    rw [editDistance]
    have cost : (if x = y then 0 else 1) ≤ 1 := by split <;> omega
    omega
  | delete x _ ih => exact Nat.le_trans (editDistance_cons_left_le x _ _) (Nat.succ_le_succ ih)
  | insert y _ ih => exact Nat.le_trans (editDistance_cons_right_le y _ _) (Nat.succ_le_succ ih)

theorem editDistance_reverse (left right : List α) :
    editDistance left.reverse right.reverse = editDistance left right := by
  apply Nat.le_antisymm
  · exact (edited_editDistance left right).reverse.editDistance_le
  · have back := (edited_editDistance left.reverse right.reverse).reverse
    rw [List.reverse_reverse, List.reverse_reverse] at back
    exact back.editDistance_le

theorem length_le_editDistance (left right : List α) :
    left.length ≤ right.length + editDistance left right ∧
      right.length ≤ left.length + editDistance left right :=
  (edited_editDistance left right).length_le

theorem editDistance_concat (left right : List α) (x y : α) :
    editDistance (left ++ [x]) (right ++ [y]) =
      min (min (editDistance left (right ++ [y]) + 1) (editDistance (left ++ [x]) right + 1))
        (editDistance left right + if x = y then 0 else 1) := by
  rw [← editDistance_reverse, ← editDistance_reverse left (right ++ [y]),
    ← editDistance_reverse (left ++ [x]) right, ← editDistance_reverse left right]
  simp only [List.reverse_append, List.reverse_singleton, List.singleton_append]
  rw [editDistance]

variable {a b : List α}

def prefixDistance (a b : List α) (i j : Nat) : Nat := editDistance (a.take i) (b.take j)

theorem prefixDistance_full : prefixDistance a b a.length b.length = editDistance a b := by
  rw [prefixDistance, List.take_length, List.take_length]

theorem prefixDistance_zero_left {j : Nat} (within : j ≤ b.length) : prefixDistance a b 0 j = j := by
  rw [prefixDistance, List.take_zero, editDistance, List.length_take_of_le within]

theorem prefixDistance_zero_right {i : Nat} (within : i ≤ a.length) : prefixDistance a b i 0 = i := by
  rw [prefixDistance, List.take_zero, editDistance_nil_right, List.length_take_of_le within]

theorem prefixDistance_succ {i j : Nat} (left : i < a.length) (right : j < b.length) :
    prefixDistance a b (i + 1) (j + 1) =
      min (min (prefixDistance a b i (j + 1) + 1) (prefixDistance a b (i + 1) j + 1))
        (prefixDistance a b i j + if a[i]? = b[j]? then 0 else 1) := by
  simp only [prefixDistance, List.take_succ_eq_append_getElem left,
    List.take_succ_eq_append_getElem right]
  rw [editDistance_concat, List.getElem?_eq_getElem left, List.getElem?_eq_getElem right]
  simp only [Option.some.injEq]

theorem le_prefixDistance {i j : Nat} (left : i ≤ a.length) (right : j ≤ b.length) :
    i ≤ j + prefixDistance a b i j ∧ j ≤ i + prefixDistance a b i j := by
  have lengths := length_le_editDistance (a.take i) (b.take j)
  rwa [List.length_take_of_le left, List.length_take_of_le right] at lengths

theorem prefixDistance_past_succ {i bound : Nat} (left : i < a.length)
    (row : ∀ j ≤ b.length, bound < prefixDistance a b i j) :
    ∀ j ≤ b.length, bound < prefixDistance a b (i + 1) j := by
  intro j within
  induction j with
  | zero =>
    have before := row 0 within
    rw [prefixDistance_zero_right (Nat.le_of_lt left)] at before
    rw [prefixDistance_zero_right left]
    omega
  | succ j ih =>
    have above := row (j + 1) within
    have beside := ih (by omega)
    have corner := row j (by omega)
    rw [prefixDistance_succ left within]
    omega

theorem prefixDistance_past {i later bound : Nat} (row : ∀ j ≤ b.length, bound < prefixDistance a b i j)
    (after : i ≤ later) (within : later ≤ a.length) :
    ∀ j ≤ b.length, bound < prefixDistance a b later j := by
  induction later, after using Nat.le_induction with
  | base => exact row
  | succ later _ ih => exact prefixDistance_past_succ within (ih (by omega))

end Distance

end Edits
