import Mathlib.Data.List.Basic
import Mathlib.Order.Lattice

/-!
# Separated codes

A code writes each letter as a word. Where the words of two letters part at a lower and a
higher symbol, as the letters do, the code of a text orders texts as its letters do, and one
text begins another exactly where its code begins the other's.
-/
namespace Codes

variable {α β : Type*} [LinearOrder α] [LinearOrder β]

/-- The words part at symbols in the order of the letters. -/
def Parts (left right : List β) : Prop :=
  ∃ shared x y leftRest rightRest, left = shared ++ x :: leftRest ∧ right = shared ++ y :: rightRest ∧ x < y

structure Separated (letter : α → Prop) (code : α → List β) : Prop where
  parts : ∀ a b, letter a → letter b → a < b → Parts (code a) (code b)
  nonempty : ∀ a, letter a → code a ≠ []

variable {letter : α → Prop} {code : α → List β} {left right : List α}

theorem compareLex_append (shared left right : List β) :
    List.compareLex compare (shared ++ left) (shared ++ right) = List.compareLex compare left right := by
  induction shared with
  | nil => rfl
  | cons x rest ih =>
    rw [List.cons_append, List.cons_append, List.compareLex_cons_cons, compare_eq_iff_eq.mpr rfl, ih]
    rfl

theorem Parts.compareLex {left right : List β} (parts : Parts left right) (leftMore rightMore : List β) :
    List.compareLex compare (left ++ leftMore) (right ++ rightMore) = .lt ∧
      List.compareLex compare (right ++ rightMore) (left ++ leftMore) = .gt := by
  obtain ⟨shared, x, y, leftRest, rightRest, rfl, rfl, below⟩ := parts
  rw [List.append_assoc, List.append_assoc, compareLex_append, compareLex_append, List.cons_append, List.cons_append,
    List.compareLex_cons_cons, List.compareLex_cons_cons, compare_lt_iff_lt.mpr below, compare_gt_iff_gt.mpr below]
  exact ⟨rfl, rfl⟩

theorem Parts.not_starts {left right : List β} (parts : Parts left right) (leftMore rightMore : List β) :
    ¬ left ++ leftMore <+: right ++ rightMore ∧ ¬ right ++ rightMore <+: left ++ leftMore := by
  obtain ⟨shared, x, y, leftRest, rightRest, rfl, rfl, below⟩ := parts
  rw [List.append_assoc, List.append_assoc, List.prefix_append_right_inj, List.prefix_append_right_inj,
    List.cons_append, List.cons_append, List.cons_prefix_cons, List.cons_prefix_cons]
  exact ⟨fun same => absurd same.1 (ne_of_lt below), fun same => absurd same.1 (ne_of_gt below)⟩

theorem Separated.compareLex (separated : Separated letter code) (left_letters : ∀ a ∈ left, letter a)
    (right_letters : ∀ a ∈ right, letter a) :
    List.compareLex compare (left.flatMap code) (right.flatMap code) = List.compareLex compare left right := by
  induction left generalizing right with
  | nil =>
    cases right with
    | nil => rfl
    | cons b right =>
      cases word : code b with
      | nil => exact absurd word (separated.nonempty b (right_letters b List.mem_cons_self))
      | cons y rest =>
        rw [List.flatMap_cons, word]
        rfl
  | cons a left ih =>
    have isLetter := left_letters a List.mem_cons_self
    cases right with
    | nil =>
      cases word : code a with
      | nil => exact absurd word (separated.nonempty a isLetter)
      | cons x rest =>
        rw [List.flatMap_cons, word]
        rfl
    | cons b right =>
      have isLetter' := right_letters b List.mem_cons_self
      rw [List.flatMap_cons, List.flatMap_cons, List.compareLex_cons_cons]
      rcases lt_trichotomy a b with below | same | above
      · rw [((separated.parts a b isLetter isLetter' below).compareLex _ _).1, compare_lt_iff_lt.mpr below]
        rfl
      · rw [same, compareLex_append, compare_eq_iff_eq.mpr rfl]
        exact ih (fun c isIn => left_letters c (List.mem_cons_of_mem _ isIn))
          fun c isIn => right_letters c (List.mem_cons_of_mem _ isIn)
      · rw [((separated.parts b a isLetter' isLetter above).compareLex _ _).2, compare_gt_iff_gt.mpr above]
        rfl

theorem Separated.prefix_iff (separated : Separated letter code) (left_letters : ∀ a ∈ left, letter a)
    (right_letters : ∀ a ∈ right, letter a) : left.flatMap code <+: right.flatMap code ↔ left <+: right := by
  induction left generalizing right with
  | nil => exact iff_of_true List.nil_prefix List.nil_prefix
  | cons a left ih =>
    have isLetter := left_letters a List.mem_cons_self
    cases right with
    | nil =>
      rw [List.flatMap_nil, List.prefix_nil, List.flatMap_cons, List.append_eq_nil_iff, List.prefix_nil]
      exact iff_of_false (fun both => separated.nonempty a isLetter both.1) (List.cons_ne_nil _ _)
    | cons b right =>
      have isLetter' := right_letters b List.mem_cons_self
      rw [List.flatMap_cons, List.flatMap_cons, List.cons_prefix_cons]
      rcases lt_trichotomy a b with below | same | above
      · exact iff_of_false ((separated.parts a b isLetter isLetter' below).not_starts _ _).1
          fun both => ne_of_lt below both.1
      · subst same
        rw [List.prefix_append_right_inj, ih (fun c isIn => left_letters c (List.mem_cons_of_mem _ isIn))
          fun c isIn => right_letters c (List.mem_cons_of_mem _ isIn)]
        exact (and_iff_right rfl).symm
      · exact iff_of_false ((separated.parts b a isLetter' isLetter above).not_starts _ _).2
          fun both => ne_of_gt above both.1

theorem Separated.injective (separated : Separated letter code) (left_letters : ∀ a ∈ left, letter a)
    (right_letters : ∀ a ∈ right, letter a) (same : left.flatMap code = right.flatMap code) : left = right := by
  have front := (separated.prefix_iff left_letters right_letters).mp (same ▸ List.prefix_refl _)
  have back := (separated.prefix_iff right_letters left_letters).mp (same ▸ List.prefix_refl _)
  exact front.eq_of_length (Nat.le_antisymm front.length_le back.length_le)

end Codes
