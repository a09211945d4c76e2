import Mathlib.Data.List.Sort

/-!
# Lists put in ascending order

Sorting a list only when it is found out of order, and what sorting makes of lists
put together.
-/
namespace Ascending

variable {α : Type} [LinearOrder α]

/-- No value comes after a larger one. -/
def ordered : List α → Bool
  | [] => true
  | [_] => true
  | a :: b :: rest => decide (a ≤ b) && ordered (b :: rest)

def sort (values : List α) : List α := values.insertionSort (· ≤ ·)

/-- Sorted, when they are not in order already. -/
def settle (values : List α) : List α := if ordered values then values else sort values

/-- In ascending order, each value once. -/
def Strict (values : List α) : Prop := values.Pairwise (· < ·)

theorem ordered_iff {values : List α} : ordered values = true ↔ values.Pairwise (· ≤ ·) := by
  induction values with
  | nil => simp [ordered]
  | cons a rest ih =>
    cases rest with
    | nil => simp [ordered]
    | cons b rest =>
      rw [ordered, Bool.and_eq_true, decide_eq_true_eq, ih]
      constructor
      · rintro ⟨first, sorted⟩
        refine List.pairwise_cons.mpr ⟨?_, sorted⟩
        intro c member
        rcases List.mem_cons.mp member with rfl | later
        · exact first
        · exact le_trans first (List.rel_of_pairwise_cons sorted later)
      · intro sorted
        exact ⟨List.rel_of_pairwise_cons sorted (by simp), (List.pairwise_cons.mp sorted).2⟩

theorem sort_perm (values : List α) : (sort values).Perm values := List.perm_insertionSort _ values

theorem sort_sorted (values : List α) : (sort values).Pairwise (· ≤ ·) :=
  List.pairwise_insertionSort _ values

@[simp] theorem mem_sort {values : List α} {a : α} : a ∈ sort values ↔ a ∈ values :=
  (sort_perm values).mem_iff

theorem sort_congr {values others : List α} (same : values.Perm others) : sort values = sort others :=
  (((sort_perm values).trans same).trans (sort_perm others).symm).eq_of_pairwise
    (fun _ _ _ _ => le_antisymm) (sort_sorted values) (sort_sorted others)

theorem perm_of_sort_eq {values others : List α} (same : sort values = sort others) :
    values.Perm others := (sort_perm values).symm.trans (same ▸ sort_perm others)

theorem sort_flatMap_congr {β : Type} {f g : β → List α} {parts : List β}
    (same : ∀ part ∈ parts, sort (f part) = sort (g part)) :
    sort (parts.flatMap f) = sort (parts.flatMap g) := by
  apply sort_congr
  induction parts with
  | nil => exact List.Perm.refl _
  | cons part rest ih =>
    rw [List.flatMap_cons, List.flatMap_cons]
    have first := perm_of_sort_eq (same part (by simp))
    exact first.append (ih fun other member => same other (by simp [member]))

theorem sort_of_sorted {values : List α} (sorted : values.Pairwise (· ≤ ·)) : sort values = values :=
  (sort_perm values).eq_of_pairwise (fun _ _ _ _ => le_antisymm) (sort_sorted values) sorted

theorem settle_eq_sort (values : List α) : settle values = sort values := by
  rw [settle]
  split
  · next in_order => rw [sort_of_sorted (ordered_iff.mp in_order)]
  · rfl

theorem Strict.nodup {values : List α} (h : Strict values) : values.Nodup :=
  List.Pairwise.imp (fun less => ne_of_lt less) h

theorem Strict.sorted {values : List α} (h : Strict values) : values.Pairwise (· ≤ ·) :=
  List.Pairwise.imp (fun less => le_of_lt less) h

theorem sort_strict {values : List α} (distinct : values.Nodup) : Strict (sort values) := by
  have apart : (sort values).Pairwise fun a b => a ≤ b ∧ a ≠ b :=
    (sort_sorted values).and ((sort_perm values).nodup_iff.mpr distinct)
  exact apart.imp fun both => lt_of_le_of_ne both.1 both.2

theorem Strict.eq_of_mem {values others : List α} (h : Strict values) (h' : Strict others)
    (same : ∀ a, a ∈ values ↔ a ∈ others) : values = others := by
  have perm : values.Perm others := (List.perm_ext_iff_of_nodup h.nodup h'.nodup).mpr same
  exact perm.eq_of_pairwise (fun _ _ _ _ => le_antisymm) h.sorted h'.sorted

end Ascending
