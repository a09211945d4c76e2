import Mathlib.Data.List.Perm.Subperm
import Mathlib.Data.List.Sort

/-!
# The first few of a ranking

Rows are ranked by a comparison. A page that takes the rows one by one, and never
grows past its limit, ends with the first rows of the ranking; pages taken so from
the parts of a table, ranked together, begin with the first rows of the whole.
-/
namespace Narsil.Ranking

variable {α : Type*} (cmp : α → α → Ordering)

/-- Each row comes strictly before the rows behind it. -/
def Ranked (rows : List α) : Prop :=
  rows.Pairwise fun first second => cmp first second = .lt

/-- No two rows are equal in rank. -/
def Distinct (rows : List α) : Prop :=
  rows.Pairwise fun first second => cmp first second ≠ .eq

/-- The rows in rank order. -/
def sorted (rows : List α) : List α :=
  rows.mergeSort fun first second => (cmp first second).isLE

/-- One more row into a page, behind those it does not come before. -/
def insertOrdered : List α → α → List α
  | [], entry => [entry]
  | row :: rows, entry =>
    if (cmp row entry).isLE then row :: insertOrdered rows entry else entry :: row :: rows

/-- One more row into a page that keeps to a limit: the last row makes way. -/
def keepSmallest (limit : Nat) (page : List α) (entry : α) : List α :=
  if page.length = limit then
    match page.getLast? with
    | none => page
    | some last =>
      if (cmp entry last).isGE then page else insertOrdered cmp page.dropLast entry
  else insertOrdered cmp page entry

section Sorted
variable {cmp} [Std.TransCmp cmp] {rows other : List α}

theorem Distinct.of_perm (distinct : Distinct cmp rows) (same : rows.Perm other) :
    Distinct cmp other := by
  apply same.pairwise distinct
  intro first second apart equal
  exact apart (Std.OrientedCmp.eq_symm equal)

theorem Distinct.of_subperm (distinct : Distinct cmp other) (fewer : rows.Subperm other) :
    Distinct cmp rows := by
  obtain ⟨kept, same, part⟩ := fewer
  exact Distinct.of_perm (List.Pairwise.sublist part distinct) same

omit [Std.TransCmp cmp] in
theorem Ranked.distinct (ranked : Ranked cmp rows) : Distinct cmp rows :=
  List.Pairwise.imp (fun before equal => by simp [before] at equal) ranked

omit [Std.TransCmp cmp] in
theorem sorted_perm : (sorted cmp rows).Perm rows := List.mergeSort_perm _ _

theorem sorted_ranked (distinct : Distinct cmp rows) : Ranked cmp (sorted cmp rows) := by
  have inOrder : (sorted cmp rows).Pairwise fun first second => (cmp first second).isLE := by
    apply List.pairwise_mergeSort
    · intro first second third before later
      exact Std.TransCmp.isLE_trans before later
    · intro first second
      rw [Bool.or_eq_true, ← Std.OrientedCmp.isGE_eq_isLE (a := first)]
      cases cmp first second <;> decide
  have apart : Distinct cmp (sorted cmp rows) := distinct.of_perm sorted_perm.symm
  apply (inOrder.and apart).imp
  rintro first second ⟨before, unequal⟩
  cases order : cmp first second with
  | lt => rfl
  | eq => exact absurd order unequal
  | gt => rw [order] at before; exact absurd before (by decide)

theorem Ranked.eq_of_perm (ranked : Ranked cmp rows) (same : Ranked cmp other)
    (perm : rows.Perm other) : rows = other := by
  have inOrder : rows.Pairwise fun first second => cmp first second = .lt := ranked
  have inOrder' : other.Pairwise fun first second => cmp first second = .lt := same
  apply List.Perm.eq_of_pairwise _ inOrder inOrder' perm
  intro first second _ _ before after
  have turned := Std.OrientedCmp.gt_of_lt after
  rw [before] at turned
  cases turned

theorem Ranked.sorted_eq (ranked : Ranked cmp rows) : sorted cmp rows = rows :=
  (sorted_ranked ranked.distinct).eq_of_perm ranked sorted_perm

theorem sorted_congr (distinct : Distinct cmp rows) (same : rows.Perm other) :
    sorted cmp rows = sorted cmp other :=
  (sorted_ranked distinct).eq_of_perm (sorted_ranked (distinct.of_perm same))
    (sorted_perm.trans (same.trans sorted_perm.symm))

theorem sorted_filter (distinct : Distinct cmp rows) (keeps : α → Bool) :
    sorted cmp (rows.filter keeps) = (sorted cmp rows).filter keeps := by
  apply Ranked.eq_of_perm (sorted_ranked (List.Pairwise.filter keeps distinct))
  · exact List.Pairwise.filter keeps (sorted_ranked distinct)
  · exact sorted_perm.trans (sorted_perm.symm.filter keeps)

end Sorted

section Insertion
variable {cmp} {rows : List α} {entry : α} {limit : Nat}

theorem insertOrdered_perm : (insertOrdered cmp rows entry).Perm (entry :: rows) := by
  induction rows with
  | nil => exact .refl _
  | cons row rows ih =>
    rw [insertOrdered]
    split
    · exact (ih.cons row).trans (.swap entry row rows)
    · exact .refl _

theorem take_insertOrdered_of_le (room : limit ≤ rows.length)
    (before : ∀ row ∈ rows.take limit, (cmp row entry).isLE) :
    (insertOrdered cmp rows entry).take limit = rows.take limit := by
  induction rows generalizing limit with
  | nil =>
    have none : limit = 0 := by simpa using room
    simp [none]
  | cons row rows ih =>
    cases limit with
    | zero => simp
    | succ limit =>
      have head := before row (by simp)
      rw [insertOrdered, if_pos head, List.take_succ_cons, List.take_succ_cons, ih (by simpa using room)]
      intro later member
      exact before later (by simp [member])

theorem take_insertOrdered_of_lt (room : limit < rows.length)
    (after : ¬(cmp rows[limit] entry).isLE) :
    (insertOrdered cmp rows entry).take (limit + 1) = insertOrdered cmp (rows.take limit) entry := by
  induction rows generalizing limit with
  | nil => exact absurd room (by simp)
  | cons row rows ih =>
    rw [insertOrdered]
    cases limit with
    | zero =>
      have first : ¬(cmp row entry).isLE := by simpa using after
      simp [first, insertOrdered]
    | succ limit =>
      rw [List.take_succ_cons, insertOrdered]
      split
      · rw [List.take_succ_cons, ih (by simpa using room) (by simpa using after)]
      · rw [List.take_succ_cons, List.take_succ_cons]

theorem foldl_keepSmallest_subset (entries page : List α) :
    ∀ entry ∈ entries.foldl (keepSmallest cmp limit) page, entry ∈ page ∨ entry ∈ entries := by
  induction entries generalizing page with
  | nil => exact fun entry member => .inl member
  | cons first entries ih =>
    intro entry member
    rcases ih _ entry member with kept | later
    · have from_ : entry ∈ page ∨ entry = first := by
        rw [keepSmallest] at kept
        split at kept
        · split at kept
          · exact .inl kept
          · split at kept
            · exact .inl kept
            · rcases List.mem_cons.mp (insertOrdered_perm.subset kept) with same | old
              · exact .inr same
              · exact .inl (List.dropLast_subset _ old)
        · rcases List.mem_cons.mp (insertOrdered_perm.subset kept) with same | old
          · exact .inr same
          · exact .inl old
      rcases from_ with old | rfl
      · exact .inl old
      · exact .inr (by simp)
    · exact .inr (by simp [later])

variable [Std.TransCmp cmp]

theorem insertOrdered_ranked (ranked : Ranked cmp rows) (apart : ∀ row ∈ rows, cmp row entry ≠ .eq) :
    Ranked cmp (insertOrdered cmp rows entry) := by
  induction rows with
  | nil => exact List.pairwise_singleton _ _
  | cons row rows ih =>
    obtain ⟨first, rest⟩ := List.pairwise_cons.mp ranked
    have unequal := apart row (by simp)
    rw [insertOrdered]
    split
    next before =>
      have strict : cmp row entry = .lt := by
        cases order : cmp row entry with
        | lt => rfl
        | eq => exact absurd order unequal
        | gt => rw [order] at before; exact absurd before (by decide)
      apply List.pairwise_cons.mpr
      constructor
      · intro later member
        rcases List.mem_cons.mp (insertOrdered_perm.subset member) with same | old
        · rw [same]; exact strict
        · exact first later old
      · exact ih rest fun later member => apart later (by simp [member])
    next after =>
      have turned : cmp entry row = .lt := by
        apply Std.OrientedCmp.lt_of_gt
        cases order : cmp row entry with
        | lt => exact absurd (by simp [order]) after
        | eq => exact absurd order unequal
        | gt => rfl
      apply List.pairwise_cons.mpr
      constructor
      · intro later member
        rcases List.mem_cons.mp member with same | old
        · rw [same]; exact turned
        · exact Std.TransCmp.lt_trans turned (first later old)
      · exact ranked

theorem insertOrdered_sorted (distinct : Distinct cmp (entry :: rows)) :
    insertOrdered cmp (sorted cmp rows) entry = sorted cmp (entry :: rows) := by
  obtain ⟨apart, rest⟩ := List.pairwise_cons.mp distinct
  apply Ranked.eq_of_perm _ (sorted_ranked distinct)
  · exact insertOrdered_perm.trans ((sorted_perm.cons entry).trans sorted_perm.symm)
  · apply insertOrdered_ranked (sorted_ranked rest)
    intro row member equal
    exact apart row (sorted_perm.subset member) (Std.OrientedCmp.eq_symm equal)

theorem keepSmallest_take (ranked : Ranked cmp rows) :
    keepSmallest cmp limit (rows.take limit) entry = (insertOrdered cmp rows entry).take limit := by
  rw [keepSmallest]
  by_cases full : (rows.take limit).length = limit
  · rw [if_pos full]
    have room : limit ≤ rows.length := by
      have := List.length_take_le limit rows
      rw [List.length_take] at full
      omega
    cases limit with
    | zero => simp
    | succ limit =>
      have inside : limit < rows.length := by omega
      have last : (rows.take (limit + 1)).getLast? = some rows[limit] := by
        rw [List.getLast?_eq_getElem?, full, Nat.add_sub_cancel, List.getElem?_take_of_lt (by omega),
          List.getElem?_eq_getElem inside]
      rw [last]
      simp only
      split
      next late =>
        -- The rows of a full page are all before its last row, and so before the new one.
        symm
        apply take_insertOrdered_of_le room
        intro row member
        have upTo : (cmp row rows[limit]).isLE := by
          obtain ⟨at_, bound, rfl⟩ := List.getElem_of_mem member
          rw [List.length_take] at bound
          rw [List.getElem_take]
          rcases Nat.lt_or_ge at_ limit with before | same
          · rw [List.pairwise_iff_getElem.mp ranked at_ limit (by omega) inside before]
            decide
          · have : at_ = limit := by omega
            subst this
            exact Std.ReflCmp.isLE_rfl
        exact Std.TransCmp.isLE_trans upTo (Std.OrientedCmp.isGE_iff_isLE.mp late)
      next early =>
        rw [List.dropLast_eq_take, full, Nat.add_sub_cancel, List.take_take, Nat.min_eq_left (Nat.le_succ _)]
        symm
        apply take_insertOrdered_of_lt inside
        intro before
        exact early (Std.OrientedCmp.isGE_iff_isLE.mpr before)
  · rw [if_neg full]
    have short : rows.length < limit := by
      rw [List.length_take] at full
      omega
    rw [List.take_of_length_le (Nat.le_of_lt short), List.take_of_length_le]
    rw [insertOrdered_perm.length_eq, List.length_cons]
    exact short

theorem foldl_keepSmallest (limit : Nat) {before : List α} (entries : List α)
    (distinct : Distinct cmp (entries.reverse ++ before)) :
    entries.foldl (keepSmallest cmp limit) ((sorted cmp before).take limit) =
      (sorted cmp (entries.reverse ++ before)).take limit := by
  induction entries generalizing before with
  | nil => simp
  | cons entry entries ih =>
    rw [List.reverse_cons, List.append_assoc] at distinct ⊢
    have here : Distinct cmp (entry :: before) := (List.pairwise_append.mp distinct).2.1
    have rest : Distinct cmp before := (List.pairwise_cons.mp here).2
    rw [List.foldl_cons, keepSmallest_take (sorted_ranked rest), insertOrdered_sorted here]
    exact ih distinct

theorem foldl_keepSmallest_nil {entries : List α} (distinct : Distinct cmp entries) :
    entries.foldl (keepSmallest cmp limit) [] = (sorted cmp entries).take limit := by
  have turned : Distinct cmp (entries.reverse ++ []) := by
    rw [List.append_nil]
    exact distinct.of_perm (List.reverse_perm _).symm
  rw [sorted_congr distinct (List.reverse_perm _).symm]
  simpa [sorted] using foldl_keepSmallest limit entries turned

end Insertion

section Parts
variable {cmp} [Std.TransCmp cmp] {limit : Nat}

theorem take_sorted_append {others rows : List α} (distinct : Distinct cmp (others ++ rows)) :
    (sorted cmp (others ++ (sorted cmp rows).take limit)).take limit =
      (sorted cmp (others ++ rows)).take limit := by
  have apart : Distinct cmp rows := (List.pairwise_append.mp distinct).2.1
  have firsts : Ranked cmp ((sorted cmp rows).take limit) :=
    (sorted_ranked apart).sublist (List.take_sublist _ _)
  have fewer : ((sorted cmp rows).take limit).Subperm rows :=
    (List.take_sublist _ _).subperm.trans sorted_perm.subperm
  have without : Distinct cmp (others ++ (sorted cmp rows).take limit) :=
    distinct.of_subperm ((List.Subperm.refl others).append fewer)
  -- Both pages are what the other rows make of the first rows of the part.
  have whole := foldl_keepSmallest limit others.reverse
    (by rw [List.reverse_reverse]; exact distinct)
  have cut := foldl_keepSmallest limit others.reverse
    (by rw [List.reverse_reverse]; exact without)
  rw [List.reverse_reverse] at whole cut
  rw [← whole, ← cut, firsts.sorted_eq, List.take_take, Nat.min_self]

theorem take_sorted_parts {others : List α} {parts : List (List α)}
    (distinct : Distinct cmp (others ++ parts.flatten)) :
    (sorted cmp (others ++ (parts.map fun part => (sorted cmp part).take limit).flatten)).take limit =
      (sorted cmp (others ++ parts.flatten)).take limit := by
  induction parts generalizing others with
  | nil => rfl
  | cons part parts ih =>
    rw [List.flatten_cons] at distinct
    have fewer : ((sorted cmp part).take limit).Subperm part :=
      (List.take_sublist _ _).subperm.trans sorted_perm.subperm
    have kept : Distinct cmp ((others ++ (sorted cmp part).take limit) ++ parts.flatten) := by
      rw [List.append_assoc]
      exact distinct.of_subperm ((List.Subperm.refl others).append (fewer.append (.refl _)))
    have moved {front : List α} :
        ((others ++ front) ++ parts.flatten).Perm ((others ++ parts.flatten) ++ front) := by
      rw [List.append_assoc, List.append_assoc]
      exact List.perm_append_comm.append_left others
    have whole : Distinct cmp ((others ++ parts.flatten) ++ part) := by
      apply Distinct.of_perm _ moved
      rw [List.append_assoc]
      exact distinct
    calc
      (sorted cmp (others ++ (((part :: parts).map fun part => (sorted cmp part).take limit).flatten))).take limit
          = (sorted cmp ((others ++ (sorted cmp part).take limit) ++
              (parts.map fun part => (sorted cmp part).take limit).flatten)).take limit := by
            rw [List.map_cons, List.flatten_cons, List.append_assoc]
      _ = (sorted cmp ((others ++ parts.flatten) ++ (sorted cmp part).take limit)).take limit := by
            rw [ih kept, sorted_congr kept moved]
      _ = (sorted cmp ((others ++ parts.flatten) ++ part)).take limit := take_sorted_append whole
      _ = (sorted cmp (others ++ (part :: parts).flatten)).take limit := by
            rw [← sorted_congr (whole.of_perm moved.symm) moved, List.flatten_cons, List.append_assoc]

end Parts

end Narsil.Ranking
