import Narsil.Ranking.Smallest

/-!
# Merging several lists

A merge takes, again and again, the row that comes before the first rows of all other
lists. Where no two rows are equal in rank there is only one merge; merging two lists at
a time finds it, and out of ranked lists it makes the ranking of all their rows.
-/
namespace Narsil.Ranking

variable {α : Type*} (cmp : α → α → Ordering)

/-- `out` is a merge of the lists. -/
inductive Merges : List (List α) → List α → Prop
  | done {lists : List (List α)} (empty : ∀ list ∈ lists, list = []) : Merges lists []
  | next {lists others : List (List α)} {row : α} {rest out : List α}
      (same : lists.Perm ((row :: rest) :: others))
      (first : ∀ list ∈ others, ∀ other ∈ list.head?, cmp row other = .lt)
      (later : Merges (rest :: others) out) : Merges lists (row :: out)

/-- The lists merged two at a time, each with what the ones before it made. -/
def mergeInTurn : List (List α) → List α
  | [] => []
  | list :: lists => lists.foldl (fun merged other => merged.merge other fun x y => (cmp x y).isLE) list

theorem cons_perm_cons_cases {β : Type*} {first second : β} {front back : List β}
    (same : (first :: front).Perm (second :: back)) :
    (first = second ∧ front.Perm back) ∨
      ∃ others, front.Perm (second :: others) ∧ back.Perm (first :: others) := by
  rcases List.mem_cons.mp (same.mem_iff.mp List.mem_cons_self) with rfl | among
  · exact .inl ⟨rfl, (List.perm_cons first).mp same⟩
  · obtain ⟨before, behind, rfl⟩ := List.append_of_mem among
    refine .inr ⟨before ++ behind, ?_, List.perm_middle⟩
    apply (List.perm_cons first).mp
    calc (first :: front).Perm (second :: (before ++ first :: behind)) := same
      _ |>.Perm (second :: first :: (before ++ behind)) := List.perm_middle.cons second
      _ |>.Perm (first :: second :: (before ++ behind)) := .swap first second _

variable {cmp} {lists others : List (List α)} {row : α} {list rest out : List α}

theorem Merges.of_perm (merges : Merges cmp lists out) (same : lists.Perm others) : Merges cmp others out := by
  cases merges with
  | done empty => exact .done fun list member => empty list (same.mem_iff.mpr member)
  | next split first later => exact .next (same.symm.trans split) first later

theorem Merges.perm (merges : Merges cmp lists out) : out.Perm lists.flatten := by
  induction merges with
  | done empty => rw [List.flatten_eq_nil_iff.mpr empty]
  | next same first later ih =>
    apply List.Perm.trans _ same.flatten.symm
    rw [List.flatten_cons, List.cons_append, ← List.flatten_cons]
    exact ih.cons _

theorem Merges.uncons [Std.OrientedCmp cmp] (merges : Merges cmp lists out)
    (same : lists.Perm ((row :: rest) :: others))
    (first : ∀ list ∈ others, ∀ other ∈ list.head?, cmp row other = .lt) :
    ∃ later, out = row :: later ∧ Merges cmp (rest :: others) later := by
  cases merges with
  | done empty =>
    have none := empty (row :: rest) (same.mem_iff.mpr (by simp))
    cases none
  | @next _ others' row' rest' out same' first' later =>
    rcases cons_perm_cons_cases (same'.symm.trans same) with ⟨mine, others_⟩ | ⟨between, mine, yours⟩
    · cases mine
      exact ⟨out, rfl, later.of_perm (others_.cons rest)⟩
    · -- Each of the two would come before the other.
      have before := first _ (yours.mem_iff.mpr List.mem_cons_self) row' rfl
      have turned := Std.OrientedCmp.gt_of_lt (first' _ (mine.mem_iff.mpr List.mem_cons_self) row rfl)
      rw [before] at turned
      cases turned

theorem Merges.skip (merges : Merges cmp others out) (start : others.Perm ([] :: lists)) :
    Merges cmp lists out := by
  induction merges generalizing lists with
  | done empty => exact .done fun list member => empty list (start.mem_iff.mpr (List.mem_cons_of_mem _ member))
  | @next all others row rest out same first later ih =>
    rcases cons_perm_cons_cases (same.symm.trans start) with ⟨none, _⟩ | ⟨between, mine, yours⟩
    · cases none
    · apply Merges.next yours
      · intro list member
        exact first list (mine.mem_iff.mpr (List.mem_cons_of_mem _ member))
      · apply ih
        exact (mine.cons rest).trans (.swap [] rest between)

theorem Merges.ranked [Std.TransCmp cmp] (merges : Merges cmp lists out)
    (ranked : ∀ list ∈ lists, Ranked cmp list) : Ranked cmp out := by
  induction merges with
  | done empty => exact List.Pairwise.nil
  | @next lists others row rest out same first later ih =>
    have mine := List.pairwise_cons.mp (ranked (row :: rest) (same.mem_iff.mpr List.mem_cons_self))
    have theirs : ∀ list ∈ others, Ranked cmp list := fun list member =>
      ranked list (same.mem_iff.mpr (List.mem_cons_of_mem _ member))
    apply List.pairwise_cons.mpr
    constructor
    · intro other member
      rw [later.perm.mem_iff, List.flatten_cons, List.mem_append] at member
      rcases member with behind | elsewhere
      · exact mine.1 other behind
      · obtain ⟨list, among, member⟩ := List.mem_flatten.mp elsewhere
        cases list with
        | nil => exact absurd member List.not_mem_nil
        | cons head tail =>
          have before := first _ among head rfl
          rcases List.mem_cons.mp member with rfl | behind
          · exact before
          · exact Std.TransCmp.lt_trans before ((List.pairwise_cons.mp (theirs _ among)).1 other behind)
    · apply ih
      intro list member
      rcases List.mem_cons.mp member with rfl | among
      · exact mine.2
      · exact theirs list among

theorem Merges.eq_sorted [Std.TransCmp cmp] (merges : Merges cmp lists out)
    (ranked : ∀ list ∈ lists, Ranked cmp list) : out = sorted cmp lists.flatten := by
  have order := merges.ranked ranked
  rw [← sorted_congr order.distinct merges.perm, order.sorted_eq]

theorem Merges.single : Merges cmp [list] list := by
  induction list with
  | nil => exact .done (by simp)
  | cons row rest ih => exact .next (.refl _) (by simp) ih

section Turns
variable [Std.TransCmp cmp] {left right : List α}

theorem head_merge_isLE (list : List α) (either : list = left ∨ list = right) :
    ∀ row ∈ list.head?, ∃ first ∈ (left.merge right fun x y => (cmp x y).isLE).head?, (cmp first row).isLE := by
  cases left with
  | nil =>
    rw [List.nil_merge]
    rcases either with rfl | rfl
    · simp
    · exact fun row head => ⟨row, head, Std.ReflCmp.isLE_rfl⟩
  | cons x left =>
    cases right with
    | nil =>
      rw [List.merge_right]
      rcases either with rfl | rfl
      · exact fun row head => ⟨row, head, Std.ReflCmp.isLE_rfl⟩
      · simp
    | cons y right =>
      rw [List.cons_merge_cons]
      intro row head
      split
      next before =>
        refine ⟨x, rfl, ?_⟩
        rcases either with rfl | rfl
        · cases head
          exact Std.ReflCmp.isLE_rfl
        · cases head
          exact before
      next after =>
        have turned : (cmp y x).isLE := by
          rw [@Std.OrientedCmp.eq_swap _ cmp]
          cases order : cmp x y <;> simp [order] at after ⊢
        refine ⟨y, rfl, ?_⟩
        rcases either with rfl | rfl
        · cases head
          exact turned
        · cases head
          exact Std.ReflCmp.isLE_rfl

theorem Merges.split (merges : Merges cmp lists out) (apart : ∀ x ∈ left, ∀ y ∈ right, cmp x y ≠ .eq)
    (start : lists.Perm ((left.merge right fun x y => (cmp x y).isLE) :: others)) :
    Merges cmp (left :: right :: others) out := by
  induction merges generalizing left right others with
  | done empty =>
    have none := empty _ (start.mem_iff.mpr List.mem_cons_self)
    have both : left ++ right = [] := List.Perm.nil_eq (none ▸ List.merge_perm_append _) |>.symm
    apply Merges.done
    intro list member
    rcases List.mem_cons.mp member with rfl | member
    · exact (List.append_eq_nil_iff.mp both).1
    rcases List.mem_cons.mp member with rfl | member
    · exact (List.append_eq_nil_iff.mp both).2
    · exact empty list (start.mem_iff.mpr (List.mem_cons_of_mem _ member))
  | @next all others' row rest out same first later ih =>
    rcases cons_perm_cons_cases (same.symm.trans start) with ⟨mine, others_⟩ | ⟨between, mine, yours⟩
    · -- The next row is the first of the two merged lists.
      have before : ∀ list ∈ others, ∀ other ∈ list.head?, cmp row other = .lt := fun list member =>
        first list (others_.mem_iff.mpr member)
      cases left with
      | nil =>
        rw [List.nil_merge] at mine
        subst mine
        apply Merges.next (.swap _ _ _)
        · simpa using before
        · apply Merges.of_perm _ (.swap rest [] others)
          apply ih (by simp)
          rw [List.nil_merge]
          exact others_.cons rest
      | cons x left =>
        cases right with
        | nil =>
          rw [List.merge_right] at mine
          cases mine
          apply Merges.next (.refl _)
          · simpa using before
          · apply ih (by simp)
            rw [List.merge_right]
            exact others_.cons _
        | cons y right =>
          rw [List.cons_merge_cons] at mine
          have unequal := apart x List.mem_cons_self y List.mem_cons_self
          split at mine
          next order =>
            have strict : cmp x y = .lt := by
              rcases Ordering.isLE_iff_eq_lt_or_eq_eq.mp order with strict | same
              · exact strict
              · exact absurd same unequal
            cases mine
            apply Merges.next (.refl _)
            · intro list member
              rcases List.mem_cons.mp member with rfl | member
              · simpa using strict
              · exact before list member
            · apply ih (fun x' member => apart x' (List.mem_cons_of_mem _ member))
              exact others_.cons _
          next order =>
            have strict : cmp y x = .lt := by
              rw [@Std.OrientedCmp.eq_swap _ cmp]
              cases turned : cmp x y <;> simp [turned] at order ⊢
            cases mine
            apply Merges.next (.swap _ _ _)
            · intro list member
              rcases List.mem_cons.mp member with rfl | member
              · simpa using strict
              · exact before list member
            · apply Merges.of_perm _ (.swap _ _ _)
              apply ih (fun x' member y' member' => apart x' member y' (List.mem_cons_of_mem _ member'))
              exact others_.cons _
    · -- The next row comes from another list, and before the first rows of both.
      have beforeMerged := first _ (mine.mem_iff.mpr List.mem_cons_self)
      have beforeBoth (list : List α) (either : list = left ∨ list = right) :
          ∀ other ∈ list.head?, cmp row other = .lt := by
        intro other head
        obtain ⟨top, atTop, order⟩ := @head_merge_isLE α cmp _ left right list either other head
        exact Std.TransCmp.lt_of_lt_of_isLE (beforeMerged top atTop) order
      apply @Merges.next _ _ _ (left :: right :: between) row rest
      · calc (left :: right :: others).Perm (left :: right :: (row :: rest) :: between) := (yours.cons right).cons left
          _ |>.Perm (left :: (row :: rest) :: right :: between) := (List.Perm.swap _ _ _).cons left
          _ |>.Perm ((row :: rest) :: left :: right :: between) := .swap _ _ _
      · intro list member
        rcases List.mem_cons.mp member with rfl | member
        · exact beforeBoth _ (.inl rfl)
        rcases List.mem_cons.mp member with rfl | member
        · exact beforeBoth _ (.inr rfl)
        · exact first list (mine.mem_iff.mpr (List.mem_cons_of_mem _ member))
      · have moved := ih apart ((mine.cons rest).trans (.swap _ _ _))
        apply moved.of_perm
        calc (left :: right :: rest :: between).Perm (left :: rest :: right :: between) := (List.Perm.swap _ _ _).cons left
          _ |>.Perm (rest :: left :: right :: between) := .swap _ _ _

theorem mergeInTurn_merges (distinct : Distinct cmp lists.flatten) :
    Merges cmp lists (mergeInTurn cmp lists) := by
  cases lists with
  | nil => exact .done (by simp)
  | cons list lists =>
    rw [mergeInTurn]
    induction lists generalizing list with
    | nil => exact .single
    | cons other lists ih =>
      rw [List.foldl_cons]
      rw [List.flatten_cons, List.flatten_cons, ← List.append_assoc] at distinct
      have apart := (List.pairwise_append.mp (List.pairwise_append.mp distinct).1).2.2
      apply Merges.split (ih _ _) apart (.refl _)
      rw [List.flatten_cons]
      exact distinct.of_perm ((List.merge_perm_append _).symm.append (.refl _))

end Turns

end Narsil.Ranking
