import Narsil.Ranking.Smallest

/-!
# Reading a ranking page by page

A reader asks for the first page, and then for the page behind the last row it was
given, until it is given nothing to go on from.
-/
namespace Narsil.Ranking

variable {α κ ε : Type*}

section Seek
variable {cmp : α → α → Ordering} [Std.OrientedCmp cmp] {before later : List α} {anchor : α}

theorem not_after {after : α → Bool} (ranked : Ranked cmp (before ++ anchor :: later))
    (follows : ∀ row ∈ before ++ anchor :: later, after row ↔ cmp anchor row = .lt) {row : α}
    (member : row ∈ before ++ [anchor]) : after row = false := by
  obtain ⟨_, _, across⟩ := List.pairwise_append.mp ranked
  apply Bool.eq_false_iff.mpr
  intro holds
  rcases List.mem_append.mp member with old | last
  · have order := across row old anchor (by simp)
    rw [Std.OrientedCmp.gt_of_lt ((follows row (by simp [old])).mp holds)] at order
    cases order
  · rw [List.mem_singleton.mp last] at holds
    have order := (follows anchor (by simp)).mp holds
    have same : cmp anchor anchor = .eq := Std.ReflCmp.compare_self
    rw [same] at order
    cases order

theorem filter_after {after : α → Bool} (ranked : Ranked cmp (before ++ anchor :: later))
    (follows : ∀ row ∈ before ++ anchor :: later, after row ↔ cmp anchor row = .lt) :
    (before ++ anchor :: later).filter after = later := by
  have splits : before ++ anchor :: later = (before ++ [anchor]) ++ later := by simp
  have behind := (List.pairwise_cons.mp (List.pairwise_append.mp ranked).2.1).1
  have none : (before ++ [anchor]).filter after = [] := by
    apply List.filter_eq_nil_iff.mpr
    intro row member
    rw [not_after ranked follows member]
    decide
  rw [splits, List.filter_append, none, List.nil_append]
  apply List.filter_eq_self.mpr
  intro row member
  exact (follows row (by simp [member])).mpr (behind row member)

theorem findIdx_after {after : α → Bool} (ranked : Ranked cmp (before ++ anchor :: later))
    (follows : ∀ row ∈ before ++ anchor :: later, after row ↔ cmp anchor row = .lt) :
    (before ++ anchor :: later).findIdx after = before.length + 1 := by
  have splits : before ++ anchor :: later = (before ++ [anchor]) ++ later := by simp
  have behind := (List.pairwise_cons.mp (List.pairwise_append.mp ranked).2.1).1
  have none : (before ++ [anchor]).findIdx after = (before ++ [anchor]).length :=
    List.findIdx_eq_length_of_false fun row member => not_after ranked follows member
  have start : later.findIdx after = 0 := by
    cases later with
    | nil => rfl
    | cons row rest =>
      have holds := (follows row (by simp)).mpr (behind row (by simp))
      rw [List.findIdx_cons, holds]
      rfl
  rw [splits, List.findIdx_append, none, if_neg (Nat.lt_irrefl _), start, List.length_append, Nat.zero_add]
  rfl

section Position
variable {rows : List α} {after : α → Bool} {at_ : Nat}

theorem splits_at (bound : at_ < rows.length) :
    rows.take at_ ++ rows[at_] :: rows.drop (at_ + 1) = rows := by
  rw [← List.drop_eq_getElem_cons bound, List.take_append_drop]

theorem findIdx_behind (ranked : Ranked cmp rows) (bound : at_ < rows.length)
    (follows : ∀ row ∈ rows, after row ↔ cmp rows[at_] row = .lt) : rows.findIdx after = at_ + 1 := by
  have found : (rows.take at_ ++ rows[at_] :: rows.drop (at_ + 1)).findIdx after = (rows.take at_).length + 1 := by
    apply findIdx_after (by rw [splits_at bound]; exact ranked)
    rw [splits_at bound]
    exact follows
  rw [splits_at bound, List.length_take] at found
  rw [found]
  omega

theorem filter_behind (ranked : Ranked cmp rows) (bound : at_ < rows.length)
    (follows : ∀ row ∈ rows, after row ↔ cmp rows[at_] row = .lt) : rows.filter after = rows.drop (at_ + 1) := by
  have found : (rows.take at_ ++ rows[at_] :: rows.drop (at_ + 1)).filter after = rows.drop (at_ + 1) := by
    apply filter_after (by rw [splits_at bound]; exact ranked)
    rw [splits_at bound]
    exact follows
  rwa [splits_at bound] at found

end Position

end Seek

/-- The pages a reader sees from one cursor on, until no cursor is returned. -/
inductive Follows (page : Option κ → Except ε (List α × Option κ)) : Option κ → List (List α) → Prop
  | last {cursor : Option κ} {rows : List α} :
      page cursor = .ok (rows, none) → Follows page cursor [rows]
  | next {cursor : Option κ} {rows : List α} {following : κ} {pages : List (List α)} :
      page cursor = .ok (rows, some following) → Follows page (some following) pages →
        Follows page cursor (rows :: pages)

/-- Each cursor leads to the rows from its position on, and there is one while rows are left. -/
structure Seeks (page : Option κ → Except ε (List α × Option κ)) (ranked : List α) (size : Nat)
    (cursorAt : Nat → Option κ) : Prop where
  positive : 0 < size
  shows : ∀ at_, at_ < ranked.length ∨ at_ = 0 →
    page (cursorAt at_) = .ok ((ranked.drop at_).take size,
      if at_ + size < ranked.length then cursorAt (at_ + size) else none)
  goesOn : ∀ at_, 0 < at_ → at_ < ranked.length → (cursorAt at_).isSome

section Walk
variable {page : Option κ → Except ε (List α × Option κ)} {ranked : List α} {size : Nat}
  {cursorAt : Nat → Option κ}

theorem Seeks.follows_from (seeks : Seeks page ranked size cursorAt) (left at_ : Nat)
    (inside : at_ < ranked.length ∨ at_ = 0) (rest : ranked.length - at_ ≤ left) :
    ∃ pages, Follows page (cursorAt at_) pages ∧ pages.flatten = ranked.drop at_ ∧
      ∀ rows ∈ pages, rows.length ≤ size := by
  induction left generalizing at_ with
  | zero =>
    have shown := seeks.shows at_ inside
    have ends : ¬at_ + size < ranked.length := by have := seeks.positive; omega
    rw [if_neg ends] at shown
    have all : (ranked.drop at_).take size = ranked.drop at_ :=
      List.take_of_length_le (by rw [List.length_drop]; omega)
    rw [all] at shown
    exact ⟨[ranked.drop at_], .last shown, by simp, by simp; omega⟩
  | succ left ih =>
    have shown := seeks.shows at_ inside
    by_cases more : at_ + size < ranked.length
    · rw [if_pos more] at shown
      obtain ⟨following, found⟩ := Option.isSome_iff_exists.mp
        (seeks.goesOn (at_ + size) (by have := seeks.positive; omega) more)
      obtain ⟨pages, follows, joined, short⟩ :=
        ih (at_ + size) (.inl more) (by have := seeks.positive; omega)
      rw [found] at shown follows
      refine ⟨_ :: pages, .next shown follows, ?_, ?_⟩
      · rw [List.flatten_cons, joined, ← List.drop_drop, List.take_append_drop]
      · intro rows member
        rcases List.mem_cons.mp member with rfl | later
        · exact List.length_take_le _ _
        · exact short rows later
    · rw [if_neg more] at shown
      have all : (ranked.drop at_).take size = ranked.drop at_ :=
        List.take_of_length_le (by rw [List.length_drop]; omega)
      rw [all] at shown
      exact ⟨[ranked.drop at_], .last shown, by simp, by simp; omega⟩

theorem Seeks.map {β : Type*} (seeks : Seeks page ranked size cursorAt) (shown : α → β) :
    Seeks (fun cursor => (page cursor).map fun rows => (rows.1.map shown, rows.2)) (ranked.map shown) size
      cursorAt where
  positive := seeks.positive
  shows at_ inside := by
    rw [List.length_map] at inside ⊢
    rw [seeks.shows at_ inside, Except.map, ← List.map_drop, ← List.map_take]
  goesOn at_ positive inside := seeks.goesOn at_ positive (by rwa [List.length_map] at inside)

theorem Seeks.follows (seeks : Seeks page ranked size cursorAt) :
    ∃ pages, Follows page (cursorAt 0) pages ∧ pages.flatten = ranked ∧
      ∀ rows ∈ pages, rows.length ≤ size := by
  obtain ⟨pages, follows, joined, short⟩ := seeks.follows_from ranked.length 0 (.inr rfl) (Nat.sub_le _ _)
  exact ⟨pages, follows, joined, short⟩

end Walk

end Narsil.Ranking
