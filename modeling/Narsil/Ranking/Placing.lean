import Mathlib.Data.List.Nodup

/-!
# Placing rows into a list

Rows are placed one after another, each at its position, and those that come behind make
room. A position past the end is the end. Where the positions ascend, what stands before a
position is settled once the row is placed, so a list and one of its prefixes come out alike
as far as no row has to stand at the end of the prefix instead of its position.
-/
namespace Narsil.Ranking

variable {α β : Type*}

def placeAt (rows : List α) (position : Nat) (row : α) : List α :=
  rows.take position ++ row :: rows.drop position

/-- Each row goes to its position in what the rows before it made. -/
def placeAll (rows : List α) (placements : List (Nat × α)) : List α :=
  placements.foldl (fun placed placement => placeAt placed placement.1 placement.2) rows

variable {rows others : List α} {placements before after : List (Nat × α)} {position n : Nat} {row : α}

theorem placeAt_length : (placeAt rows position row).length = rows.length + 1 := by
  simp only [placeAt, List.length_append, List.length_take, List.length_cons, List.length_drop]
  omega

theorem placeAt_perm : (placeAt rows position row).Perm (row :: rows) := by
  have split : rows.take position ++ rows.drop position = rows := List.take_append_drop position rows
  exact List.perm_middle.trans (by rw [split])

theorem placeAt_map (f : α → β) : (placeAt rows position row).map f = placeAt (rows.map f) position (f row) := by
  simp [placeAt]

theorem placeAt_end (past : rows.length ≤ position) : placeAt rows position row = rows ++ [row] := by
  rw [placeAt, List.take_of_length_le past, List.drop_of_length_le past]

theorem placeAt_append (within : position ≤ rows.length) :
    placeAt (rows ++ others) position row = placeAt rows position row ++ others := by
  rw [placeAt, placeAt, List.take_append_of_le_length within, List.drop_append_of_le_length within]
  simp

theorem placeAt_behind {front : List α} (behind : front.length ≤ position) :
    placeAt (front ++ rows) position row = front ++ placeAt rows (position - front.length) row := by
  rw [placeAt, placeAt, List.take_append, List.drop_append, List.take_of_length_le behind,
    List.drop_of_length_le behind]
  simp

theorem placeAt_getElem? (early : n < position) (within : n < rows.length) :
    (placeAt rows position row)[n]? = rows[n]? := by
  rw [placeAt, List.getElem?_append_left (by rw [List.length_take]; omega), List.getElem?_take_of_lt early]

theorem placeAll_append : placeAll rows (before ++ after) = placeAll (placeAll rows before) after := by
  rw [placeAll, List.foldl_append]
  rfl

theorem placeAll_length : (placeAll rows placements).length = rows.length + placements.length := by
  induction placements generalizing rows with
  | nil => rfl
  | cons placement rest ih =>
    rw [List.length_cons]
    have rest_length := @ih (placeAt rows placement.1 placement.2)
    rw [placeAt_length] at rest_length
    exact rest_length.trans (by omega)

theorem placeAll_perm : (placeAll rows placements).Perm (rows ++ placements.map Prod.snd) := by
  induction placements generalizing rows with
  | nil => simp [placeAll]
  | cons placement rest ih =>
    calc placeAll (placeAt rows placement.1 placement.2) rest
      _ |>.Perm (placeAt rows placement.1 placement.2 ++ rest.map Prod.snd) := ih
      _ |>.Perm ((placement.2 :: rows) ++ rest.map Prod.snd) := placeAt_perm.append_right _
      _ |>.Perm (rows ++ placement.2 :: rest.map Prod.snd) := List.perm_middle.symm

theorem placeAll_getElem? (late : ∀ placement ∈ placements, n < placement.1) (within : n < rows.length) :
    (placeAll rows placements)[n]? = rows[n]? := by
  induction placements generalizing rows with
  | nil => rfl
  | cons placement rest ih =>
    obtain ⟨first_late, rest_late⟩ := List.forall_mem_cons.mp late
    have step := @ih (placeAt rows placement.1 placement.2) rest_late (by rw [placeAt_length]; omega)
    exact step.trans (placeAt_getElem? first_late within)

/-- Each row that has its position past the end of the list it is placed into stands before `start`. -/
def EndsBefore (start length : Nat) (placements : List (Nat × α)) : Prop :=
  ∀ i (inside : i < placements.length), length + i < placements[i].1 → length + i < start

instance (start length : Nat) (placements : List (Nat × α)) : Decidable (EndsBefore start length placements) :=
  inferInstanceAs (Decidable (∀ i (inside : i < placements.length), length + i < placements[i].1 → length + i < start))

theorem EndsBefore.tail {start length : Nat} {placement : Nat × α}
    (ends : EndsBefore start length (placement :: placements)) : EndsBefore start (length + 1) placements := by
  intro i inside past
  have later := ends (i + 1) (by simpa using inside)
  rw [List.getElem_cons_succ] at later
  have := later (by omega)
  omega

/--
The two lists differ in their fronts, which are settled, and go on alike for as long as the
first one lasts. A row past the end of the first list settles all of it.
-/
private theorem placeAll_agrees_behind {start : Nat} (ascending : placements.Pairwise fun a b => a.1 ≤ b.1) :
    ∀ {front front' rows others : List α}, front.length = front'.length → front.length ≤ start →
      (∀ placement ∈ placements, front.length ≤ placement.1) →
      EndsBefore start (front.length + rows.length) placements →
      ∀ j, start ≤ j → j < front.length + rows.length + placements.length →
        (placeAll (front ++ rows) placements)[j]? = (placeAll (front' ++ (rows ++ others)) placements)[j]? := by
  induction placements with
  | nil =>
    intro front front' rows others same settled _ _ j from_start within
    rw [List.length_nil] at within
    have behind : front.length ≤ j := by omega
    show (front ++ rows)[j]? = (front' ++ (rows ++ others))[j]?
    rw [List.getElem?_append_right behind, List.getElem?_append_right (same ▸ behind), ← same,
      List.getElem?_append_left (by omega)]
  | cons placement rest ih =>
    intro front front' rows others same settled late ends j from_start within
    obtain ⟨first_late, rest_late⟩ := List.forall_mem_cons.mp late
    obtain ⟨first_least, rest_ascending⟩ := List.pairwise_cons.mp ascending
    rw [List.length_cons] at within
    show (placeAll (placeAt (front ++ rows) placement.1 placement.2) rest)[j]? =
      (placeAll (placeAt (front' ++ (rows ++ others)) placement.1 placement.2) rest)[j]?
    by_cases past : front.length + rows.length < placement.1
    · -- All that is there now, with the row itself, is settled.
      have early : front.length + rows.length < start := by
        have := ends 0 (by simp)
        simp only [List.getElem_cons_zero, Nat.add_zero] at this
        exact this past
      let whole := placeAt (front' ++ (rows ++ others)) placement.1 placement.2
      have whole_length : whole.length = front'.length + (rows.length + others.length) + 1 := by
        simp only [whole, placeAt_length, List.length_append]
      have left : placeAt (front ++ rows) placement.1 placement.2 = (front ++ rows ++ [placement.2]) ++ [] := by
        rw [placeAt_end (by rw [List.length_append]; omega), List.append_nil]
      have right : whole = whole.take (front.length + rows.length + 1) ++
          ([] ++ whole.drop (front.length + rows.length + 1)) := by
        rw [List.nil_append, List.take_append_drop]
      have front_length : (front ++ rows ++ [placement.2]).length = front.length + rows.length + 1 := by
        simp only [List.length_append, List.length_singleton]
      rw [left, show placeAt (front' ++ (rows ++ others)) placement.1 placement.2 = whole from rfl, right]
      apply ih rest_ascending
      · rw [front_length, List.length_take, whole_length]
        omega
      · rw [front_length]
        omega
      · intro later member
        have := first_least later member
        rw [front_length]
        omega
      · rw [front_length]
        exact ends.tail
      · exact from_start
      · rw [front_length, List.length_nil]
        omega
    · rw [placeAt_behind first_late, placeAt_behind (same ▸ first_late), ← same,
        placeAt_append (by omega)]
      apply ih rest_ascending same settled rest_late
      · rw [placeAt_length, ← Nat.add_assoc]
        exact ends.tail
      · exact from_start
      · rw [placeAt_length]
        omega

theorem placeAll_agrees {start : Nat} (ascending : placements.Pairwise fun a b => a.1 ≤ b.1)
    (ends : EndsBefore start rows.length placements) {j : Nat} (from_start : start ≤ j)
    (within : j < rows.length + placements.length) :
    (placeAll rows placements)[j]? = (placeAll (rows ++ others) placements)[j]? := by
  apply @placeAll_agrees_behind _ placements start ascending [] [] rows others rfl (Nat.zero_le _)
  · intro placement _
    exact Nat.zero_le _
  · simpa using ends
  · exact from_start
  · simpa using within

private theorem placeAll_differs_at (split : placements = before ++ (position, row) :: after)
    (ascending : placements.Pairwise fun a b => a.1 ≤ b.1) (past : rows.length + before.length < position)
    (longer : others ≠ []) (new : row ∉ (rows ++ others) ++ before.map Prod.snd) :
    (placeAll rows placements)[rows.length + before.length]? ≠
      (placeAll (rows ++ others) placements)[rows.length + before.length]? := by
  subst split
  have after_late : ∀ placement ∈ after, rows.length + before.length < placement.1 := by
    intro placement member
    have least := (List.pairwise_cons.mp (List.pairwise_append.mp ascending).2.1).1 placement member
    exact Nat.lt_of_lt_of_le past least
  have settles : ∀ list : List α, rows.length + before.length < (placeAt (placeAll list before) position row).length →
      (placeAll list (before ++ (position, row) :: after))[rows.length + before.length]? =
        (placeAt (placeAll list before) position row)[rows.length + before.length]? := by
    intro list within
    rw [placeAll_append]
    exact placeAll_getElem? after_late within
  have short_length : (placeAll rows before).length = rows.length + before.length := placeAll_length
  have others_length : 0 < others.length := List.length_pos_iff.mpr longer
  have long_length : (placeAll (rows ++ others) before).length = rows.length + others.length + before.length := by
    rw [placeAll_length, List.length_append]
  rw [settles rows (by rw [placeAt_length]; omega), settles (rows ++ others) (by rw [placeAt_length]; omega),
    placeAt_end (by omega), placeAt_getElem? past (by omega), ← short_length, List.getElem?_concat_length]
  intro same
  have member := List.mem_of_getElem? same.symm
  exact new (placeAll_perm.mem_iff.mp member)

theorem placeAll_differs (ascending : placements.Pairwise fun a b => a.1 ≤ b.1) {i : Nat}
    (inside : i < placements.length) (past : rows.length + i < placements[i].1) (longer : others ≠ [])
    (new : placements[i].2 ∉ (rows ++ others) ++ (placements.take i).map Prod.snd) :
    (placeAll rows placements)[rows.length + i]? ≠ (placeAll (rows ++ others) placements)[rows.length + i]? := by
  have split : placements = placements.take i ++ placements[i] :: placements.drop (i + 1) := by
    rw [← List.drop_eq_getElem_cons inside, List.take_append_drop]
  have front_length : (placements.take i).length = i := by
    rw [List.length_take, Nat.min_eq_left (Nat.le_of_lt inside)]
  have differs := placeAll_differs_at split ascending (by rw [front_length]; exact past) longer new
  rwa [front_length] at differs

end Narsil.Ranking
