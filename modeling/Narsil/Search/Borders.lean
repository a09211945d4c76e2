import Mathlib.Data.List.Basic

/-!
# Searching a list for a pattern by its borders

How much of the pattern the values read so far end in, kept value by value. A table of
borders says which shorter part is left to try.
-/
namespace Borders

variable {α : Type} [DecidableEq α]

/-- Shorter parts are tried until one goes on with the value. -/
def fallBack (pattern : List α) (borders : List Nat) (value : α) : Nat → Nat → Nat
  | 0, border => border
  | rounds + 1, border =>
    if border > 0 ∧ pattern[border]? ≠ some value then
      fallBack pattern borders value rounds ((borders[border]?).getD 0)
    else border

/-- The part after one more value. -/
def extend (pattern : List α) (borders : List Nat) (value : α) (border : Nat) : Nat :=
  let border := fallBack pattern borders value border border
  if pattern[border]? = some value then border + 1 else border

/-- The border of each part of the pattern, and the last one. -/
def bordersFrom (pattern : List α) : List α → List Nat → Nat → List Nat
  | [], borders, _ => borders
  | value :: rest, borders, border =>
    let border := extend pattern borders value border
    bordersFrom pattern rest (borders ++ [border]) border

def bordersOf : List α → List Nat
  | [] => [0]
  | first :: rest => bordersFrom (first :: rest) rest [0, 0] 0

variable {pattern : List α} {borders : List Nat} {value : α}

/-- So many values of the pattern end the values read. -/
def EndsWith (pattern : List α) (read : List α) (k : Nat) : Prop :=
  k ≤ pattern.length ∧ pattern.take k <:+ read

/-- No more than so many do. -/
def Longest (pattern : List α) (read : List α) (k : Nat) : Prop :=
  EndsWith pattern read k ∧ ∀ other, EndsWith pattern read other → other ≤ k

/-- The longest part that ends a part of the pattern and is shorter. -/
structure Border (pattern : List α) (length border : Nat) : Prop where
  shorter : border < length
  ends : EndsWith pattern (pattern.take length) border
  longest : ∀ other < length, EndsWith pattern (pattern.take length) other → other ≤ border

/-- The table is right for the parts up to a length. -/
def RightUpTo (pattern : List α) (borders : List Nat) (most : Nat) : Prop :=
  ∀ length, 1 ≤ length → length ≤ most → ∃ border, borders[length]? = some border ∧
    Border pattern length border

omit [DecidableEq α] in
theorem endsWith_zero (pattern read : List α) : EndsWith pattern read 0 :=
  ⟨Nat.zero_le _, by simp⟩

omit [DecidableEq α] in
theorem EndsWith.nested {read : List α} {k other : Nat} (h : EndsWith pattern read k)
    (h' : EndsWith pattern read other) (shorter : other ≤ k) :
    EndsWith pattern (pattern.take k) other := by
  refine ⟨h'.1, ?_⟩
  apply List.suffix_of_suffix_length_le h'.2 h.2
  rw [List.length_take, List.length_take, Nat.min_eq_left h.1, Nat.min_eq_left h'.1]
  exact shorter

omit [DecidableEq α] in
theorem EndsWith.trans {read : List α} {k other : Nat} (h : EndsWith pattern read k)
    (h' : EndsWith pattern (pattern.take k) other) : EndsWith pattern read other :=
  ⟨h'.1, h'.2.trans h.2⟩

omit [DecidableEq α] in
theorem endsWith_concat {read : List α} {k : Nat} :
    EndsWith pattern (read ++ [value]) (k + 1) ↔ EndsWith pattern read k ∧ pattern[k]? = some value := by
  constructor
  · rintro ⟨bound, suffix⟩
    rw [List.take_add_one, List.getElem?_eq_getElem (by omega), Option.toList_some] at suffix
    obtain ⟨before, same⟩ := suffix
    rw [← List.append_assoc] at same
    obtain ⟨front, last⟩ := List.append_inj' same rfl
    refine ⟨⟨by omega, before, front⟩, ?_⟩
    rw [List.getElem?_eq_getElem (by omega), List.cons_eq_cons.mp last |>.1]
  · rintro ⟨⟨_, before, same⟩, next⟩
    have bound : k < pattern.length := (List.getElem?_eq_some_iff.mp next).1
    refine ⟨bound, before, ?_⟩
    rw [List.take_add_one, next, Option.toList_some, ← List.append_assoc, same]

theorem fallBack_spec (value : α) {most : Nat} (right : RightUpTo pattern borders most) {read : List α}
    (rounds border : Nat) (enough : border ≤ rounds) (known : border ≤ most)
    (ends : EndsWith pattern read border) :
    let found := fallBack pattern borders value rounds border
    EndsWith pattern read found ∧ (pattern[found]? ≠ some value → found = 0) ∧
      ∀ k ≤ border, EndsWith pattern read k → pattern[k]? = some value →
        k ≤ found ∧ pattern[found]? = some value := by
  induction rounds generalizing border with
  | zero =>
    obtain rfl : border = 0 := by omega
    refine ⟨ends, fun _ => rfl, ?_⟩
    intro k bound _ next
    obtain rfl : k = 0 := by omega
    exact ⟨Nat.le_refl _, next⟩
  | succ rounds ih =>
    rw [fallBack]
    split
    · next shortens =>
      obtain ⟨positive, different⟩ := shortens
      obtain ⟨shorter, found, is_border⟩ := right border positive known
      have less := is_border.shorter
      rw [found, Option.getD_some]
      obtain ⟨found_ends, not_found, longest⟩ :=
        ih shorter (by omega) (by omega) (ends.trans is_border.ends)
      refine ⟨found_ends, not_found, ?_⟩
      intro k bound k_ends next
      -- the part itself does not go on with the value, so it is a shorter one
      have not_same : k ≠ border := by
        rintro rfl
        exact different next
      have within : k ≤ shorter := is_border.longest k (by omega) (ends.nested k_ends bound)
      exact longest k within k_ends next
    · next stays =>
      refine ⟨ends, ?_, ?_⟩
      · intro different
        by_contra positive
        exact stays ⟨by omega, different⟩
      · intro k bound k_ends next
        rcases Nat.eq_zero_or_pos border with rfl | positive
        · obtain rfl : k = 0 := by omega
          exact ⟨Nat.le_refl _, next⟩
        · exact ⟨bound, by_contra fun different => stays ⟨positive, different⟩⟩

theorem extend_spec (value : α) {most : Nat} (right : RightUpTo pattern borders most) {read : List α}
    {border : Nat} (known : border ≤ most) (ends : EndsWith pattern read border) :
    EndsWith pattern (read ++ [value]) (extend pattern borders value border) ∧
      extend pattern borders value border ≤ border + 1 ∧
      ∀ k ≤ border, EndsWith pattern (read ++ [value]) (k + 1) →
        k + 1 ≤ extend pattern borders value border := by
  obtain ⟨found_ends, not_found, longest⟩ :=
    fallBack_spec value right border border (Nat.le_refl _) known ends
  have found_le : fallBack pattern borders value border border ≤ border := by
    have general : ∀ rounds start, start ≤ border → start ≤ most → EndsWith pattern read start →
        fallBack pattern borders value rounds start ≤ start := by
      intro rounds
      induction rounds with
      | zero => exact fun start _ _ _ => Nat.le_refl _
      | succ rounds ih =>
        intro start within bound start_ends
        rw [fallBack]
        split
        · next shortens =>
          obtain ⟨shorter, found, is_border⟩ := right start shortens.1 bound
          have less := is_border.shorter
          rw [found, Option.getD_some]
          have later := ih shorter (by omega) (by omega) (start_ends.trans is_border.ends)
          omega
        · exact Nat.le_refl _
    exact general border border (Nat.le_refl _) known ends
  rw [extend]
  split
  · next goes_on =>
    refine ⟨endsWith_concat.mpr ⟨found_ends, goes_on⟩, by omega, ?_⟩
    intro k bound k_ends
    obtain ⟨before, next⟩ := endsWith_concat.mp k_ends
    have least := (longest k bound before next).1
    omega
  · next stops =>
    rw [not_found stops]
    refine ⟨endsWith_zero _ _, Nat.zero_le _, ?_⟩
    intro k bound k_ends
    obtain ⟨before, next⟩ := endsWith_concat.mp k_ends
    exact absurd (longest k bound before next).2 stops

omit [DecidableEq α] in
theorem take_concat {k : Nat} (bound : k < pattern.length) :
    pattern.take (k + 1) = pattern.take k ++ [pattern[k]] := by
  rw [List.take_add_one, List.getElem?_eq_getElem bound]
  rfl

theorem extend_border {length border : Nat} (right : RightUpTo pattern borders length)
    (bound : length < pattern.length) (is_border : Border pattern length border) :
    Border pattern (length + 1) (extend pattern borders pattern[length] border) := by
  have less := is_border.shorter
  obtain ⟨ends, at_most, longest⟩ :=
    extend_spec pattern[length] right (by omega) is_border.ends
  rw [← take_concat bound] at ends longest
  constructor
  · omega
  · exact ends
  · intro other shorter other_ends
    cases other with
    | zero => exact Nat.zero_le _
    | succ k =>
      apply longest k _ other_ends
      rw [take_concat bound] at other_ends
      exact is_border.longest k (by omega) (endsWith_concat.mp other_ends).1

theorem bordersFrom_right {rest : List α} {length border : Nat} (positive : 1 ≤ length)
    (split : pattern = pattern.take length ++ rest) (whole : length ≤ pattern.length)
    (size : borders.length = length + 1) (right : RightUpTo pattern borders length)
    (is_border : Border pattern length border) :
    RightUpTo pattern (bordersFrom pattern rest borders border) pattern.length := by
  induction rest generalizing length border borders with
  | nil =>
    have same : pattern.length = length := by
      have lengths := congrArg List.length split
      rw [List.append_nil, List.length_take] at lengths
      omega
    rw [bordersFrom, same]
    exact right
  | cons value rest ih =>
    have lengths := congrArg List.length split
    rw [List.length_append, List.length_take, List.length_cons] at lengths
    have bound : length < pattern.length := by omega
    have dropped : pattern.drop length = value :: rest := by
      have same := List.take_append_drop length pattern
      rw [split] at same
      rw [← split] at same
      exact List.append_cancel_left (same.trans split)
    have here : pattern[length] = value := by
      have cons := List.drop_eq_getElem_cons bound
      rw [dropped] at cons
      exact (List.cons_eq_cons.mp cons).1.symm
    rw [bordersFrom]
    have next := extend_border right bound is_border
    rw [here] at next
    apply ih (Nat.succ_pos length)
    · rw [take_concat bound, here, List.append_assoc]
      exact split
    · omega
    · rw [List.length_append, size, List.length_singleton]
    · intro other least most
      rcases Nat.lt_or_eq_of_le most with earlier | rfl
      · obtain ⟨own, found, own_border⟩ := right other least (by omega)
        refine ⟨own, ?_, own_border⟩
        rw [List.getElem?_append_left (List.getElem?_eq_some_iff.mp found).1, found]
      · refine ⟨_, ?_, next⟩
        rw [List.getElem?_append_right (by omega), size, Nat.sub_self]
        rfl
    · exact next

theorem bordersOf_right (pattern : List α) : RightUpTo pattern (bordersOf pattern) pattern.length := by
  cases pattern with
  | nil =>
    intro length least most
    rw [List.length_nil] at most
    omega
  | cons first rest =>
    have one : Border (first :: rest) 1 0 :=
      ⟨Nat.zero_lt_one, endsWith_zero _ _, fun other less _ => by omega⟩
    apply bordersFrom_right (Nat.le_refl 1)
    · rfl
    · simp
    · rfl
    · intro length least most
      obtain rfl : length = 1 := by omega
      exact ⟨0, rfl, one⟩
    · exact one

/-- Where to go on from: the whole pattern goes on from its border. -/
def restart (pattern : List α) (borders : List Nat) (border : Nat) : Nat :=
  if border = pattern.length then (borders[border]?).getD 0 else border

def advance (pattern : List α) (borders : List Nat) (value : α) (border : Nat) : Nat :=
  extend pattern borders value (restart pattern borders border)

theorem advance_longest (some_pattern : pattern ≠ []) {read : List α} {border : Nat}
    (h : Longest pattern read border) (value : α) :
    Longest pattern (read ++ [value]) (advance pattern (bordersOf pattern) value border) := by
  have right := bordersOf_right pattern
  have positive : 0 < pattern.length := List.length_pos_iff.mpr some_pattern
  obtain ⟨ends, longest⟩ := h
  have start : EndsWith pattern read (restart pattern (bordersOf pattern) border) ∧
      ∀ k < pattern.length, EndsWith pattern read k → k ≤ restart pattern (bordersOf pattern) border := by
    rw [restart]
    split
    · next whole =>
      obtain ⟨own, found, is_border⟩ := right border (by omega) (by omega)
      rw [found, Option.getD_some]
      refine ⟨ends.trans is_border.ends, ?_⟩
      intro k less k_ends
      exact is_border.longest k (by omega) (ends.nested k_ends (by omega))
    · exact ⟨ends, fun k _ k_ends => longest k k_ends⟩
  obtain ⟨made, _, most⟩ := extend_spec value right start.1.1 start.1
  refine ⟨made, ?_⟩
  intro other other_ends
  cases other with
  | zero => exact Nat.zero_le _
  | succ k =>
    apply most k _ other_ends
    exact start.2 k other_ends.1 (endsWith_concat.mp other_ends).1

omit [DecidableEq α] in
theorem longest_nil (some_pattern : pattern ≠ []) : Longest pattern [] 0 := by
  refine ⟨endsWith_zero _ _, ?_⟩
  rintro other ⟨bound, suffix⟩
  have nothing := List.suffix_nil.mp suffix
  rw [List.take_eq_nil_iff] at nothing
  rcases nothing with rfl | empty
  · exact Nat.le_refl _
  · exact absurd empty some_pattern

omit [DecidableEq α] in
theorem Longest.whole_iff {read : List α} {border : Nat} (h : Longest pattern read border) :
    border = pattern.length ↔ pattern <:+ read := by
  constructor
  · intro whole
    have ends := h.1.2
    rwa [whole, List.take_length] at ends
  · intro suffix
    have all : EndsWith pattern read pattern.length := ⟨Nat.le_refl _, by rwa [List.take_length]⟩
    exact Nat.le_antisymm h.1.1 (h.2 _ all)

end Borders
