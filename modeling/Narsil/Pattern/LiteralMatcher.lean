import Narsil.Search.Borders

/-!
# Testing values for a text

A value is equal to the text, starts with it, ends with it or contains it. The value is
read one code point at a time, and is decided as soon as it can be.
-/
namespace Narsil.Pattern

/-- How many code points may be tried at each place. -/
def reachablePositionsOf (borders : List Nat) (length : Nat) : List Nat :=
  (List.range length).foldl
    (fun reachable at_ =>
      reachable ++ [(if at_ + 1 < length then 1 else 0) +
        (reachable[(borders[at_ + 1]?).getD 0]?).getD 0])
    [0]

structure LiteralMatcher where
  codePoints : List Nat
  anchoredStart : Bool
  anchoredEnd : Bool
  borders : List Nat
  reachable : List Nat
  prefixLength : Nat
  alive : Bool
  accepting : Bool
  decided : Option Bool
  deriving DecidableEq, Repr

namespace LiteralMatcher

def create (codePoints : List Nat) (anchoredStart anchoredEnd : Bool) : LiteralMatcher where
  codePoints := codePoints
  anchoredStart := anchoredStart
  anchoredEnd := anchoredEnd
  borders := Borders.bordersOf codePoints
  reachable := reachablePositionsOf (Borders.bordersOf codePoints) codePoints.length
  prefixLength := 0
  alive := true
  accepting := false
  decided := none

def decide (matcher : LiteralMatcher) (outcome : Bool) : Bool × LiteralMatcher :=
  (false, { matcher with decided := some outcome })

/-- Whether to go on: not once the text is read and the end is open. -/
def settle (matcher : LiteralMatcher) : Bool × LiteralMatcher :=
  if !matcher.anchoredEnd && matcher.accepting then matcher.decide true else (true, matcher)

def begin (matcher : LiteralMatcher) : Bool × LiteralMatcher :=
  settle
    { matcher with
      decided := none
      prefixLength := 0
      alive := matcher.codePoints.length > 0
      accepting := matcher.codePoints.length = 0 }

/-- The code points that the next one is compared with. -/
def steps (matcher : LiteralMatcher) : Nat :=
  if matcher.codePoints.length = 0 then 0
  else if matcher.anchoredStart then
    if matcher.alive && matcher.prefixLength < matcher.codePoints.length then 1 else 0
  else 1 + (matcher.reachable[matcher.prefixLength]?).getD 0

def advanceAnchored (matcher : LiteralMatcher) (codePoint : Nat) : LiteralMatcher :=
  if matcher.codePoints[matcher.prefixLength]? = some codePoint then
    { matcher with
      prefixLength := matcher.prefixLength + 1
      accepting := matcher.prefixLength + 1 = matcher.codePoints.length }
  else { matcher with alive := false, accepting := false }

def advance (matcher : LiteralMatcher) (codePoint : Nat) : LiteralMatcher :=
  let prefixLength :=
    Borders.advance matcher.codePoints matcher.borders codePoint matcher.prefixLength
  { matcher with
    prefixLength := prefixLength
    accepting := prefixLength = matcher.codePoints.length }

def feed (matcher : LiteralMatcher) (codePoint : Nat) : Bool × LiteralMatcher :=
  if matcher.steps = 0 then matcher.decide (!matcher.anchoredStart && matcher.codePoints.length = 0)
  else if matcher.anchoredStart then (matcher.advanceAnchored codePoint).settle
  else (matcher.advance codePoint).settle

def matched (matcher : LiteralMatcher) : Bool :=
  matcher.decided.getD (matcher.anchoredEnd && matcher.accepting)

/-- Code points are fed until the matcher has decided. -/
def feedAll (matcher : LiteralMatcher) : List Nat → LiteralMatcher
  | [] => matcher
  | codePoint :: rest =>
    match matcher.feed codePoint with
    | (true, fed) => fed.feedAll rest
    | (false, fed) => fed

/-- The matcher after one value. -/
def read (matcher : LiteralMatcher) (value : List Nat) : LiteralMatcher :=
  match matcher.begin with
  | (true, begun) => begun.feedAll value
  | (false, begun) => begun

end LiteralMatcher

/-- How a value meets the text. -/
def LiteralMatches (anchoredStart anchoredEnd : Bool) (codePoints value : List Nat) : Prop :=
  match anchoredStart, anchoredEnd with
  | true, true => value = codePoints
  | true, false => codePoints <+: value
  | false, true => codePoints <:+ value
  | false, false => codePoints <:+: value

instance decidableLiteralMatches (anchoredStart anchoredEnd : Bool) (codePoints value : List Nat) :
    Decidable (LiteralMatches anchoredStart anchoredEnd codePoints value) :=
  match anchoredStart, anchoredEnd with
  | true, true => inferInstanceAs (Decidable (value = codePoints))
  | true, false => inferInstanceAs (Decidable (codePoints <+: value))
  | false, true => inferInstanceAs (Decidable (codePoints <:+ value))
  | false, false => inferInstanceAs (Decidable (codePoints <:+: value))

namespace LiteralMatcher
variable {codePoints : List Nat} {anchoredStart anchoredEnd : Bool} {matcher : LiteralMatcher}

/-- The matcher is of this text; what it has read is left open. -/
structure Of (codePoints : List Nat) (anchoredStart anchoredEnd : Bool) (matcher : LiteralMatcher) :
    Prop where
  texts : matcher.codePoints = codePoints
  starts : matcher.anchoredStart = anchoredStart
  ends : matcher.anchoredEnd = anchoredEnd
  tables : matcher.borders = Borders.bordersOf codePoints

theorem create_of (codePoints : List Nat) (anchoredStart anchoredEnd : Bool) :
    Of codePoints anchoredStart anchoredEnd (create codePoints anchoredStart anchoredEnd) :=
  ⟨rfl, rfl, rfl, rfl⟩

theorem settle_cases (matcher : LiteralMatcher) :
    (matcher.anchoredEnd = false ∧ matcher.accepting = true ∧
      matcher.settle = (false, { matcher with decided := some true })) ∨
    ((matcher.anchoredEnd = false → matcher.accepting = false) ∧ matcher.settle = (true, matcher)) := by
  rw [settle, LiteralMatcher.decide]
  cases matcher.anchoredEnd <;> cases matcher.accepting <;> simp

theorem Of.settle (h : Of codePoints anchoredStart anchoredEnd matcher) :
    Of codePoints anchoredStart anchoredEnd matcher.settle.2 := by
  rcases settle_cases matcher with ⟨_, _, same⟩ | ⟨_, same⟩
  · rw [same]
    exact ⟨h.texts, h.starts, h.ends, h.tables⟩
  · rw [same]
    exact h

theorem Of.feed (h : Of codePoints anchoredStart anchoredEnd matcher) (codePoint : Nat) :
    Of codePoints anchoredStart anchoredEnd (matcher.feed codePoint).2 := by
  obtain ⟨texts, starts, ends, tables⟩ := h
  unfold LiteralMatcher.feed
  split
  · exact ⟨texts, starts, ends, tables⟩
  · split
    · apply Of.settle
      unfold advanceAnchored
      split <;> exact ⟨texts, starts, ends, tables⟩
    · apply Of.settle
      exact ⟨texts, starts, ends, tables⟩

theorem Of.feedAll (h : Of codePoints anchoredStart anchoredEnd matcher) (value : List Nat) :
    Of codePoints anchoredStart anchoredEnd (matcher.feedAll value) := by
  induction value generalizing matcher with
  | nil => exact h
  | cons codePoint rest ih =>
    have fed := h.feed codePoint
    rw [LiteralMatcher.feedAll]
    generalize matcher.feed codePoint = result at fed
    obtain ⟨goes_on, later⟩ := result
    cases goes_on with
    | true => exact ih fed
    | false => exact fed

theorem Of.begin (h : Of codePoints anchoredStart anchoredEnd matcher) :
    Of codePoints anchoredStart anchoredEnd matcher.begin.2 := by
  apply Of.settle
  exact ⟨h.texts, h.starts, h.ends, h.tables⟩

theorem Of.read (h : Of codePoints anchoredStart anchoredEnd matcher) (value : List Nat) :
    Of codePoints anchoredStart anchoredEnd (matcher.read value) := by
  have begun := h.begin
  rw [LiteralMatcher.read]
  generalize matcher.begin = result at begun
  obtain ⟨goes_on, later⟩ := result
  cases goes_on with
  | true => exact begun.feedAll value
  | false => exact begun

/-- What a matcher anchored at the start knows of the code points read. -/
structure Along (codePoints : List Nat) (anchoredEnd : Bool) (read : List Nat)
    (matcher : LiteralMatcher) : Prop where
  undecided : matcher.decided = none
  waiting : anchoredEnd = false → matcher.accepting = false
  follows : (matcher.alive = true ∧ matcher.prefixLength = read.length ∧ read <+: codePoints ∧
      (matcher.accepting = true ↔ read = codePoints)) ∨
    (matcher.alive = false ∧ matcher.accepting = false ∧ ¬ read <+: codePoints ∧
      ¬ codePoints <+: read)

theorem matches_from_start (anchoredEnd : Bool) (codePoints value : List Nat) :
    LiteralMatches true anchoredEnd codePoints value ↔
      codePoints <+: value ∧ (anchoredEnd = true → value = codePoints) := by
  cases anchoredEnd with
  | true =>
    simp only [LiteralMatches, forall_const]
    constructor
    · rintro rfl
      exact ⟨List.prefix_rfl, rfl⟩
    · exact fun both => both.2
  | false => simp [LiteralMatches]

theorem feed_anchored (some_text : codePoints ≠ []) (h : Of codePoints true anchoredEnd matcher)
    {read : List Nat} (along : Along codePoints anchoredEnd read matcher) (codePoint : Nat) :
    match matcher.feed codePoint with
    | (true, fed) => Along codePoints anchoredEnd (read ++ [codePoint]) fed
    | (false, fed) => ∃ outcome, fed.decided = some outcome ∧
        ∀ rest, outcome = true ↔
          LiteralMatches true anchoredEnd codePoints (read ++ codePoint :: rest) := by
  have length_pos : 0 < codePoints.length := List.length_pos_iff.mpr some_text
  obtain ⟨undecided, waiting, ⟨alive, at_place, reads, accepts⟩ | ⟨dead, not_accepting, off, not_within⟩⟩ :=
    along
  · by_cases whole : read = codePoints
    · -- the text was read before, and this code point is one too many
      have stuck : matcher.steps = 0 := by
        unfold steps
        rw [h.texts, h.starts, alive, at_place, whole, if_neg (by omega)]
        simp
      have ended : anchoredEnd = true := by
        by_contra not_ended
        have not_accepting := waiting (by simpa using not_ended)
        rw [accepts.mpr whole] at not_accepting
        exact absurd not_accepting (by simp)
      rw [LiteralMatcher.feed, if_pos stuck]
      refine ⟨_, rfl, ?_⟩
      intro rest
      rw [h.starts, matches_from_start, ended, whole]
      simp
    · have less : read.length < codePoints.length := by
        apply Nat.lt_of_le_of_ne reads.length_le
        exact fun same => whole (reads.eq_of_length same)
      have goes_on : matcher.steps ≠ 0 := by
        unfold steps
        rw [h.texts, h.starts, alive, at_place, if_neg (by omega)]
        simp [less]
      rw [LiteralMatcher.feed, if_neg goes_on, if_pos h.starts, advanceAnchored, h.texts, at_place]
      by_cases same : codePoints[read.length]? = some codePoint
      · have longer : read ++ [codePoint] <+: codePoints := by
          obtain ⟨after, split⟩ := reads
          rw [← split, List.getElem?_append_right (Nat.le_refl _), Nat.sub_self] at same
          cases after with
          | nil => exact absurd same (by simp)
          | cons first after =>
            obtain rfl : first = codePoint := by simpa using same
            exact ⟨after, by rw [← split, List.append_assoc]; rfl⟩
        have full : read.length + 1 = codePoints.length ↔ read ++ [codePoint] = codePoints := by
          constructor
          · intro lengths
            apply longer.eq_of_length
            rw [List.length_append, List.length_singleton, lengths]
          · intro equal
            rw [← equal, List.length_append, List.length_singleton]
        rw [if_pos same]
        rcases settle_cases
            { matcher with
              prefixLength := read.length + 1
              accepting := Decidable.decide (read.length + 1 = codePoints.length) } with
          ⟨open_end, accepts_now, settled⟩ | ⟨waits, settled⟩
        · rw [h.texts] at settled
          rw [settled]
          refine ⟨true, rfl, ?_⟩
          intro rest
          have ended : anchoredEnd = false := h.ends.symm.trans open_end
          rw [matches_from_start, ended]
          simp only [true_iff]
          refine ⟨⟨rest, ?_⟩, fun absurd_end => absurd absurd_end (by simp)⟩
          rw [← full.mp (decide_eq_true_iff.mp accepts_now), List.append_assoc]
          rfl
        · rw [h.texts] at settled
          rw [settled]
          refine ⟨undecided, fun open_end => waits (h.ends.trans open_end), Or.inl ⟨alive, ?_, longer, ?_⟩⟩
          · rw [List.length_append, List.length_singleton]
          · exact decide_eq_true_iff.trans full
      · rw [if_neg same]
        rcases settle_cases { matcher with alive := false, accepting := false } with
          ⟨_, accepts_now, _⟩ | ⟨_, settled⟩
        · exact absurd accepts_now (by simp)
        rw [h.texts, at_place] at settled
        rw [settled]
        have off : ¬ read ++ [codePoint] <+: codePoints := by
          rintro ⟨after, split⟩
          apply same
          rw [← split, List.append_assoc, List.getElem?_append_right (Nat.le_refl _), Nat.sub_self]
          rfl
        refine ⟨undecided, fun _ => rfl, Or.inr ⟨rfl, rfl, off, ?_⟩⟩
        intro within
        have bound := within.length_le
        rw [List.length_append, List.length_singleton] at bound
        have lengths : codePoints.length = (read ++ [codePoint]).length := by
          rw [List.length_append, List.length_singleton]
          omega
        exact off (within.eq_of_length lengths ▸ List.prefix_rfl)
  · have stuck : matcher.steps = 0 := by
      unfold steps
      rw [h.starts, dead]
      simp
    rw [LiteralMatcher.feed, if_pos stuck]
    refine ⟨_, rfl, ?_⟩
    intro rest
    rw [h.starts, matches_from_start]
    simp only [Bool.not_true, Bool.false_and, Bool.false_eq_true, false_iff, not_and]
    intro within
    rcases List.prefix_or_prefix_of_prefix within (List.prefix_append read _) with short | long
    · exact absurd short not_within
    · exact absurd long off

theorem feedAll_anchored (some_text : codePoints ≠ []) (h : Of codePoints true anchoredEnd matcher)
    {read : List Nat} (along : Along codePoints anchoredEnd read matcher) (value : List Nat) :
    (matcher.feedAll value).matched = true ↔
      LiteralMatches true anchoredEnd codePoints (read ++ value) := by
  induction value generalizing matcher read with
  | nil =>
    rw [LiteralMatcher.feedAll, matched, along.undecided, Option.getD_none, h.ends,
      List.append_nil, matches_from_start]
    cases anchoredEnd with
    | true =>
      rw [Bool.true_and]
      rcases along.follows with ⟨_, _, _, accepts⟩ | ⟨_, not_accepting, _, not_within⟩
      · rw [accepts]
        constructor
        · rintro rfl
          exact ⟨List.prefix_rfl, fun _ => rfl⟩
        · exact fun both => both.2 rfl
      · simp [not_accepting, not_within]
    | false =>
      have not_accepting := along.waiting rfl
      simp only [Bool.false_and, Bool.false_eq_true, false_implies, and_true, false_iff]
      rcases along.follows with ⟨_, _, reads, accepts⟩ | ⟨_, _, _, not_within⟩
      · intro within
        have same := accepts.mpr (reads.eq_of_length (Nat.le_antisymm reads.length_le within.length_le))
        rw [not_accepting] at same
        exact absurd same (by simp)
      · exact not_within
  | cons codePoint rest ih =>
    have step := feed_anchored some_text h along codePoint
    have still := h.feed codePoint
    rw [LiteralMatcher.feedAll]
    generalize matcher.feed codePoint = result at step still
    obtain ⟨goes_on, fed⟩ := result
    cases goes_on with
    | true =>
      have later := ih still step
      rw [List.append_assoc] at later
      exact later
    | false =>
      obtain ⟨outcome, decided, right⟩ := step
      rw [← right rest, matched, decided, Option.getD_some]

/-- What a matcher not anchored at the start knows of the code points read. -/
structure Within (codePoints : List Nat) (anchoredEnd : Bool) (read : List Nat)
    (matcher : LiteralMatcher) : Prop where
  undecided : matcher.decided = none
  longest : Borders.Longest codePoints read matcher.prefixLength
  accepts : matcher.accepting = true ↔ codePoints <:+ read
  absent : anchoredEnd = false → ¬ codePoints <:+: read

theorem feed_unanchored (some_text : codePoints ≠ []) (h : Of codePoints false anchoredEnd matcher)
    {read : List Nat} (within : Within codePoints anchoredEnd read matcher) (codePoint : Nat) :
    match matcher.feed codePoint with
    | (true, fed) => Within codePoints anchoredEnd (read ++ [codePoint]) fed
    | (false, fed) => fed.decided = some true ∧ anchoredEnd = false ∧
        codePoints <:+ read ++ [codePoint] := by
  have goes_on : matcher.steps ≠ 0 := by
    have length_pos : 0 < codePoints.length := List.length_pos_iff.mpr some_text
    unfold steps
    rw [h.texts, h.starts, if_neg (by omega), if_neg (by simp)]
    omega
  have longest := Borders.advance_longest some_text within.longest codePoint
  have accepts := longest.whole_iff
  rw [LiteralMatcher.feed, if_neg goes_on, if_neg (by simp [h.starts]), advance, h.texts, h.tables]
  rcases settle_cases
      { matcher with
        prefixLength :=
          Borders.advance codePoints (Borders.bordersOf codePoints) codePoint matcher.prefixLength
        accepting := Decidable.decide
          (Borders.advance codePoints (Borders.bordersOf codePoints) codePoint matcher.prefixLength =
            codePoints.length) } with
    ⟨open_end, accepts_now, settled⟩ | ⟨waits, settled⟩
  · rw [h.texts, h.tables] at settled
    rw [settled]
    exact ⟨rfl, h.ends.symm.trans open_end, accepts.mp (decide_eq_true_iff.mp accepts_now)⟩
  · rw [h.texts, h.tables] at settled
    rw [settled]
    refine ⟨within.undecided, longest, decide_eq_true_iff.trans accepts, ?_⟩
    intro open_end found
    rcases List.infix_concat_iff.mp found with ends | before
    · have accepts_now := waits (h.ends.trans open_end)
      exact absurd (accepts.mpr ends) (decide_eq_false_iff_not.mp accepts_now)
    · exact within.absent open_end before

theorem feedAll_unanchored (some_text : codePoints ≠ []) (h : Of codePoints false anchoredEnd matcher)
    {read : List Nat} (within : Within codePoints anchoredEnd read matcher) (value : List Nat) :
    (matcher.feedAll value).matched = true ↔
      LiteralMatches false anchoredEnd codePoints (read ++ value) := by
  induction value generalizing matcher read with
  | nil =>
    rw [LiteralMatcher.feedAll, matched, within.undecided, Option.getD_none, h.ends,
      List.append_nil]
    cases anchoredEnd with
    | true => exact within.accepts
    | false =>
      simp only [Bool.false_and, Bool.false_eq_true, false_iff]
      exact within.absent rfl
  | cons codePoint rest ih =>
    have step := feed_unanchored some_text h within codePoint
    have still := h.feed codePoint
    rw [LiteralMatcher.feedAll]
    generalize matcher.feed codePoint = result at step still
    obtain ⟨goes_on, fed⟩ := result
    cases goes_on with
    | true =>
      have later := ih still step
      rw [List.append_assoc] at later
      exact later
    | false =>
      obtain ⟨decided, open_end, ends⟩ := step
      have found : codePoints <:+: read ++ codePoint :: rest := by
        obtain ⟨before, same⟩ := ends
        refine ⟨before, rest, ?_⟩
        rw [same, List.append_assoc]
        rfl
      dsimp only
      rw [matched, decided, Option.getD_some, open_end]
      simpa [LiteralMatches] using found

theorem read_empty (h : Of [] anchoredStart anchoredEnd matcher) (value : List Nat) :
    (matcher.read value).matched = true ↔ LiteralMatches anchoredStart anchoredEnd [] value := by
  obtain ⟨texts, starts, ends, tables⟩ := h
  unfold LiteralMatcher.read LiteralMatcher.begin
  rw [texts, ends]
  cases anchoredEnd with
  | false => cases anchoredStart <;> simp [settle, LiteralMatcher.decide, matched, LiteralMatches]
  | true =>
    cases value with
    | nil => cases anchoredStart <;> simp [settle, feedAll, matched, LiteralMatches]
    | cons codePoint rest =>
      cases anchoredStart <;>
        simp [settle, feedAll, feed, steps, starts, LiteralMatcher.decide, matched, LiteralMatches]

theorem read_matched (h : Of codePoints anchoredStart anchoredEnd matcher) (value : List Nat) :
    (matcher.read value).matched = true ↔
      LiteralMatches anchoredStart anchoredEnd codePoints value := by
  by_cases some_text : codePoints = []
  · subst some_text
    exact read_empty h value
  · have begun_of := h.begin
    have positive : 0 < codePoints.length := List.length_pos_iff.mpr some_text
    have goes_on : matcher.begin = (true,
        { matcher with decided := none, prefixLength := 0, alive := true, accepting := false }) := by
      unfold LiteralMatcher.begin
      simp [settle, h.texts, some_text, positive]
    rw [goes_on] at begun_of
    rw [LiteralMatcher.read, goes_on]
    cases anchoredStart with
    | true =>
      have along : Along codePoints anchoredEnd []
          { matcher with decided := none, prefixLength := 0, alive := true, accepting := false } :=
        ⟨rfl, fun _ => rfl, Or.inl ⟨rfl, rfl, List.nil_prefix, by simpa using Ne.symm some_text⟩⟩
      exact feedAll_anchored some_text begun_of along value
    | false =>
      have within : Within codePoints anchoredEnd []
          { matcher with decided := none, prefixLength := 0, alive := true, accepting := false } :=
        ⟨rfl, Borders.longest_nil some_text, by simpa using some_text, fun _ => by simpa using some_text⟩
      exact feedAll_unanchored some_text begun_of within value

/-- A value given to the matcher, of which the caller reads only the first code points
where its work runs out. -/
structure Trial where
  value : List Nat
  abandonedAfter : Option Nat

/-- What one matcher answers for values tested in turn; an abandoned value has no answer. -/
def answers (matcher : LiteralMatcher) : List Trial → List (Option Bool)
  | [] => []
  | ⟨value, none⟩ :: rest => some (matcher.read value).matched :: (matcher.read value).answers rest
  | ⟨value, some length⟩ :: rest => none :: (matcher.read (value.take length)).answers rest

theorem answers_of (h : Of codePoints anchoredStart anchoredEnd matcher) (trials : List Trial) :
    matcher.answers trials = trials.map fun trial =>
      if trial.abandonedAfter = none then
        some (Decidable.decide (LiteralMatches anchoredStart anchoredEnd codePoints trial.value))
      else none := by
  induction trials generalizing matcher with
  | nil => rfl
  | cons trial rest ih =>
    obtain ⟨value, abandonedAfter⟩ := trial
    cases abandonedAfter with
    | none =>
      have right := read_matched h value
      rw [answers, ih (h.read value), List.map_cons, if_pos rfl]
      congr 2
      exact (Bool.decide_coe _).symm.trans (decide_eq_decide.mpr right)
    | some length =>
      rw [answers, ih (h.read (value.take length)), List.map_cons, if_neg (by simp)]

/-- Equality, prefix, suffix and containment are answered for every value as they are
defined, whatever the same matcher was given before. -/
theorem literalMatcher_answers (codePoints : List Nat) (anchoredStart anchoredEnd : Bool) (trials : List Trial) :
    (create codePoints anchoredStart anchoredEnd).answers trials = trials.map fun trial =>
      if trial.abandonedAfter = none then
        some (Decidable.decide (LiteralMatches anchoredStart anchoredEnd codePoints trial.value))
      else none :=
  answers_of (create_of codePoints anchoredStart anchoredEnd) trials

/-- "aab" is looked for after a value that ends within it. -/
example : (create [97, 97, 98] false false).answers
    [⟨[97, 97], none⟩, ⟨[98], none⟩, ⟨[97, 97, 97, 98, 99], some 3⟩, ⟨[97, 97, 97, 98, 99], none⟩] =
      [some false, some false, none, some true] := by decide

end LiteralMatcher

end Narsil.Pattern
