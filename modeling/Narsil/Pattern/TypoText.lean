import Narsil.Edits.SharedWindows
import Narsil.Pattern.RequiredRuns

/-!
# The runs of a text that may be mistyped

Of a folded text so many distinct runs are taken that a few typing errors cannot take
all of them.
-/
namespace Narsil.Pattern

def MAX_PATTERN_TOLERANCE : Nat := 2

inductive PatternTolerance
  | fixed (tolerance : Nat)
  | auto
  deriving DecidableEq, Repr

structure TypoText where
  codePoints : Nat
  folded : List Nat
  longestFold : Nat
  deriving DecidableEq, Repr

def TypoText.fold (host : PatternHost) (text : TypoText) (codePoint : Nat) : TypoText where
  codePoints := text.codePoints + 1
  folded := text.folded ++ host.appendFoldedCodePoint codePoint
  longestFold := max text.longestFold (host.appendFoldedCodePoint codePoint).length

def foldTypoText (text : List Nat) (host : PatternHost) : TypoText :=
  text.foldl (TypoText.fold host) ⟨0, [], 0⟩

def keepDistinctRun (folded : List Nat) (runs : List Run) (at_ : Nat) : List Run :=
  match runAt folded at_ with
  | none => runs
  | some run => if run ∈ runs then runs else runs ++ [run]

/-- The runs from the start on, until there are enough. -/
def fillRuns (folded : List Nat) (limit : Nat) : List Nat → List Run → List Run
  | [], runs => runs
  | at_ :: later, runs =>
    if runs.length < limit then fillRuns folded limit later (keepDistinctRun folded runs at_) else runs

/-- Runs spread over a long text first, and then those from its start. -/
def distinctTypoRuns (text : TypoText) (limit : Nat) : List Run :=
  let positions := factorRuns text.folded
  let spread :=
    if positions > limit ∧ limit > 1 then
      ((List.range limit).map (pickTarget positions limit)).foldl (keepDistinctRun text.folded) []
    else []
  fillRuns text.folded limit (List.range positions) spread

def typoRunsNeeded (tolerance longestFold : Nat) : Nat := tolerance * (2 + longestFold) + 1

def typoRunLimit (longestFold : Nat) : Nat :=
  max (typoRunsNeeded MAX_PATTERN_TOLERANCE longestFold) SHORTLIST_RUN_LOOKUPS

/-- The largest tolerance up to one that the runs are enough for. -/
def largestTolerance (longestFold distinctRuns : Nat) : Nat → Nat
  | 0 => 0
  | before + 1 =>
    if distinctRuns ≥ typoRunsNeeded (before + 1) longestFold then before + 1
    else largestTolerance longestFold distinctRuns before

def resolvedTypoTolerance (tolerance : PatternTolerance) (longestFold distinctRuns : Nat) : Nat :=
  match tolerance with
  | .fixed tolerance => tolerance
  | .auto => largestTolerance longestFold distinctRuns MAX_PATTERN_TOLERANCE

section Folded
variable (host : PatternHost) (text : List Nat)

theorem foldl_fold (read : TypoText) :
    (text.foldl (TypoText.fold host) read).codePoints = read.codePoints + text.length ∧
      (text.foldl (TypoText.fold host) read).folded = read.folded ++ foldedValue host true text ∧
      read.longestFold ≤ (text.foldl (TypoText.fold host) read).longestFold ∧
      ∀ codePoint ∈ text, (host.appendFoldedCodePoint codePoint).length ≤
        (text.foldl (TypoText.fold host) read).longestFold := by
  induction text generalizing read with
  | nil => simp [foldedValue]
  | cons codePoint rest ih =>
    obtain ⟨counted, folded, longest, bounded⟩ := ih (read.fold host codePoint)
    rw [List.foldl_cons]
    refine ⟨?_, ?_, ?_, ?_⟩
    · have one : (read.fold host codePoint).codePoints = read.codePoints + 1 := rfl
      rw [counted, one, List.length_cons]
      omega
    · have one : (read.fold host codePoint).folded = read.folded ++ host.appendFoldedCodePoint codePoint :=
        rfl
      rw [folded, one, List.append_assoc]
      rfl
    · exact Nat.le_trans (Nat.le_max_left _ _) longest
    · intro own member
      rcases List.mem_cons.mp member with rfl | later
      · exact Nat.le_trans (Nat.le_max_right _ _) longest
      · exact bounded own later

theorem foldTypoText_codePoints : (foldTypoText text host).codePoints = text.length := by
  rw [foldTypoText, (foldl_fold host text _).1, Nat.zero_add]

theorem foldTypoText_folded : (foldTypoText text host).folded = foldedValue host true text := by
  rw [foldTypoText, (foldl_fold host text _).2.1, List.nil_append]

theorem foldTypoText_longestFold : ∀ codePoint ∈ text,
    (host.appendFoldedCodePoint codePoint).length ≤ (foldTypoText text host).longestFold :=
  (foldl_fold host text _).2.2.2

end Folded

/-- Runs of the folded text, each once. -/
def DistinctRuns (folded : List Nat) (runs : List Run) : Prop :=
  runs.Nodup ∧ ∀ run ∈ runs, run.codePoints <:+: folded

theorem DistinctRuns.keep {folded : List Nat} {runs : List Run} (h : DistinctRuns folded runs) (at_ : Nat) :
    DistinctRuns folded (keepDistinctRun folded runs at_) := by
  unfold keepDistinctRun
  split
  · exact h
  · next run found =>
    split
    · exact h
    · next fresh =>
      constructor
      · exact List.nodup_append.mpr ⟨h.1, List.nodup_singleton _, by grind⟩
      · intro other member
        rcases List.mem_append.mp member with old | new
        · exact h.2 other old
        · exact List.mem_singleton.mp new ▸ runAt_isInfix found

theorem DistinctRuns.foldl {folded : List Nat} (places : List Nat) {runs : List Run}
    (h : DistinctRuns folded runs) : DistinctRuns folded (places.foldl (keepDistinctRun folded) runs) := by
  induction places generalizing runs with
  | nil => exact h
  | cons place rest ih => exact ih (h.keep place)

theorem DistinctRuns.fill {folded : List Nat} {limit : Nat} (places : List Nat) {runs : List Run}
    (h : DistinctRuns folded runs) : DistinctRuns folded (fillRuns folded limit places runs) := by
  induction places generalizing runs with
  | nil => exact h
  | cons place rest ih =>
    rw [fillRuns]
    split
    · exact ih (h.keep place)
    · exact h

theorem distinctTypoRuns_distinct (text : TypoText) (limit : Nat) :
    DistinctRuns text.folded (distinctTypoRuns text limit) := by
  have nothing : DistinctRuns text.folded [] := ⟨List.nodup_nil, by simp⟩
  apply DistinctRuns.fill
  split
  · exact nothing.foldl _
  · exact nothing

theorem Run.codePoints_injective : Function.Injective Run.codePoints := by
  rintro ⟨a, b, c⟩ ⟨a', b', c'⟩ same
  simpa [Run.codePoints] using same

/-- A value within the tolerance has one of so many runs: an edit takes those that reach
    into the fold of one code point, and with a text that is compared folded those that
    reach into one code point of it. -/
theorem typoRuns_kept {host : PatternHost} {caseFold : Bool} {text value : List Nat} {tolerance : Nat}
    {runs : List Run} (distinct : DistinctRuns (foldedValue host true text) runs)
    (many : typoRunsNeeded tolerance (foldTypoText text host).longestFold ≤ runs.length)
    (near : Edits.editDistance (foldedValue host caseFold text) (foldedValue host caseFold value) ≤ tolerance) :
    ∃ run ∈ runs, run.codePoints <:+: foldedValue host true value := by
  have edited := Edits.edited_editDistance (foldedValue host caseFold text) (foldedValue host caseFold value)
  have bounded : ∀ codePoint ∈ foldedValue host caseFold text,
      (refold host caseFold codePoint).length ≤ (foldTypoText text host).longestFold := by
    intro codePoint member
    obtain ⟨source, in_text, folded⟩ := List.mem_flatMap.mp member
    have longest := foldTypoText_longestFold host text source in_text
    cases caseFold with
    | true =>
      -- the code point is in the fold of some other
      exact Nat.le_trans (List.length_pos_of_mem folded) longest
    | false =>
      obtain rfl := List.mem_singleton.mp folded
      exact longest
  have wide : ∀ window ∈ runs.map Run.codePoints, window.length = PATTERN_RUN_CODE_POINTS := by
    intro window member
    obtain ⟨run, _, rfl⟩ := List.mem_map.mp member
    rfl
  have held : ∀ window ∈ runs.map Run.codePoints,
      window <:+: (foldedValue host caseFold text).flatMap (refold host caseFold) := by
    intro window member
    obtain ⟨run, in_runs, rfl⟩ := List.mem_map.mp member
    rw [foldedValue_refold]
    exact distinct.2 run in_runs
  have enough : Edits.editDistance (foldedValue host caseFold text) (foldedValue host caseFold value) *
      ((foldTypoText text host).longestFold + (PATTERN_RUN_CODE_POINTS - 1)) <
        (runs.map Run.codePoints).length := by
    have product := Nat.mul_le_mul_right
      ((foldTypoText text host).longestFold + (PATTERN_RUN_CODE_POINTS - 1)) near
    rw [typoRunsNeeded, Nat.add_comm 2] at many
    rw [List.length_map]
    exact Nat.lt_of_le_of_lt product many
  obtain ⟨window, member, kept⟩ := edited.window_kept (refold host caseFold) bounded
    (distinct.1.map Run.codePoints_injective) wide held enough
  obtain ⟨run, in_runs, rfl⟩ := List.mem_map.mp member
  refine ⟨run, in_runs, ?_⟩
  rwa [foldedValue_refold] at kept

end Narsil.Pattern
