import Mathlib.Order.Compare
import Narsil.Ordering.Strings

/-!
# The case folds, and how they are compared

The full case foldings are packed by the distances of their code points. Two folds are
compared as they are read, and neither is built.
-/
namespace Narsil.Ordering

/-- How often an entry stands in a row, the distance from the code point before, and from
    a code point to its fold. -/
def SINGLE_FOLDS : List (Nat × Nat × Int) := [
  (1, 65, 32), (25, 1, 32), (1, 91, 775), (1, 11, 32), (22, 1, 32), (1, 2, 32), (6, 1, 32), (1, 34, 1), (23, 2, 1),
  (1, 4, 1), (2, 2, 1), (1, 3, 1), (7, 2, 1), (1, 3, 1), (22, 2, 1), (1, 2, -121), (1, 1, 1), (2, 2, 1),
  (1, 2, -268), (1, 2, 210), (1, 1, 1), (1, 2, 1), (1, 2, 206), (1, 1, 1), (1, 2, 205), (1, 1, 205), (1, 1, 1),
  (1, 3, 79), (1, 1, 202), (1, 1, 203), (1, 1, 1), (1, 2, 205), (1, 1, 207), (1, 2, 211), (1, 1, 209), (1, 1, 1),
  (1, 4, 211), (1, 1, 213), (1, 2, 214), (1, 1, 1), (2, 2, 1), (1, 2, 218), (1, 1, 1), (1, 2, 218), (1, 3, 1),
  (1, 2, 218), (1, 1, 1), (1, 2, 217), (1, 1, 217), (1, 1, 1), (1, 2, 1), (1, 2, 219), (1, 1, 1), (1, 4, 1),
  (1, 8, 2), (1, 1, 1), (1, 2, 2), (1, 1, 1), (1, 2, 2), (1, 1, 1), (8, 2, 1), (1, 3, 1), (8, 2, 1), (1, 3, 2),
  (1, 1, 1), (1, 2, 1), (1, 2, -97), (1, 1, -56), (1, 1, 1), (19, 2, 1), (1, 2, -130), (9, 2, 1), (1, 8, 10795),
  (1, 1, 1), (1, 2, -163), (1, 1, 10792), (1, 3, 1), (1, 2, -195), (1, 1, 69), (1, 1, 71), (1, 1, 1), (4, 2, 1),
  (1, 247, 116), (1, 43, 1), (1, 2, 1), (1, 4, 1), (1, 9, 116), (1, 7, 38), (1, 2, 37), (2, 1, 37), (1, 2, 64),
  (1, 2, 63), (1, 1, 63), (1, 2, 32), (16, 1, 32), (1, 2, 32), (8, 1, 32), (1, 23, 1), (1, 13, 8), (1, 1, -30),
  (1, 1, -25), (1, 4, -15), (1, 1, -22), (12, 2, 1), (1, 2, -54), (1, 1, -48), (1, 3, -60), (1, 1, -64), (1, 2, 1),
  (1, 2, -7), (1, 1, 1), (1, 3, -130), (2, 1, -130), (16, 1, 80), (32, 1, 32), (1, 49, 1), (16, 2, 1), (1, 10, 1),
  (26, 2, 1), (1, 2, 15), (1, 1, 1), (6, 2, 1), (1, 3, 1), (47, 2, 1), (1, 3, 48), (37, 1, 48), (1, 2890, 7264),
  (37, 1, 7264), (1, 2, 7264), (1, 6, 7264), (1, 811, -8), (5, 1, -8), (1, 2179, -6222), (1, 1, -6221),
  (1, 1, -6212), (2, 1, -6210), (1, 1, -6211), (1, 1, -6204), (1, 1, -6180), (1, 1, 35267), (1, 1, 1),
  (1, 7, -3008), (42, 1, -3008), (1, 3, -3008), (2, 1, -3008), (1, 321, 1), (74, 2, 1), (1, 7, -58), (1, 5, 1),
  (47, 2, 1), (1, 10, -8), (7, 1, -8), (1, 9, -8), (5, 1, -8), (1, 11, -8), (7, 1, -8), (1, 9, -8), (7, 1, -8),
  (1, 9, -8), (5, 1, -8), (1, 12, -8), (3, 2, -8), (1, 9, -8), (7, 1, -8), (1, 73, -8), (1, 1, -8), (2, 1, -74),
  (1, 3, -7173), (1, 10, -86), (3, 1, -86), (1, 13, -8), (1, 1, -8), (2, 1, -100), (1, 13, -8), (1, 1, -8),
  (2, 1, -112), (1, 1, -7), (1, 12, -128), (1, 1, -128), (2, 1, -126), (1, 299, -7517), (1, 4, -8383),
  (1, 1, -8262), (1, 7, 28), (1, 46, 16), (15, 1, 16), (1, 20, 1), (1, 819, 26), (25, 1, 26), (1, 1841, 48),
  (47, 1, 48), (1, 49, 1), (1, 2, -10743), (1, 1, -3814), (1, 1, -10727), (1, 3, 1), (2, 2, 1), (1, 2, -10780),
  (1, 1, -10749), (1, 1, -10783), (1, 1, -10782), (1, 2, 1), (1, 3, 1), (1, 9, -10815), (1, 1, -10815), (1, 1, 1),
  (49, 2, 1), (1, 9, 1), (1, 2, 1), (1, 5, 1), (1, 31054, 1), (22, 2, 1), (1, 20, 1), (13, 2, 1), (1, 136, 1),
  (6, 2, 1), (1, 4, 1), (30, 2, 1), (1, 11, 1), (1, 2, 1), (1, 2, -35332), (1, 1, 1), (4, 2, 1), (1, 5, 1),
  (1, 2, -42280), (1, 3, 1), (1, 2, 1), (1, 4, 1), (9, 2, 1), (1, 2, -42308), (1, 1, -42319), (1, 1, -42315),
  (1, 1, -42305), (1, 1, -42308), (1, 2, -42258), (1, 1, -42282), (1, 1, -42261), (1, 1, 928), (1, 1, 1),
  (7, 2, 1), (1, 2, -48), (1, 1, -42307), (1, 1, -35384), (1, 1, 1), (1, 2, 1), (1, 2, -42343), (1, 1, 1),
  (7, 2, 1), (1, 2, -42561), (1, 25, 1), (1, 891, -38864), (79, 1, -38864), (1, 21346, 32), (25, 1, 32),
  (1, 1222, 40), (39, 1, 40), (1, 137, 40), (35, 1, 40), (1, 157, 39), (10, 1, 39), (1, 2, 39), (14, 1, 39),
  (1, 2, 39), (6, 1, 39), (1, 2, 39), (1, 1, 39), (1, 1771, 64), (50, 1, 64), (1, 158, 32), (21, 1, 32),
  (1, 2875, 32), (31, 1, 32), (1, 21889, 32), (31, 1, 32), (1, 65, 27), (24, 1, 27), (1, 31304, 34), (33, 1, 34)]

/-- The distance from the code point before, and the folded code points. -/
def MULTI_FOLDS : List (Nat × List Nat) := [
  (223, [115, 115]), (81, [105, 775]), (25, [700, 110]), (167, [106, 780]), (416, [953, 776, 769]),
  (32, [965, 776, 769]), (471, [1381, 1410]), (6415, [104, 817]), (1, [116, 776]), (1, [119, 778]),
  (1, [121, 778]), (1, [97, 702]), (4, [115, 115]), (178, [965, 787]), (2, [965, 787, 768]), (2, [965, 787, 769]),
  (2, [965, 787, 834]), (42, [7936, 953]), (1, [7937, 953]), (1, [7938, 953]), (1, [7939, 953]), (1, [7940, 953]),
  (1, [7941, 953]), (1, [7942, 953]), (1, [7943, 953]), (1, [7936, 953]), (1, [7937, 953]), (1, [7938, 953]),
  (1, [7939, 953]), (1, [7940, 953]), (1, [7941, 953]), (1, [7942, 953]), (1, [7943, 953]), (1, [7968, 953]),
  (1, [7969, 953]), (1, [7970, 953]), (1, [7971, 953]), (1, [7972, 953]), (1, [7973, 953]), (1, [7974, 953]),
  (1, [7975, 953]), (1, [7968, 953]), (1, [7969, 953]), (1, [7970, 953]), (1, [7971, 953]), (1, [7972, 953]),
  (1, [7973, 953]), (1, [7974, 953]), (1, [7975, 953]), (1, [8032, 953]), (1, [8033, 953]), (1, [8034, 953]),
  (1, [8035, 953]), (1, [8036, 953]), (1, [8037, 953]), (1, [8038, 953]), (1, [8039, 953]), (1, [8032, 953]),
  (1, [8033, 953]), (1, [8034, 953]), (1, [8035, 953]), (1, [8036, 953]), (1, [8037, 953]), (1, [8038, 953]),
  (1, [8039, 953]), (3, [8048, 953]), (1, [945, 953]), (1, [940, 953]), (2, [945, 834]), (1, [945, 834, 953]),
  (5, [945, 953]), (6, [8052, 953]), (1, [951, 953]), (1, [942, 953]), (2, [951, 834]), (1, [951, 834, 953]),
  (5, [951, 953]), (6, [953, 776, 768]), (1, [953, 776, 769]), (3, [953, 834]), (1, [953, 776, 834]),
  (11, [965, 776, 768]), (1, [965, 776, 769]), (1, [961, 787]), (2, [965, 834]), (1, [965, 776, 834]),
  (11, [8060, 953]), (1, [969, 953]), (1, [974, 953]), (2, [969, 834]), (1, [969, 834, 953]), (5, [969, 953]),
  (56068, [102, 102]), (1, [102, 105]), (1, [102, 108]), (1, [102, 102, 105]), (1, [102, 102, 108]),
  (1, [115, 116]), (1, [115, 116]), (13, [1396, 1398]), (1, [1396, 1381]), (1, [1396, 1387]), (1, [1406, 1398]),
  (1, [1396, 1389])]

/-- The entries of a row, the first of them past a source. -/
def unpackRow (distance : Nat) (offset : Int) : Nat → Nat → List (Nat × Nat)
  | 0, _ => []
  | times + 1, source =>
    (source + distance, ((source + distance : Nat) + offset).toNat) ::
      unpackRow distance offset times (source + distance)

def unpackSingle : Nat → List (Nat × Nat × Int) → List (Nat × Nat)
  | _, [] => []
  | source, (times, distance, offset) :: rows =>
    unpackRow distance offset times source ++ unpackSingle (source + times * distance) rows

def unpackMulti : Nat → List (Nat × List Nat) → List (Nat × List Nat)
  | _, [] => []
  | source, (distance, folded) :: entries => (source + distance, folded) :: unpackMulti (source + distance) entries

def singleFoldTable : List (Nat × Nat) := unpackSingle 0 SINGLE_FOLDS

def multiFoldTable : List (Nat × List Nat) := unpackMulti 0 MULTI_FOLDS

def caseFolds : FoldTable where
  single codePoint := (singleFoldTable.find? (·.1 = codePoint)).map Prod.snd
  multi codePoint := (multiFoldTable.find? (·.1 = codePoint)).map Prod.snd

def apartFromSurrogates (codePoint : Nat) : Bool := codePoint < 0xd800 || 0xe000 ≤ codePoint

set_option maxRecDepth 100000 in
theorem singleFoldTable_apart :
    singleFoldTable.all (fun entry => apartFromSurrogates entry.1 && apartFromSurrogates entry.2) = true := by
  decide

set_option maxRecDepth 100000 in
theorem multiFoldTable_apart : multiFoldTable.all (fun entry =>
    apartFromSurrogates entry.1 && (!entry.2.isEmpty && entry.2.all apartFromSurrogates)) = true := by
  decide

structure FoldCursor where
  index : Nat
  /-- What is left of the fold of the last code point. -/
  pending : List Nat

def EXHAUSTED : Int := -1

/-- The code point at a unit, and the index past it. -/
def codePointAt (text : JsString) (index : Nat) (unit : UInt16) : Nat × Nat :=
  match text[index + 1]? with
  | none => (unit.toNat, index + 1)
  | some low =>
    if isHighSurrogate unit && isLowSurrogate low then
      (0x10000 + (unit.toNat - 0xd800) * 0x400 + (low.toNat - 0xdc00), index + 2)
    else (unit.toNat, index + 1)

section Streaming
variable (table : FoldTable) (text left right : JsString)

def nextFoldedCodePoint (cursor : FoldCursor) : Int × FoldCursor :=
  match cursor.pending with
  | folded :: pending => (folded, { cursor with pending })
  | [] =>
    match text[cursor.index]? with
    | none => (EXHAUSTED, cursor)
    | some unit =>
      match foldOf table (codePointAt text cursor.index unit).1 with
      | [] => (EXHAUSTED, ⟨(codePointAt text cursor.index unit).2, []⟩)
      | folded :: pending => (folded, ⟨(codePointAt text cursor.index unit).2, pending⟩)

theorem codePointAt_past (index : Nat) (unit : UInt16) : index < (codePointAt text index unit).2 := by
  rw [codePointAt]
  split
  · exact Nat.lt_succ_self _
  · split <;> dsimp only <;> omega

theorem nextFoldedCodePoint_decreases {table : FoldTable} {text : JsString} {cursor : FoldCursor}
    (more : ¬ (nextFoldedCodePoint table text cursor).1 = EXHAUSTED) :
    Prod.Lex (· < ·) (· < ·)
      (text.length - (nextFoldedCodePoint table text cursor).2.index, (nextFoldedCodePoint table text cursor).2.pending.length)
      (text.length - cursor.index, cursor.pending.length) := by
  obtain ⟨index, pending⟩ := cursor
  cases pending with
  | cons folded pending => exact Prod.Lex.right _ (Nat.lt_succ_self _)
  | nil =>
    cases here : text[index]? with
    | none => exact absurd (by simp [nextFoldedCodePoint, here]) more
    | some unit =>
      have within := (List.getElem?_eq_some_iff.mp here).1
      have past := codePointAt_past text index unit
      simp only [nextFoldedCodePoint, here] at more ⊢
      split
      · next empty => exact absurd (by simp [empty]) more
      · exact Prod.Lex.left _ _ (by dsimp only; omega)

/-- Both folds are read until they differ or are at their ends. -/
def foldsDifference (leftCursor rightCursor : FoldCursor) : Int :=
  if (nextFoldedCodePoint table left leftCursor).1 ≠ (nextFoldedCodePoint table right rightCursor).1 then
    (nextFoldedCodePoint table left leftCursor).1 - (nextFoldedCodePoint table right rightCursor).1
  else if (nextFoldedCodePoint table left leftCursor).1 = EXHAUSTED then 0
  else foldsDifference (nextFoldedCodePoint table left leftCursor).2 (nextFoldedCodePoint table right rightCursor).2
termination_by (left.length - leftCursor.index, leftCursor.pending.length)
decreasing_by
  next more => exact nextFoldedCodePoint_decreases more

def caseFoldDifference : Int :=
  if sharedPrefix left right = left.length ∧ sharedPrefix left right = right.length then 0
  else foldsDifference table left right ⟨foldStart left right, []⟩ ⟨foldStart left right, []⟩

end Streaming

section Reading
variable {table : FoldTable} {text left right : JsString}

/-- The folded code points that are not read yet. -/
def unread (table : FoldTable) (text : JsString) (cursor : FoldCursor) : List Nat :=
  cursor.pending ++ foldedCodePoints table (text.drop cursor.index)

theorem codePoints_drop {index : Nat} {unit : UInt16} (here : text[index]? = some unit) :
    codePoints (text.drop index) =
      (codePointAt text index unit).1 :: codePoints (text.drop (codePointAt text index unit).2) := by
  obtain ⟨within, rfl⟩ := List.getElem?_eq_some_iff.mp here
  rw [List.drop_eq_getElem_cons within, codePointAt]
  cases following : text[index + 1]? with
  | none =>
    rw [List.drop_eq_nil_of_le (List.getElem?_eq_none_iff.mp following)]
    rfl
  | some low =>
    obtain ⟨later, rfl⟩ := List.getElem?_eq_some_iff.mp following
    rw [List.drop_eq_getElem_cons later, codePoints]
    dsimp only
    by_cases pair : (isHighSurrogate text[index] && isLowSurrogate text[index + 1]) = true
    · rw [if_pos pair, if_pos pair]
    · rw [if_neg pair, if_neg pair, List.drop_eq_getElem_cons later]

theorem nextFoldedCodePoint_spec (nonempty : ∀ codePoint, foldOf table codePoint ≠ []) (text : JsString)
    (cursor : FoldCursor) :
    match unread table text cursor with
    | [] => (nextFoldedCodePoint table text cursor).1 = EXHAUSTED
    | folded :: rest => (nextFoldedCodePoint table text cursor).1 = folded ∧
        unread table text (nextFoldedCodePoint table text cursor).2 = rest := by
  obtain ⟨index, pending⟩ := cursor
  cases pending with
  | cons folded pending => exact ⟨rfl, rfl⟩
  | nil =>
    simp only [unread, nextFoldedCodePoint, List.nil_append, foldedCodePoints]
    cases here : text[index]? with
    | none =>
      rw [List.drop_eq_nil_of_le (List.getElem?_eq_none_iff.mp here)]
      rfl
    | some unit =>
      rw [codePoints_drop here, List.flatMap_cons]
      cases folds : foldOf table (codePointAt text index unit).1 with
      | nil => exact absurd folds (nonempty _)
      | cons folded pending =>
        dsimp only
        rw [folds]
        exact ⟨rfl, rfl⟩

theorem compare_difference (left right : Nat) : compare ((left : Int) - right) 0 = compare left right := by
  rcases Nat.lt_trichotomy left right with below | rfl | above
  · rw [Nat.compare_eq_lt.mpr below]
    exact Int.compare_eq_lt.mpr (by omega)
  · rw [Nat.compare_eq_eq.mpr rfl]
    exact Int.compare_eq_eq.mpr (by omega)
  · rw [Nat.compare_eq_gt.mpr above]
    exact Int.compare_eq_gt.mpr (by omega)

theorem foldsDifference_spec (nonempty : ∀ codePoint, foldOf table codePoint ≠ []) (leftCursor rightCursor : FoldCursor) :
    compare (foldsDifference table left right leftCursor rightCursor) 0 =
      List.compareLex compare (unread table left leftCursor) (unread table right rightCursor) := by
  generalize rest_is : unread table left leftCursor = rest
  induction rest generalizing leftCursor rightCursor with
  | nil =>
    have left_spec := nextFoldedCodePoint_spec nonempty left leftCursor
    have right_spec := nextFoldedCodePoint_spec nonempty right rightCursor
    rw [rest_is] at left_spec
    dsimp only at left_spec
    rw [foldsDifference, left_spec]
    cases others : unread table right rightCursor with
    | nil =>
      rw [others] at right_spec
      dsimp only at right_spec
      rw [right_spec, if_neg (fun differs => differs rfl), if_pos rfl]
      rfl
    | cons other others' =>
      rw [others] at right_spec
      rw [right_spec.1, EXHAUSTED, if_pos (by omega)]
      exact Int.compare_eq_lt.mpr (by omega)
  | cons folded rest ih =>
    have left_spec := nextFoldedCodePoint_spec nonempty left leftCursor
    have right_spec := nextFoldedCodePoint_spec nonempty right rightCursor
    rw [rest_is] at left_spec
    obtain ⟨left_next, left_rest⟩ := left_spec
    rw [foldsDifference, left_next]
    cases others : unread table right rightCursor with
    | nil =>
      rw [others] at right_spec
      dsimp only at right_spec
      rw [right_spec, EXHAUSTED, if_pos (by omega)]
      exact Int.compare_eq_gt.mpr (by omega)
    | cons other others' =>
      rw [others] at right_spec
      obtain ⟨right_next, right_rest⟩ := right_spec
      rw [right_next, List.compareLex_cons_cons]
      by_cases same : folded = other
      · subst same
        rw [if_neg (fun differs => differs rfl), EXHAUSTED, if_neg (by omega), ih _ _ left_rest, right_rest,
          Nat.compare_eq_eq.mpr rfl]
        rfl
      · rw [if_pos (by omega), compare_difference]
        rcases Nat.lt_or_gt_of_ne same with below | above
        · rw [Nat.compare_eq_lt.mpr below]
          rfl
        · rw [Nat.compare_eq_gt.mpr above]
          rfl

theorem caseFoldDifference_spec (nonempty : ∀ codePoint, foldOf table codePoint ≠ []) (left right : JsString) :
    compare (caseFoldDifference table left right) 0 = compareCaseFolded table left right := by
  rw [caseFoldDifference, compareCaseFolded]
  split
  · rfl
  · exact foldsDifference_spec nonempty _ _

end Reading

end Narsil.Ordering
