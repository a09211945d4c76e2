import Narsil.Pattern.Positions
import Narsil.Pattern.RegexCompleteness

/-!
# What a number range spans

`numberRange` writes a text of the grammar, whose node spans just the digits between the two
bounds, at any nesting that the reader allows and within the limit on positions.

**Strategy:** a piece of the text is kept together with the pieces the grammar reads it as, the
texts these span, and how many positions they have at most. Texts are then put together the
way `numberRange` does it.
-/
namespace Narsil.Pattern

open RegexReader

/-- Folding leaves the digits alone. -/
def DigitsFold (host : PatternHost) (caseFold : Bool) : Prop :=
  caseFold = true → (∀ digit, isDigit digit → host.appendFoldedCodePoint digit = [digit]) ∧
    ∀ source folded, (source, folded) ∈ host.singleFolds → isDigit source → folded = source

/-- What groups may hold where so many levels are left. -/
def groupAt (Expands : NumberBounds → PatternNode → Prop) : (levels : Nat) → List Nat → PatternNode → Prop
  | 0 => fun _ _ => False
  | levels + 1 => PatternText Expands levels

theorem patternText_iff {Expands : NumberBounds → PatternNode → Prop} {levels : Nat} {text : List Nat}
    {node : PatternNode} : PatternText Expands levels text node ↔
      ∃ branches, BranchesText (groupAt Expands levels) Expands text branches ∧ node = patternNode branches := by
  cases levels <;> rfl

/-! ### Spans of texts -/

theorem spansText_append {value front back : List Nat} {i k : Nat} :
    SpansText value (front ++ back) i k ↔ ∃ j, SpansText value front i j ∧ SpansText value back j k := by
  constructor
  · rintro ⟨⟨rest, whole⟩, rfl⟩
    refine ⟨i + front.length, ⟨⟨back ++ rest, by rw [← whole, List.append_assoc]⟩, rfl⟩, ⟨rest, ?_⟩, ?_⟩
    · rw [← List.drop_drop, ← whole, List.append_assoc, List.drop_left]
    · rw [List.length_append, Nat.add_assoc]
  · rintro ⟨_, ⟨⟨rest, whole⟩, rfl⟩, ⟨rest', left⟩, rfl⟩
    rw [← List.drop_drop, ← whole, List.drop_left] at left
    refine ⟨⟨rest', ?_⟩, by rw [List.length_append, Nat.add_assoc]⟩
    rw [← whole, ← left, List.append_assoc]

theorem spansText_nil {value : List Nat} {i j : Nat} : SpansText value [] i j ↔ i = j :=
  ⟨fun spans => spans.2.symm, fun same => ⟨List.nil_prefix, same.symm⟩⟩

theorem spansOne_iff {value : List Nat} {accepted : Nat → Prop} {i j : Nat} :
    SpansOne value accepted i j ↔ ∃ codePoint, accepted codePoint ∧ SpansText value [codePoint] i j := by
  have one (codePoint : Nat) : [codePoint] <+: value.drop i ↔ value[i]? = some codePoint := by
    rw [← List.head?_drop]
    cases value.drop i with
    | nil => simp
    | cons first rest => simp [List.cons_prefix_cons, eq_comm]
  constructor
  · rintro ⟨codePoint, found, holds, rfl⟩
    exact ⟨codePoint, holds, (one codePoint).mpr found, rfl⟩
  · rintro ⟨codePoint, holds, found, rfl⟩
    exact ⟨codePoint, (one codePoint).mp found, holds, rfl⟩

theorem iterate_spansOne {value : List Nat} {accepted : Nat → Prop} {n i j : Nat} :
    Spans.Iterate (SpansOne value accepted) n i j ↔
      ∃ text, (text.length = n ∧ ∀ codePoint ∈ text, accepted codePoint) ∧ SpansText value text i j := by
  induction n generalizing i with
  | zero =>
    rw [Spans.Iterate]
    constructor
    · intro same
      refine ⟨[], ⟨rfl, ?_⟩, spansText_nil.mpr same⟩
      intro codePoint isIn
      cases isIn
    · rintro ⟨text, ⟨empty, -⟩, spans⟩
      rw [List.length_eq_zero_iff.mp empty] at spans
      exact spansText_nil.mp spans
  | succ n ih =>
    simp only [Spans.Iterate, ih, spansOne_iff]
    constructor
    · rintro ⟨mid, ⟨codePoint, holds, first⟩, rest, ⟨length, all⟩, later⟩
      exact ⟨codePoint :: rest, ⟨congrArg (· + 1) length, List.forall_mem_cons.mpr ⟨holds, all⟩⟩,
        spansText_append.mpr ⟨mid, first, later⟩⟩
    · rintro ⟨text, ⟨length, all⟩, spans⟩
      cases text with
      | nil => cases length
      | cons codePoint rest =>
        obtain ⟨mid, first, later⟩ := spansText_append.mp (show SpansText value ([codePoint] ++ rest) i j from spans)
        obtain ⟨holds, all⟩ := List.forall_mem_cons.mp all
        exact ⟨mid, ⟨codePoint, holds, first⟩, rest, ⟨Nat.succ.inj length, all⟩, later⟩

/-! ### Pieces of a number range -/

/-- The pieces span just these texts. -/
def Accepts (host : PatternHost) (caseFold : Bool) (items : List PatternNode) (texts : List Nat → Prop) : Prop :=
  ∀ value i j, sequenceSpans host caseFold value items i j ↔ ∃ text, texts text ∧ SpansText value text i j

/-- A text of the grammar: the pieces it is read as, what they span, and how many positions
they have at most. -/
structure Writes (width : Nat) (text : List Nat) (texts : List Nat → Prop) (most : Nat)
    (items : List PatternNode) : Prop where
  grammar : ∀ Expands levels, width ≤ levels → PiecesText (groupAt Expands levels) Expands text items
  accepts : ∀ host caseFold, DigitsFold host caseFold → Accepts host caseFold items texts
  positions : ∀ host caseFold, DigitsFold host caseFold → nodePositionsOfEach caseFold host items ≤ most

variable {width most more : Nat} {text rest : List Nat} {texts others : List Nat → Prop}
  {items later : List PatternNode}

theorem Writes.mono (writes : Writes width text texts most items) {wider : Nat} (fits : width ≤ wider)
    (same : ∀ text, texts text ↔ others text) (enough : most ≤ more) : Writes wider text others more items where
  grammar Expands levels within := writes.grammar Expands levels (fits.trans within)
  accepts host caseFold folds value i j := by
    rw [writes.accepts host caseFold folds value i j]
    simp only [same]
  positions host caseFold folds := (writes.positions host caseFold folds).trans enough

theorem sequenceSpans_append {host : PatternHost} {caseFold : Bool} {value : List Nat} (front back : List PatternNode)
    {i k : Nat} : sequenceSpans host caseFold value (front ++ back) i k ↔
      ∃ j, sequenceSpans host caseFold value front i j ∧ sequenceSpans host caseFold value back j k := by
  induction front generalizing i with
  | nil => simp [sequenceSpans]
  | cons item front ih =>
    simp only [List.cons_append, sequenceSpans, ih]
    constructor
    · rintro ⟨mid, first, j, left, right⟩
      exact ⟨j, ⟨mid, first, left⟩, right⟩
    · rintro ⟨j, ⟨mid, first, left⟩, right⟩
      exact ⟨mid, first, j, left, right⟩

theorem nodePositionsOfEach_append (caseFold : Bool) (host : PatternHost) (front back : List PatternNode) :
    nodePositionsOfEach caseFold host (front ++ back) =
      nodePositionsOfEach caseFold host front + nodePositionsOfEach caseFold host back := by
  induction front with
  | nil => simp [nodePositionsOfEach]
  | cons item front ih => rw [List.cons_append, nodePositionsOfEach, nodePositionsOfEach, ih, Nat.add_assoc]

theorem PiecesText.append {Group : List Nat → PatternNode → Prop} {Expands : NumberBounds → PatternNode → Prop}
    (front : PiecesText Group Expands text items) (back : PiecesText Group Expands rest later) :
    PiecesText Group Expands (text ++ rest) (items ++ later) := by
  induction front with
  | nil => exact back
  | cons first others ih =>
    rw [List.append_assoc]
    exact .cons first ih

theorem Writes.nil : Writes 0 [] (· = []) 0 [] where
  grammar _ _ _ := .nil
  accepts host caseFold _ value i j := by
    rw [sequenceSpans]
    constructor
    · exact fun same => ⟨[], rfl, spansText_nil.mpr same⟩
    · rintro ⟨_, rfl, spans⟩
      exact spansText_nil.mp spans
  positions _ _ _ := Nat.le_refl 0

theorem Writes.append (front : Writes width text texts most items) (back : Writes width rest others more later) :
    Writes width (text ++ rest) (fun whole => ∃ left right, whole = left ++ right ∧ texts left ∧ others right)
      (most + more) (items ++ later) where
  grammar Expands levels within := (front.grammar Expands levels within).append (back.grammar Expands levels within)
  accepts host caseFold folds value i k := by
    simp only [sequenceSpans_append, front.accepts host caseFold folds value,
      back.accepts host caseFold folds value]
    constructor
    · rintro ⟨j, ⟨left, isLeft, first⟩, right, isRight, second⟩
      exact ⟨left ++ right, ⟨left, right, rfl, isLeft, isRight⟩, spansText_append.mpr ⟨j, first, second⟩⟩
    · rintro ⟨_, ⟨left, right, rfl, isLeft, isRight⟩, spans⟩
      obtain ⟨j, first, second⟩ := spansText_append.mp spans
      exact ⟨j, ⟨left, isLeft, first⟩, right, isRight, second⟩
  positions host caseFold folds := by
    rw [nodePositionsOfEach_append]
    exact Nat.add_le_add (front.positions host caseFold folds) (back.positions host caseFold folds)

theorem sequenceSpans_one {host : PatternHost} {caseFold : Bool} {value : List Nat} (item : PatternNode) {i j : Nat} :
    sequenceSpans host caseFold value [item] i j ↔ item.Spans host caseFold value i j := by
  simp [sequenceSpans]

theorem digit_unreserved {digit : Nat} (bounds : ZERO ≤ digit ∧ digit ≤ NINE) :
    digit ∉ RESERVED ∧ digit ∉ [BACKSLASH, OPEN_BRACKET, CLOSE_BRACKET, HYPHEN] := by
  simp only [ZERO, NINE] at bounds
  obtain ⟨low, high⟩ := bounds
  interval_cases digit <;> decide

theorem Writes.digit {digit : Nat} (bounds : ZERO ≤ digit ∧ digit ≤ NINE) :
    Writes 0 [digit] (· = [digit]) 1 [.literal digit] := by
  have folded {host : PatternHost} {caseFold : Bool} (folds : DigitsFold host caseFold) :
      foldOf host caseFold digit = [digit] := by
    rw [foldOf]
    split
    next fold => exact (folds fold).1 digit (isDigit_iff.mpr bounds)
    next => rfl
  refine ⟨fun _ _ _ => .cons (.bare (.literal (digit_unreserved bounds).1)) .nil, fun host caseFold folds value i j => ?_,
    fun host caseFold folds => ?_⟩
  · rw [sequenceSpans_one, PatternNode.Spans, folded folds]
    simp
  · simp [nodePositionsOfEach, nodePositions, folded folds]

theorem setSpans_digits {host : PatternHost} {caseFold : Bool} (folds : DigitsFold host caseFold) {low high : Nat}
    (ordered : low ≤ high) (lowBounds : ZERO ≤ low) (highBounds : high ≤ NINE) {value : List Nat} {i j : Nat} :
    SetSpans host caseFold value false [.range low high ordered] i j ↔
      SpansOne value (fun codePoint => low ≤ codePoint ∧ codePoint ≤ high) i j := by
  have inSet (codePoint : Nat) : InSet [.range low high ordered] codePoint ↔ low ≤ codePoint ∧ codePoint ≤ high := by
    simp [InSet, SetItem.Holds]
  have held (codePoint : Nat) : ((if caseFold then InFoldedSet [.range low high ordered] host codePoint
      else InSet [.range low high ordered] codePoint) ↔ false = false) ↔ low ≤ codePoint ∧ codePoint ≤ high := by
    rw [iff_true_right rfl]
    split
    next fold =>
      rw [InFoldedSet, inSet, or_iff_left_of_imp]
      rintro ⟨source, listed, inside⟩
      rw [inSet] at inside
      have digit : isDigit source := isDigit_iff.mpr ⟨lowBounds.trans inside.1, inside.2.trans highBounds⟩
      rw [(folds fold).2 source codePoint listed digit]
      exact inside
    next => exact inSet codePoint
  rw [SetSpans]
  constructor
  · rintro (⟨codePoint, found, holds, rfl⟩ | ⟨-, -, codePoint, listed, -⟩)
    · exact ⟨codePoint, found, (held codePoint).mp holds, rfl⟩
    · simp at listed
  · rintro ⟨codePoint, found, holds, rfl⟩
    exact .inl ⟨codePoint, found, (held codePoint).mpr holds, rfl⟩

theorem setPositions_digits {host : PatternHost} {caseFold : Bool} {low high : Nat} (ordered : low ≤ high) :
    nodePositions caseFold host (.set false [.range low high ordered]) = 1 := by
  rw [nodePositions]
  split <;> rfl

theorem memberText_digit {digit : Nat} (bounds : ZERO ≤ digit ∧ digit ≤ NINE) : MemberText [digit] digit :=
  .plain (digit_unreserved bounds).2

theorem atomText_rangeSet {Group : List Nat → PatternNode → Prop} {Expands : NumberBounds → PatternNode → Prop}
    {low high : Nat} (ordered : low ≤ high) (lowBounds : ZERO ≤ low ∧ low ≤ NINE) (highBounds : ZERO ≤ high ∧ high ≤ NINE) :
    AtomText Group Expands (rangeSet [low] [high]) (.set false [.range low high ordered]) := by
  have item : SetItemText [low, HYPHEN, high] (.range low high ordered) :=
    .range (memberText_digit lowBounds) (memberText_digit highBounds) ordered
  have no_caret : [low, HYPHEN, high].head? ≠ some CARET := by
    simp only [ZERO, NINE, CARET, List.head?_cons, ne_eq, Option.some.injEq] at lowBounds ⊢
    omega
  exact .set (.cons item .nil) (by simp) no_caret

theorem Writes.rangeSet {low high : Nat} (ordered : low ≤ high) (lowBounds : ZERO ≤ low ∧ low ≤ NINE)
    (highBounds : ZERO ≤ high ∧ high ≤ NINE) :
    Writes 0 (rangeSet [low] [high]) (fun text => ∃ digit, text = [digit] ∧ low ≤ digit ∧ digit ≤ high) 1
      [.set false [.range low high ordered]] where
  grammar _ _ _ := .cons (.bare (atomText_rangeSet ordered lowBounds highBounds)) .nil
  accepts host caseFold folds value i j := by
    rw [sequenceSpans_one, PatternNode.Spans, setSpans_digits folds ordered lowBounds.1 highBounds.2, spansOne_iff]
    constructor
    · rintro ⟨digit, inside, spans⟩
      exact ⟨[digit], ⟨digit, rfl, inside⟩, spans⟩
    · rintro ⟨_, ⟨digit, rfl, inside⟩, spans⟩
      exact ⟨digit, inside, spans⟩
  positions host caseFold _ := by
    rw [nodePositionsOfEach, setPositions_digits, nodePositionsOfEach]

theorem Writes.digits {count : Nat} (limit : count ≤ MAX_PATTERN_REPEAT_COUNT) :
    ∃ items, Writes 0 (anyDigit ++ OPEN_BRACE :: (decimal count ++ [CLOSE_BRACE]))
      (fun text => text.length = count ∧ IsDigits text) count items := by
  have isCount : IsCount (decimal count) :=
    ⟨List.length_pos_iff.mp (length_decimal_pos count), decimal_isDigits count, by rwa [numberOf_decimal]⟩
  obtain ⟨repeats, least, most, counted⟩ : ∃ repeats : RepeatCount, repeats.min = count ∧ repeats.max = some count ∧
      RepeatText (OPEN_BRACE :: (decimal count ++ [CLOSE_BRACE])) repeats :=
    ⟨_, numberOf_decimal count, congrArg some (numberOf_decimal count), .exactly isCount fun _ same => (Option.some.inj same).le⟩
  refine ⟨[.repeated (.set false [.range ZERO NINE (by decide)]) repeats], fun Expands levels _ => ?_,
    fun host caseFold folds value i j => ?_, fun host caseFold folds => ?_⟩
  · have set := @atomText_rangeSet (groupAt Expands levels) Expands ZERO NINE (by decide) (by decide) (by decide)
    have pieces := PiecesText.cons (PieceText.repeated set counted) .nil
    rwa [List.append_nil] at pieces
  · have one (i j : Nat) := @setSpans_digits host caseFold folds ZERO NINE (by decide) (by decide) (by decide) value i j
    rw [sequenceSpans_one, PatternNode.Spans, least, most, Spans.counted_exactly]
    have digits {text : List Nat} : (∀ codePoint ∈ text, ZERO ≤ codePoint ∧ codePoint ≤ NINE) ↔ IsDigits text :=
      forall₂_congr fun _ _ => isDigit_iff.symm
    simp only [← digits, ← iterate_spansOne]
    exact ⟨Spans.iterate_mono fun i j => (one i j).mp, Spans.iterate_mono fun i j => (one i j).mpr⟩
  · rw [nodePositionsOfEach, nodePositions, setPositions_digits, nodePositionsOfEach, copiesOf, most]
    simp

/-! ### Groups -/

/-- The branches of a group, each of the pieces of one part. -/
inductive WritesEach (width : Nat) : List (List Nat) → (List Nat → Prop) → Nat → PatternNode × List PatternNode → Prop
  | one {text : List Nat} {texts : List Nat → Prop} {most : Nat} {items : List PatternNode}
    (writes : Writes width text texts most items) : WritesEach width [text] texts most (branchNode items, [])
  | more {text : List Nat} {texts others : List Nat → Prop} {most more : Nat} {items : List PatternNode}
    {parts : List (List Nat)} {branches : PatternNode × List PatternNode} (writes : Writes width text texts most items)
    (later : WritesEach width parts others more branches) :
    WritesEach width (text :: parts) (fun whole => texts whole ∨ others whole) (most + more)
      (branchNode items, branches.1 :: branches.2)

variable {parts : List (List Nat)} {branches : PatternNode × List PatternNode}

theorem branchNode_spans {host : PatternHost} {caseFold : Bool} {value : List Nat} (items : List PatternNode) {i j : Nat} :
    (branchNode items).Spans host caseFold value i j ↔ sequenceSpans host caseFold value items i j := by
  rw [branchNode.eq_def]
  split
  · exact (sequenceSpans_one _).symm
  · rw [PatternNode.Spans]

theorem branchNode_positions (caseFold : Bool) (host : PatternHost) (items : List PatternNode) :
    nodePositions caseFold host (branchNode items) = nodePositionsOfEach caseFold host items := by
  rw [branchNode.eq_def]
  split
  · simp [nodePositionsOfEach]
  · rw [nodePositions]

theorem WritesEach.congr (writes : WritesEach width parts texts most branches) (same : ∀ text, texts text ↔ others text) :
    WritesEach width parts others most branches := by
  obtain rfl : texts = others := funext fun text => propext (same text)
  exact writes

theorem WritesEach.some_part (writes : WritesEach width parts texts most branches) : parts ≠ [] := by
  cases writes <;> simp

theorem WritesEach.grammar (writes : WritesEach width parts texts most branches)
    (Expands : NumberBounds → PatternNode → Prop) {levels : Nat} (within : width ≤ levels) :
    BranchesText (groupAt Expands levels) Expands (List.intercalate [BAR] parts) branches := by
  induction writes with
  | one writes =>
    rw [List.intercalate_singleton]
    exact .one (writes.grammar Expands levels within)
  | @more text texts others most more items parts branches writes later ih =>
    obtain ⟨second, parts, rfl⟩ := List.exists_cons_of_ne_nil later.some_part
    rw [List.intercalate_cons_cons]
    have branches := BranchesText.more (writes.grammar Expands levels within) ih
    simpa using branches

theorem WritesEach.accepts (writes : WritesEach width parts texts most branches) {host : PatternHost} {caseFold : Bool}
    (folds : DigitsFold host caseFold) (value : List Nat) (i j : Nat) :
    (branches.1.Spans host caseFold value i j ∨ choiceSpans host caseFold value branches.2 i j) ↔
      ∃ text, texts text ∧ SpansText value text i j := by
  induction writes with
  | one writes =>
    rw [branchNode_spans, writes.accepts host caseFold folds, choiceSpans]
    exact or_iff_left id
  | more writes later ih =>
    rw [branchNode_spans, writes.accepts host caseFold folds, choiceSpans]
    dsimp only
    rw [ih]
    constructor
    · rintro (⟨text, isText, spans⟩ | ⟨text, isText, spans⟩)
      · exact ⟨text, .inl isText, spans⟩
      · exact ⟨text, .inr isText, spans⟩
    · rintro ⟨text, isText | isText, spans⟩
      · exact .inl ⟨text, isText, spans⟩
      · exact .inr ⟨text, isText, spans⟩

theorem WritesEach.positions (writes : WritesEach width parts texts most branches) {host : PatternHost} {caseFold : Bool}
    (folds : DigitsFold host caseFold) :
    nodePositions caseFold host branches.1 + nodePositionsOfEach caseFold host branches.2 ≤ most := by
  induction writes with
  | one writes =>
    rw [branchNode_positions, nodePositionsOfEach]
    exact writes.positions host caseFold folds
  | more writes later ih =>
    rw [branchNode_positions, nodePositionsOfEach]
    exact Nat.add_le_add (writes.positions host caseFold folds) ih

theorem WritesEach.grouped (writes : WritesEach width parts texts most branches) :
    Writes (width + 1) (grouped parts) texts most [patternNode branches] where
  grammar Expands levels within := by
    obtain ⟨levels, rfl⟩ : ∃ more, levels = more + 1 := ⟨levels - 1, by omega⟩
    have body : PatternText Expands levels (List.intercalate [BAR] parts) (patternNode branches) :=
      patternText_iff.mpr ⟨branches, writes.grammar Expands (Nat.le_of_succ_le_succ within), rfl⟩
    have group : AtomText (groupAt Expands (levels + 1)) Expands (Pattern.grouped parts) (patternNode branches) :=
      .group body
    have pieces := PiecesText.cons (PieceText.bare group) .nil
    rwa [List.append_nil] at pieces
  accepts host caseFold folds value i j := by
    rw [sequenceSpans_one, ← writes.accepts folds value i j]
    obtain ⟨first, rest⟩ := branches
    cases rest with
    | nil => exact (or_iff_left id).symm
    | cons second rest => exact Iff.rfl
  positions host caseFold folds := by
    have bound := writes.positions folds
    obtain ⟨first, rest⟩ := branches
    cases rest with
    | nil => exact bound
    | cons second rest =>
      rw [nodePositionsOfEach, nodePositionsOfEach, patternNode, nodePositions]
      · exact bound
      · simp

/-! ### Bounds of one width -/

/-- The most positions of the pattern between two bounds of one width. -/
def rangePositions (low high : List Nat) : Nat :=
  let n := low.length
  if (∀ digit ∈ low, digit = ZERO) ∧ ∀ digit ∈ high, digit = NINE then n
  else if (∀ digit ∈ low, digit = ZERO) ∨ ∀ digit ∈ high, digit = NINE then n * n + 2 * n
  else 2 * (n * n) + n

theorem rangePositions_all {low high : List Nat} (zeros : ∀ digit ∈ low, digit = ZERO)
    (nines : ∀ digit ∈ high, digit = NINE) : rangePositions low high = low.length := if_pos ⟨zeros, nines⟩

theorem rangePositions_some {low high : List Nat}
    (either : (∀ digit ∈ low, digit = ZERO) ∨ ∀ digit ∈ high, digit = NINE) :
    rangePositions low high ≤ low.length * low.length + 2 * low.length := by
  rw [rangePositions]
  split
  · omega
  · exact Nat.le_refl _

theorem le_rangePositions (low high : List Nat) : low.length ≤ rangePositions low high := by
  rw [rangePositions]
  split
  · exact Nat.le_refl _
  · split <;> omega

theorem rangePositions_le (low high : List Nat) :
    rangePositions low high ≤ 2 * (low.length * low.length) + low.length := by
  rw [rangePositions]
  have square : low.length ≤ low.length * low.length := Nat.le_mul_self _
  split
  · omega
  · split <;> omega

theorem Writes.anyDigits (count : Nat) :
    ∃ items, Writes 0 (List.replicate count anyDigit).flatten (fun text => text.length = count ∧ IsDigits text) count
      items := by
  induction count with
  | zero =>
    refine ⟨[], Writes.nil.mono (Nat.le_refl _) (fun text => ?_) (Nat.le_refl _)⟩
    constructor
    · rintro rfl
      exact ⟨rfl, fun _ isIn => (nomatch isIn)⟩
    · exact fun empty => List.length_eq_zero_iff.mp empty.1
  | succ count ih =>
    obtain ⟨items, writes⟩ := ih
    have first := @Writes.rangeSet ZERO NINE (by decide) (by decide) (by decide)
    refine ⟨_, (first.append writes).mono (Nat.le_refl _) (fun text => ?_) (Nat.add_comm 1 count).le⟩
    constructor
    · rintro ⟨_, rest, rfl, ⟨digit, rfl, bounds⟩, length, digits⟩
      exact ⟨by rw [List.length_append, length, Nat.add_comm]; rfl, digits.cons bounds⟩
    · rintro ⟨length, digits⟩
      cases text with
      | nil => cases length
      | cons digit rest => exact ⟨[digit], rest, rfl, ⟨digit, rfl, digits.head⟩, Nat.succ.inj length, digits.tail⟩

theorem Writes.lead {digit : Nat} (bounds : ZERO ≤ digit ∧ digit ≤ NINE) (writes : Writes width text texts most items) :
    Writes width (digit :: text) (fun whole => ∃ rest, whole = digit :: rest ∧ texts rest) (1 + most)
      (.literal digit :: items) := by
  have first := (Writes.digit bounds).mono (Nat.zero_le width) (fun _ => Iff.rfl) (Nat.le_refl _)
  refine (first.append writes).mono (Nat.le_refl _) (fun whole => ?_) (Nat.le_refl _)
  constructor
  · rintro ⟨_, rest, rfl, rfl, isText⟩
    exact ⟨rest, rfl, isText⟩
  · rintro ⟨rest, rfl, isText⟩
    exact ⟨[digit], rest, rfl, rfl, isText⟩

theorem Writes.itself {digits : List Nat} (areDigits : IsDigits digits) :
    ∃ items, Writes 0 digits (· = digits) digits.length items := by
  induction digits with
  | nil => exact ⟨[], Writes.nil⟩
  | cons digit rest ih =>
    obtain ⟨items, writes⟩ := ih areDigits.tail
    refine ⟨_, (writes.lead areDigits.head).mono (Nat.le_refl _) (fun text => ?_) (Nat.add_comm 1 _).le⟩
    constructor
    · rintro ⟨_, rfl, rfl⟩
      rfl
    · rintro rfl
      exact ⟨rest, rfl, rfl⟩

theorem rangePositions_lead {lead : Nat} {low high : List Nat} :
    1 + rangePositions low high ≤ rangePositions (lead :: low) (lead :: high) := by
  by_cases zeros : ∀ digit ∈ low, digit = ZERO
  · by_cases nines : ∀ digit ∈ high, digit = NINE
    · rw [rangePositions_all zeros nines, Nat.add_comm]
      exact le_rangePositions (lead :: low) (lead :: high)
    · have below := rangePositions_some (.inl zeros : (∀ digit ∈ low, digit = ZERO) ∨ ∀ digit ∈ high, digit = NINE)
      have other : ¬ ∀ digit ∈ lead :: high, digit = NINE := fun all => nines fun digit isIn =>
        all digit (List.mem_cons_of_mem _ isIn)
      have square : (low.length + 1) * (low.length + 1) = low.length * low.length + 2 * low.length + 1 := by ring
      rw [rangePositions.eq_def (lead :: low), if_neg fun both => other both.2, List.length_cons, square]
      split <;> omega
  · have other : ¬ ∀ digit ∈ lead :: low, digit = ZERO := fun all => zeros fun digit isIn =>
      all digit (List.mem_cons_of_mem _ isIn)
    have square : (low.length + 1) * (low.length + 1) = low.length * low.length + 2 * low.length + 1 := by ring
    rw [rangePositions.eq_def (lead :: low), if_neg fun both => other both.1, List.length_cons, square]
    split
    next either =>
      have nines := either.resolve_left other
      have below := rangePositions_some (.inr fun digit isIn => nines digit (List.mem_cons_of_mem _ isIn) :
        (∀ digit ∈ low, digit = ZERO) ∨ ∀ digit ∈ high, digit = NINE)
      omega
    next =>
      have below := rangePositions_le low high
      omega

theorem nines_mem {count : Nat} : ∀ digit ∈ List.replicate count NINE, digit = NINE := fun _ isIn =>
  List.eq_of_mem_replicate isIn

theorem zeros_mem {count : Nat} : ∀ digit ∈ List.replicate count ZERO, digit = ZERO := fun _ isIn =>
  List.eq_of_mem_replicate isIn

theorem rangePositions_split {lead lead' : Nat} {low high : List Nat}
    (apart : ¬ ((∀ digit ∈ lead :: low, digit = ZERO) ∧ ∀ digit ∈ lead' :: high, digit = NINE)) :
    1 + rangePositions low (List.replicate low.length NINE) +
        (1 + low.length + (1 + rangePositions (List.replicate low.length ZERO) high)) ≤
      rangePositions (lead :: low) (lead' :: high) := by
  have square : (low.length + 1) * (low.length + 1) = low.length * low.length + 2 * low.length + 1 := by ring
  have first := rangePositions_some (.inr nines_mem :
    (∀ digit ∈ low, digit = ZERO) ∨ ∀ digit ∈ List.replicate low.length NINE, digit = NINE)
  have last := rangePositions_some (.inl zeros_mem :
    (∀ digit ∈ List.replicate low.length ZERO, digit = ZERO) ∨ ∀ digit ∈ high, digit = NINE)
  rw [List.length_replicate] at last
  rw [rangePositions.eq_def (lead :: low), if_neg apart, List.length_cons, square]
  split
  next either =>
    rcases either with zeros | nines
    · rw [rangePositions_all (fun digit isIn => zeros digit (List.mem_cons_of_mem _ isIn)) nines_mem]
      omega
    · rw [rangePositions_all zeros_mem fun digit isIn => nines digit (List.mem_cons_of_mem _ isIn),
        List.length_replicate]
      omega
  next => omega

theorem lead_le {lead lead' : Nat} {low high : List Nat} (digits : IsDigits (lead :: low))
    (digits' : IsDigits (lead' :: high)) (same : low.length = high.length)
    (ordered : numberOf (lead :: low) ≤ numberOf (lead' :: high)) : lead ≤ lead' := by
  have lead_digit := digits.head
  have lead_digit' := digits'.head
  have highLt := numberOf_lt digits'.tail
  by_contra above
  have step : (lead' - ZERO + 1) * 10 ^ high.length ≤ (lead - ZERO) * 10 ^ high.length := Nat.mul_le_mul_right _ (by omega)
  rw [Nat.succ_mul] at step
  rw [numberOf_cons, numberOf_cons, same] at ordered
  omega

theorem Writes.middle {lead lead' count : Nat} (bounds : ZERO ≤ lead) (bounds' : lead' ≤ NINE)
    (room : lead - ZERO + 1 ≤ lead' - ZERO - 1) :
    ∃ items, Writes 0 (Pattern.rangeSet (decimal (lead - ZERO + 1)) (decimal (lead' - ZERO - 1)) ++
        (List.replicate count anyDigit).flatten)
      (fun text => ∃ digit rest, text = digit :: rest ∧ lead < digit ∧ digit < lead' ∧ rest.length = count ∧
        IsDigits rest) (1 + count) items := by
  simp only [ZERO, NINE] at bounds bounds' room
  have lowText : decimal (lead - ZERO + 1) = [lead + 1] := by
    rw [decimal_digit (by simp only [ZERO]; omega)]
    simp only [ZERO, List.cons.injEq, and_true]
    omega
  have highText : decimal (lead' - ZERO - 1) = [lead' - 1] := by
    rw [decimal_digit (by simp only [ZERO]; omega)]
    simp only [ZERO, List.cons.injEq, and_true]
    omega
  obtain ⟨items, rest⟩ := Writes.anyDigits count
  have first := @Writes.rangeSet (lead + 1) (lead' - 1) (by omega) (by simp only [ZERO, NINE]; omega)
    (by simp only [ZERO, NINE]; omega)
  rw [lowText, highText]
  refine ⟨_, (first.append rest).mono (Nat.le_refl _) (fun text => ?_) (Nat.le_refl _)⟩
  constructor
  · rintro ⟨_, rest, rfl, ⟨digit, rfl, above, below⟩, length, digits⟩
    exact ⟨digit, rest, rfl, above, by omega, length, digits⟩
  · rintro ⟨digit, rest, rfl, above, below, length, digits⟩
    exact ⟨[digit], rest, rfl, ⟨digit, rfl, above, by omega⟩, length, digits⟩

theorem numberOf_le_nines {text : List Nat} (digits : IsDigits text) :
    numberOf text ≤ numberOf (List.replicate text.length NINE) := by
  have below := numberOf_lt digits
  have nines := numberOf_nines text.length
  omega

theorem sameWidth_writes (size : Nat) (limit : size ≤ MAX_PATTERN_REPEAT_COUNT) (some_digit : 0 < size)
    {low high : List Nat} (width : low.length = size) (same : low.length = high.length) (digits : IsDigits low)
    (digits' : IsDigits high) (ordered : numberOf low ≤ numberOf high) :
    ∃ items, Writes size (sameWidth low high) (Between low high) (rangePositions low high) items := by
  induction size using Nat.strongRecOn generalizing low high with
  | ind size ih =>
    subst width
    rw [sameWidth.eq_def]
    split
    next equal =>
      subst equal
      obtain ⟨items, writes⟩ := Writes.itself digits
      exact ⟨items, writes.mono (Nat.zero_le _) (fun text => (between_same digits).symm) (le_rangePositions low low)⟩
    next =>
    split
    next all =>
      have zeros : low = List.replicate low.length ZERO := List.eq_replicate_of_mem all.2.1
      have nines : high = List.replicate low.length NINE := same ▸ List.eq_replicate_of_mem all.2.2
      have between (text : List Nat) : Between low high text ↔ text.length = low.length ∧ IsDigits text := by
        rw [zeros, nines, List.length_replicate]
        exact between_all
      split
      next one =>
        obtain ⟨items, writes⟩ := Writes.anyDigits low.length
        rw [one, List.replicate_one, List.flatten_singleton] at writes
        refine ⟨items, writes.mono (Nat.zero_le _) (fun text => ?_) (le_of_eq_of_le one.symm (le_rangePositions low high))⟩
        rw [between, one]
      next =>
        obtain ⟨items, writes⟩ := Writes.digits limit
        exact ⟨items, writes.mono (Nat.zero_le _) (fun text => (between text).symm) (le_rangePositions low high)⟩
    next apart =>
    split
    next one =>
      obtain ⟨lowDigit, rfl⟩ := List.length_eq_one_iff.mp one
      obtain ⟨highDigit, rfl⟩ := List.length_eq_one_iff.mp (same.symm.trans one)
      have inOrder := lead_le digits digits' rfl ordered
      refine ⟨_, (Writes.rangeSet inOrder digits.head digits'.head).mono (Nat.zero_le _) (fun text => ?_)
        (le_rangePositions [lowDigit] [highDigit])⟩
      exact (between_one digits digits').symm
    next several =>
      match low, high with
      | [], _ => exact absurd some_digit (Nat.lt_irrefl 0)
      | lead :: low, [] => cases same
      | lead :: low, lead' :: high =>
        have rest : low.length = high.length := Nat.succ.inj same
        have some_rest : 0 < low.length := by
          rw [List.length_cons] at several
          omega
        have shorter : low.length < (lead :: low).length := Nat.lt_succ_self _
        have fits : low.length ≤ MAX_PATTERN_REPEAT_COUNT := shorter.le.trans limit
        have apart' : ¬ ((∀ digit ∈ lead :: low, digit = ZERO) ∧ ∀ digit ∈ lead' :: high, digit = NINE) := fun both =>
          apart ⟨by simp, both⟩
        dsimp only
        split
        next equal =>
          subst equal
          have inOrder : numberOf low ≤ numberOf high := by
            rw [numberOf_cons, numberOf_cons, rest] at ordered
            omega
          obtain ⟨items, writes⟩ := ih low.length shorter fits some_rest rfl rest digits.tail digits'.tail inOrder
          refine ⟨_, (writes.lead digits.head).mono shorter.le (fun text => ?_) rangePositions_lead⟩
          exact (between_lead digits rest digits'.tail).symm
        next different =>
          have less : lead < lead' := Nat.lt_of_le_of_ne (lead_le digits digits' rest ordered) different
          obtain ⟨firsts, first⟩ := @ih low.length shorter fits some_rest low (List.replicate low.length NINE) rfl
            List.length_replicate.symm digits.tail (isDigits_replicate _ (by decide)) (numberOf_le_nines digits.tail)
          obtain ⟨lasts, last⟩ := @ih low.length shorter fits some_rest (List.replicate low.length ZERO) high
            List.length_replicate (by rw [List.length_replicate, rest]) (isDigits_replicate _ (by decide)) digits'.tail
            (by simp)
          have bound := rangePositions_split apart'
          have split (text : List Nat) := @between_split lead lead' low high text digits digits' rest less
          split
          next room =>
            obtain ⟨middles, middle⟩ := @Writes.middle lead lead' low.length digits.head.1 digits'.head.2 room
            have parts := WritesEach.more (first.lead digits.head) (.more (middle.mono (Nat.zero_le _)
              (fun _ => Iff.rfl) (Nat.le_refl _)) (.one (last.lead digits'.head)))
            exact ⟨_, parts.grouped.mono (Nat.le_refl _) (fun text => (split text).symm) bound⟩
          next cramped =>
            have parts := WritesEach.more (first.lead digits.head) (.one (last.lead digits'.head))
            refine ⟨_, parts.grouped.mono (Nat.le_refl _) (fun text => ?_) (Nat.le_trans (by omega) bound)⟩
            rw [split]
            -- There is no digit between the two.
            refine or_congr_right (or_iff_right ?_).symm
            rintro ⟨digit, -, -, above, below, -⟩
            have lead_digit := digits.head
            omega

/-! ### Bounds of different widths -/

/-- The most positions of so many widths from one on. -/
def widthsPositions : (left width : Nat) → Nat
  | 0, _ => 0
  | 1, width => 2 * (width * width) + width
  | left + 2, width => width * width + 2 * width + widthsPositions (left + 1) (width + 1)

theorem widthsPositions_le {left width : Nat} (some_width : 1 ≤ width) (within : width + left ≤ 16) :
    widthsPositions left width ≤ MAX_PATTERN_POSITIONS := by
  have each : ∀ left < 17, ∀ width < 17, 1 ≤ width → width + left ≤ 16 → widthsPositions left width ≤ 2048 := by
    decide
  exact each left (by omega) width (by omega) some_width within

theorem decimal_nines (width : Nat) (some_width : 0 < width) :
    decimal (10 ^ width - 1) = List.replicate width NINE := by
  have nines := numberOf_nines width
  have value : numberOf (List.replicate width NINE) = 10 ^ width - 1 := by omega
  rw [← value]
  refine decimal_numberOf (isDigits_replicate _ (by decide)) ?_
  obtain ⟨k, rfl⟩ := Nat.exists_eq_succ_of_ne_zero some_width.ne'
  have power : 10 ^ (k + 1) = 10 * 10 ^ k := Nat.pow_succ'
  have positive : 0 < 10 ^ k := Nat.pow_pos (by omega)
  rw [List.length_replicate, value, length_decimal_iff]
  omega

theorem length_decimal_power (width : Nat) : (decimal (10 ^ width)).length = width + 1 := by
  have power : 10 ^ (width + 1) = 10 * 10 ^ width := Nat.pow_succ'
  have positive : 0 < 10 ^ width := Nat.pow_pos (by omega)
  rw [length_decimal_iff]
  omega

theorem widthParts_writes {highest : Nat} (limit : (decimal highest).length ≤ MAX_PATTERN_REPEAT_COUNT) (left start : Nat)
    {width : Nat} (startWidth : (decimal start).length = width) (covers : width + left = (decimal highest).length)
    (ordered : start ≤ highest) :
    ∃ branches, WritesEach (decimal highest).length (widthParts highest (left + 1) start width)
      (fun text => ∃ n, text = decimal n ∧ start ≤ n ∧ n ≤ highest) (widthsPositions (left + 1) width) branches := by
  obtain ⟨k, kWidth⟩ : ∃ k, width = k + 1 :=
    Nat.exists_eq_succ_of_ne_zero (startWidth ▸ length_decimal_pos start).ne'
  have startBelow := ((length_decimal_iff start k).mp (startWidth.trans kWidth)).1
  rw [← kWidth] at startBelow
  have some_width : 0 < width := by omega
  induction left generalizing start width k with
  | zero =>
    have same : (decimal start).length = (decimal highest).length := by omega
    have below := ((length_decimal_iff highest k).mp (by omega)).1
    rw [← kWidth] at below
    obtain ⟨items, writes⟩ := sameWidth_writes width (by omega) some_width startWidth same (decimal_isDigits _)
      (decimal_isDigits _) (by simpa using ordered)
    have bound := rangePositions_le (decimal start) (decimal highest)
    rw [startWidth] at bound
    rw [widthParts, widthParts, Nat.min_eq_left (by omega)]
    exact ⟨_, .one (writes.mono (by omega) (fun text => between_decimal same) bound)⟩
  | succ left ih =>
    have above : 10 ^ width ≤ highest := by
      have wider : ¬ (decimal highest).length ≤ k + 1 := by omega
      rw [length_decimal_le_iff, ← kWidth] at wider
      omega
    have positive : 0 < 10 ^ width := Nat.pow_pos (by omega)
    have nines := decimal_nines width some_width
    have same : (decimal start).length = (decimal (10 ^ width - 1)).length := by
      rw [nines, List.length_replicate, startWidth]
    obtain ⟨items, writes⟩ := sameWidth_writes width (by omega) some_width startWidth same (decimal_isDigits _)
      (decimal_isDigits _) (by simp only [numberOf_decimal]; omega)
    have bound := rangePositions_some (.inr (nines ▸ nines_mem) :
      (∀ digit ∈ decimal start, digit = ZERO) ∨ ∀ digit ∈ decimal (10 ^ width - 1), digit = NINE)
    rw [startWidth] at bound
    have power : 10 ^ (width + 1) = 10 * 10 ^ width := Nat.pow_succ'
    obtain ⟨branches, later⟩ := ih (10 ^ width) (length_decimal_power width) (by omega) above width rfl (by omega)
      (by omega)
    rw [widthParts, Nat.min_eq_right (by omega)]
    have all (text : List Nat) : (Between (decimal start) (decimal (10 ^ width - 1)) text ∨
        ∃ n, text = decimal n ∧ 10 ^ width ≤ n ∧ n ≤ highest) ↔ ∃ n, text = decimal n ∧ start ≤ n ∧ n ≤ highest := by
      rw [between_decimal same]
      constructor
      · rintro (⟨n, rfl, low, high⟩ | ⟨n, rfl, low, high⟩)
        · exact ⟨n, rfl, low, by omega⟩
        · exact ⟨n, rfl, by omega, high⟩
      · rintro ⟨n, rfl, low, high⟩
        rcases Nat.lt_or_ge n (10 ^ width) with small | large
        · exact .inl ⟨n, rfl, low, by omega⟩
        · exact .inr ⟨n, rfl, large, high⟩
    have parts := WritesEach.more (writes.mono (by omega) (fun text => Iff.rfl) bound) later
    exact ⟨_, parts.congr all⟩

/-! ### The pattern of a number range -/

/-- With bounds of one width the texts of that many digits, else the numbers in decimal; in both
cases those whose value lies between the bounds. -/
def NumberBounds.Holds (bounds : NumberBounds) (text : List Nat) : Prop :=
  if bounds.low.length = bounds.high.length then Between bounds.low bounds.high text
  else ∃ n, text = decimal n ∧ numberOf bounds.low ≤ n ∧ n ≤ numberOf bounds.high

theorem length_decimal_numberOf {text : List Nat} (digits : IsDigits text) (some_digit : 0 < text.length) :
    (decimal (numberOf text)).length ≤ text.length := by
  obtain ⟨k, length⟩ := Nat.exists_eq_succ_of_ne_zero some_digit.ne'
  have below := numberOf_lt digits
  rw [length] at below ⊢
  exact (length_decimal_le_iff _ k).mpr below

theorem numberRange_writes (bounds : NumberBounds) :
    ∃ items, Writes (MAX_NUMBER_RANGE_DIGITS + 1) (numberRange bounds.low bounds.high) bounds.Holds MAX_PATTERN_POSITIONS
      items := by
  obtain ⟨low, high, lowDigits, highDigits, ⟨lowSome, lowShort⟩, ⟨highSome, highShort⟩, ordered⟩ := bounds
  simp only [MAX_NUMBER_RANGE_DIGITS] at lowShort highShort
  dsimp only
  rw [numberRange]
  split
  next same =>
    obtain ⟨items, writes⟩ := sameWidth_writes low.length (by simp only [MAX_PATTERN_REPEAT_COUNT]; omega) lowSome rfl same
      lowDigits highDigits ordered
    have bound := rangePositions_le low high
    have square : low.length * low.length ≤ 15 * 15 := Nat.mul_le_mul lowShort lowShort
    refine ⟨items, writes.mono (by simp only [MAX_NUMBER_RANGE_DIGITS]; omega) (fun text => ?_)
      (bound.trans (by simp only [MAX_PATTERN_POSITIONS]; omega))⟩
    rw [NumberBounds.Holds, if_pos same]
  next different =>
    have startWidth := length_decimal_numberOf lowDigits lowSome
    have widest := length_decimal_numberOf highDigits highSome
    have some_width := length_decimal_pos (numberOf low)
    have narrow : (decimal (numberOf low)).length ≤ (decimal (numberOf high)).length := by
      obtain ⟨k, length⟩ := Nat.exists_eq_succ_of_ne_zero (length_decimal_pos (numberOf high)).ne'
      rw [length, length_decimal_le_iff]
      exact ordered.trans_lt ((length_decimal_iff _ k).mp length).1
    obtain ⟨left, covers⟩ := Nat.exists_eq_add_of_le narrow
    obtain ⟨branches, parts⟩ := widthParts_writes (by simp only [MAX_PATTERN_REPEAT_COUNT]; omega) left (numberOf low) rfl
      covers.symm ordered
    have bound := @widthsPositions_le (left + 1) _ some_width (by omega)
    have widths : (decimal (numberOf high)).length + 1 - (decimal (numberOf low)).length = left + 1 := by omega
    dsimp only
    rw [widths]
    refine ⟨_, parts.grouped.mono (by simp only [MAX_NUMBER_RANGE_DIGITS]; omega) (fun text => ?_) bound⟩
    rw [NumberBounds.Holds, if_neg different]

theorem numberRange_node (bounds : NumberBounds) :
    ∃ node, (∀ Expands, PatternText Expands MAX_PATTERN_GROUP_DEPTH (numberRange bounds.low bounds.high) node) ∧
      ∀ host caseFold, DigitsFold host caseFold →
        (∀ value i j, node.Spans host caseFold value i j ↔ ∃ text, bounds.Holds text ∧ SpansText value text i j) ∧
          patternPositions node caseFold host ≤ MAX_PATTERN_POSITIONS := by
  obtain ⟨items, writes⟩ := numberRange_writes bounds
  refine ⟨branchNode items, fun Expands => ?_, fun host caseFold folds => ⟨fun value i j => ?_, ?_⟩⟩
  · exact patternText_iff.mpr ⟨_, .one (writes.grammar Expands _ (by decide)), rfl⟩
  · rw [branchNode_spans]
    exact writes.accepts host caseFold folds value i j
  · refine patternPositions_within ?_
    rw [branchNode_positions]
    exact writes.positions host caseFold folds

theorem parseExpansion_eq (bounds : NumberBounds) :
    parseExpansion bounds = parseRegex (numberRange bounds.low bounds.high) := by
  obtain ⟨node, texts, -⟩ := numberRange_node bounds
  rw [(parseExpansion_iff bounds node).mpr (texts _), (parseRegex_iff _ node).mpr (texts _)]

/-- The number range of every pair of bounds parses, its pattern within the limits, and spans just
the digits that it is for. -/
theorem numberRange_accepts (bounds : NumberBounds) :
    ∃ node, parseRegex (numberRange bounds.low bounds.high) = .ok node ∧
      parseRegex (LESS :: (bounds.low ++ HYPHEN :: (bounds.high ++ [GREATER]))) = .ok (.numberRange node) ∧
      ∀ host caseFold, DigitsFold host caseFold →
        (∀ value i j, node.Spans host caseFold value i j ↔ ∃ text, bounds.Holds text ∧ SpansText value text i j) ∧
          patternPositions node caseFold host ≤ MAX_PATTERN_POSITIONS := by
  obtain ⟨node, texts, meaning⟩ := numberRange_node bounds
  refine ⟨node, (parseRegex_iff _ _).mpr (texts _), (parseRegex_iff _ _).mpr ?_, meaning⟩
  have range : AtomText (groupAt ExpansionText MAX_PATTERN_GROUP_DEPTH) ExpansionText
      (LESS :: (bounds.low ++ HYPHEN :: (bounds.high ++ [GREATER]))) (.numberRange node) := .numberRange (texts _)
  have pieces := PiecesText.cons (PieceText.bare range) .nil
  rw [List.append_nil] at pieces
  exact patternText_iff.mpr ⟨_, .one pieces, rfl⟩

def sevenToTwelve : NumberBounds :=
  ⟨[0x37], [0x31, 0x32], by decide, by decide, by decide, by decide, by decide⟩

theorem numberRange_accepts_sevenToTwelve :
    ∃ node, parseRegex (numberRange [0x37] [0x31, 0x32]) = .ok node ∧
      node.Spans ⟨fun codePoint => [codePoint], []⟩ true [0x39] 0 1 := by
  obtain ⟨node, parses, -, meaning⟩ := numberRange_accepts sevenToTwelve
  have folds : DigitsFold ⟨fun codePoint => [codePoint], []⟩ true :=
    fun _ => ⟨fun _ _ => rfl, fun _ _ listed => (nomatch listed)⟩
  refine ⟨node, parses, ((meaning _ true folds).1 [0x39] 0 1).mpr ⟨[0x39], ?_, List.prefix_refl _, rfl⟩⟩
  exact ⟨9, (decimal_digit (by decide)).symm, by decide, by decide⟩

/-- For every list of code points the parser returns a tree exactly where the list is a text of the
grammar. The grammar assigns one tree at most, and reads a number range as the text that it
stands for. -/
theorem parseRegex_accepts (codePoints : List Nat) :
    (∀ node, parseRegex codePoints = .ok node ↔ RegexText codePoints node) ∧
      (∀ node other, RegexText codePoints node → RegexText codePoints other → node = other) ∧
      ∀ bounds node, ExpansionText bounds node ↔ RegexText (numberRange bounds.low bounds.high) node := by
  refine ⟨parseRegex_iff codePoints, fun node other isText isOther => ?_, fun bounds node => ?_⟩
  · rw [← parseRegex_iff] at isText isOther
    exact Except.ok.inj (isText.symm.trans isOther)
  · rw [← parseExpansion_iff, ← parseRegex_iff, parseExpansion_eq]

end Narsil.Pattern
