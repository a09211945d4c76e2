import Mathlib.Tactic.IntervalCases
import Narsil.Pattern.CodePoints
import Narsil.Spans.Repetition

/-!
# Pattern expressions

The tree a regex or a wildcard is read into, and what it means: which stretches
of a value it spans. Under case folding the value is the folded one.
-/
namespace Narsil.Pattern

def BEFORE_VALUE_START : Nat := 0
def AFTER_VALUE_END : Nat := 0
def WORD_CODE_POINT : Nat := 1
def OTHER_CODE_POINT : Nat := 2
def EDGE_KINDS : Nat := 3

def START_MASK : Nat := 0b000000111
def END_MASK : Nat := 0b001001001
def WORD_EDGE_MASK : Nat := 0b010101010
def ANY_CONTEXT_MASK : Nat := 0b111111111

def isWordCodePoint (codePoint : Nat) : Bool :=
  (0x30 ≤ codePoint && codePoint ≤ 0x39) || (0x41 ≤ codePoint && codePoint ≤ 0x5a)
    || (0x61 ≤ codePoint && codePoint ≤ 0x7a) || codePoint = 0x5f

def kindOf (codePoint : Nat) : Nat :=
  if isWordCodePoint codePoint then WORD_CODE_POINT else OTHER_CODE_POINT

def contextOf (previous next : Nat) : Nat := previous * EDGE_KINDS + next

/-- The kind of the code point before a position of a value. -/
def kindBefore (value : List Nat) : Nat → Nat
  | 0 => BEFORE_VALUE_START
  | i + 1 => kindOf (value.getD i 0)

def kindAfter (value : List Nat) (i : Nat) : Nat :=
  match value[i]? with
  | none => AFTER_VALUE_END
  | some codePoint => kindOf codePoint

def contextAt (value : List Nat) (i : Nat) : Nat := contextOf (kindBefore value i) (kindAfter value i)

theorem kindOf_cases (codePoint : Nat) :
    (isWordCodePoint codePoint = true ∧ kindOf codePoint = 1) ∨
      (isWordCodePoint codePoint = false ∧ kindOf codePoint = 2) := by
  cases word : isWordCodePoint codePoint <;> simp [kindOf, word, WORD_CODE_POINT, OTHER_CODE_POINT]

theorem kindAfter_le (value : List Nat) (i : Nat) : kindAfter value i ≤ 2 := by
  rw [kindAfter]
  split
  · decide
  · next codePoint _ => rcases kindOf_cases codePoint with ⟨_, h⟩ | ⟨_, h⟩ <;> omega

theorem kindBefore_le (value : List Nat) (i : Nat) : kindBefore value i ≤ 2 := by
  cases i with
  | zero => exact Nat.zero_le 2
  | succ i =>
    rw [kindBefore]
    rcases kindOf_cases (value.getD i 0) with ⟨_, h⟩ | ⟨_, h⟩ <;> omega

theorem contextAt_lt (value : List Nat) (i : Nat) : contextAt value i < 9 := by
  have before := kindBefore_le value i
  have after := kindAfter_le value i
  simp only [contextAt, contextOf, EDGE_KINDS]
  omega

/-- Whether the code point before, or after, a position is a word code point. -/
def wordBefore (value : List Nat) : Nat → Bool
  | 0 => false
  | i + 1 => isWordCodePoint (value.getD i 0)

def wordAfter (value : List Nat) (i : Nat) : Bool := (value[i]?).any isWordCodePoint

/-- The bounds of a repeat; the reader refuses a lower one above the upper one. -/
structure RepeatCount where
  min : Nat
  max : Option Nat
  ordered : ∀ m, max = some m → min ≤ m

inductive PatternNode
  | literal (codePoint : Nat)
  | any
  | charClass (name : ClassName)
  | set (negated : Bool) (items : List SetItem)
  | assert (mask : Nat)
  | sequence (items : List PatternNode)
  /-- A choice has a branch; the reader makes one of two or more. -/
  | choice (first : PatternNode) (rest : List PatternNode)
  | repeated (body : PatternNode) (count : RepeatCount)
  | numberRange (expansion : PatternNode)

/-- The value holds exactly these code points between two positions. -/
def SpansText (value text : List Nat) (i j : Nat) : Prop :=
  text <+: value.drop i ∧ j = i + text.length

/-- One code point of the value, of a kind. -/
def SpansOne (value : List Nat) (accepted : Nat → Prop) (i j : Nat) : Prop :=
  ∃ codePoint, value[i]? = some codePoint ∧ accepted codePoint ∧ j = i + 1

def foldOf (host : PatternHost) (caseFold : Bool) (codePoint : Nat) : List Nat :=
  if caseFold then host.appendFoldedCodePoint codePoint else [codePoint]

/-- A code point of the set, or under case folding the fold of a member. -/
def SetSpans (host : PatternHost) (caseFold : Bool) (value : List Nat) (negated : Bool)
    (items : List SetItem) (i j : Nat) : Prop :=
  SpansOne value (fun codePoint =>
      (if caseFold then InFoldedSet items host codePoint else InSet items codePoint) ↔
        negated = false) i j ∨
    (caseFold = true ∧ negated = false ∧ ∃ codePoint, SetItem.member codePoint ∈ items ∧
      2 ≤ (host.appendFoldedCodePoint codePoint).length ∧
      SpansText value (host.appendFoldedCodePoint codePoint) i j)

section Meaning
variable (host : PatternHost) (caseFold : Bool) (value : List Nat)

mutual

def PatternNode.Spans : PatternNode → Nat → Nat → Prop
  | .literal codePoint => SpansText value (foldOf host caseFold codePoint)
  | .any => SpansOne value fun _ => True
  | .charClass name => SpansOne value (InClass name)
  | .set negated items => SetSpans host caseFold value negated items
  | .assert mask => fun i j => i = j ∧ mask.testBit (contextAt value i) = true
  | .sequence items => sequenceSpans items
  | .choice first rest => fun i j => first.Spans i j ∨ choiceSpans rest i j
  | .repeated body count => Spans.Counted count.min count.max body.Spans
  | .numberRange expansion => expansion.Spans

def sequenceSpans : List PatternNode → Nat → Nat → Prop
  | [] => fun i j => i = j
  | item :: rest => fun i k => ∃ j, item.Spans i j ∧ sequenceSpans rest j k

def choiceSpans : List PatternNode → Nat → Nat → Prop
  | [] => fun _ _ => False
  | branch :: rest => fun i j => branch.Spans i j ∨ choiceSpans rest i j

end

/-- Some stretch of the value satisfies the expression. -/
def PatternNode.Matches (node : PatternNode) : Prop :=
  ∃ i j, i ≤ j ∧ j ≤ value.length ∧ node.Spans host caseFold value i j

end Meaning

/-- The code points a value is read as: each one folded, or itself. -/
def foldedValue (host : PatternHost) (caseFold : Bool) (value : List Nat) : List Nat :=
  value.flatMap (foldOf host caseFold)

end Narsil.Pattern
