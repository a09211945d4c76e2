import Narsil.Ordering.Strings
import Narsil.Pattern.Expression
import Narsil.Pattern.NumberRange

/-!
# The regex parser

`RegexReader` goes through the code points once. What a method of it gives back is what it has
read, with the code points that are left; each keeps that none is read twice, so that the loops
end.
-/
namespace Narsil.Pattern

open Narsil.Ordering (JsString ascii)

def BACKSLASH : Nat := 0x5c
def DOT : Nat := 0x2e
def STAR : Nat := 0x2a
def PLUS : Nat := 0x2b
def QUESTION : Nat := 0x3f
def CARET : Nat := 0x5e
def DOLLAR : Nat := 0x24
def LESS : Nat := 0x3c
def GREATER : Nat := 0x3e
def COMMA : Nat := 0x2c

def RESERVED : List Nat :=
  [BACKSLASH, DOT, BAR, STAR, PLUS, QUESTION, OPEN_BRACE, CLOSE_BRACE, OPEN_PAREN, CLOSE_PAREN, OPEN_BRACKET,
    CLOSE_BRACKET, CARET, DOLLAR, LESS, GREATER]

def MAX_PATTERN_GROUP_DEPTH : Nat := 32
def MAX_PATTERN_REPEAT_COUNT : Nat := 2048
def MAX_NUMBER_RANGE_DIGITS : Nat := 15

def CLASS_ESCAPES : List (Nat × ClassName) := [(0x64, .digit), (0x77, .word), (0x73, .space)]
def WORD_EDGE_ESCAPE : Nat := 0x62

def isAsciiPunctuation (codePoint : Nat) : Bool :=
  (0x21 ≤ codePoint && codePoint ≤ 0x2f) || (0x3a ≤ codePoint && codePoint ≤ 0x40)
    || (0x5b ≤ codePoint && codePoint ≤ 0x60) || (0x7b ≤ codePoint && codePoint ≤ 0x7e)

/-- `String.fromCodePoint`. -/
def fromCodePoint (codePoint : Nat) : JsString :=
  if codePoint < 0x10000 then [.ofNat codePoint]
  else [.ofNat (0xd800 + (codePoint - 0x10000) / 0x400), .ofNat (0xdc00 + (codePoint - 0x10000) % 0x400)]

def quoted (text : JsString) : JsString := ascii "\"" ++ text ++ ascii "\""

def TRAILING_ESCAPE : JsString := ascii "ends in a \"\\\" with no code point after it"

def NO_COUNT : JsString :=
  ascii "holds a \"\x7b\" that doesn't open a count such as \x7b2\x7d, \x7b2,\x7d, or \x7b2,5\x7d. Write \"\\\x7b\" to match the brace itself"

def RANGE_ENDS_IN_CLASS : JsString :=
  ascii "holds a set range whose high end is a class, while both ends of a set range must be code points"

def SET_NEVER_CLOSES : JsString := ascii "opens a set that it never closes"

def NEGATED_EMPTY_SET : JsString :=
  ascii "holds the set \"[^]\", which has no member, because a \"^\" after \"[\" always negates the set. Write \"\\^\" to match a caret, \".\" to match any code point, or \"\\]\" to match \"]\" inside a set"

def NO_NUMBER_RANGE : JsString :=
  ascii "holds a \"<\" that doesn't open a number range such as <1-65535>. Each end of a number range holds from 1 to 15 digits. Write \"\\<\" to match the \"<\" itself"

def unknownEscape (codePoint : Nat) : JsString :=
  let shown := quoted (ascii "\\" ++ fromCodePoint codePoint)
  if isDigit codePoint then ascii "holds the back-reference " ++ shown ++ ascii ", which the grammar leaves out"
  else if codePoint = 0x70 ∨ codePoint = 0x50 then
    ascii "holds the Unicode property class " ++ shown ++ ascii ", which the grammar leaves out"
  else
    ascii "holds " ++ shown ++
      ascii ". A \"\\\" can come only before an ASCII punctuation mark, \"d\", \"w\", \"s\", or \"b\""

def reservedHere (codePoint : Nat) : JsString :=
  let shown := fromCodePoint codePoint
  if codePoint = STAR ∨ codePoint = PLUS ∨ codePoint = QUESTION then
    ascii "holds the repeat " ++ quoted shown ++ ascii " with nothing before it to repeat"
  else
    ascii "holds " ++ quoted shown ++ ascii ", which has a meaning of its own in the grammar. Write " ++
      quoted (ascii "\\" ++ shown) ++ ascii " to match the code point itself"

def secondRepeat (codePoint : Nat) : JsString :=
  ascii "holds a second repeat " ++ quoted (fromCodePoint codePoint) ++
    ascii " after one atom. The grammar allows one repeat for each atom, so it has no lazy or possessive repeats"

def countText (n : Nat) : JsString := (decimal n).flatMap fromCodePoint

def lowerAboveUpper (min max : Nat) : JsString :=
  ascii "holds the count \x7b" ++ countText min ++ ascii "," ++ countText max ++
    ascii "\x7d, whose lower count is above its upper count"

def memberInSet (codePoint : Nat) : JsString :=
  let shown := fromCodePoint codePoint
  ascii "holds " ++ quoted shown ++ ascii " inside a set. Write " ++ quoted (ascii "\\" ++ shown) ++
    ascii " to match that code point there"

def setRangeReversed (low high : Nat) : JsString :=
  ascii "holds the set range " ++ quoted (fromCodePoint low ++ ascii "-" ++ fromCodePoint high) ++
    ascii ", whose low end is above its high end"

def numberRangeReversed (low high : List Nat) : JsString :=
  ascii "holds the number range " ++
    quoted (ascii "<" ++ low.flatMap fromCodePoint ++ ascii "-" ++ high.flatMap fromCodePoint ++ ascii ">") ++
    ascii ", whose low end is above its high end"

/-- What `fail` is called with. -/
structure Rejection where
  reason : JsString
  place : Nat

/-- The ends of a number range, as the reader has checked them. -/
@[ext] structure NumberBounds where
  low : List Nat
  high : List Nat
  lowDigits : ∀ digit ∈ low, isDigit digit
  highDigits : ∀ digit ∈ high, isDigit digit
  lowLength : 1 ≤ low.length ∧ low.length ≤ MAX_NUMBER_RANGE_DIGITS
  highLength : 1 ≤ high.length ∧ high.length ≤ MAX_NUMBER_RANGE_DIGITS
  ordered : numberOf low ≤ numberOf high

/-- What was read, and what is left of at most so many code points. -/
structure Read (α : Type) (most : Nat) where
  value : α
  rest : List Nat
  within : rest.length ≤ most

def Read.widen {α : Type} {most more : Nat} (read : Read α most) (fits : most ≤ more) : Read α more :=
  ⟨read.value, read.rest, read.within.trans fits⟩

theorem Read.behind {α : Type} {most : Nat} {read : Read α most} {first : Nat} {more : List Nat}
    (rest : read.rest = first :: more) : more.length ≤ most := by
  have within := read.within
  rw [rest] at within
  exact (Nat.le_succ _).trans within

/-- How many code points there are, and how the pattern of a number range is read. -/
structure RegexReader where
  length : Nat
  expand : NumberBounds → Except Rejection PatternNode

namespace RegexReader

abbrev Reads (α : Type) (most : Nat) : Type := Except Rejection (Read α most)

/-- A method that reads a pattern from whatever is left. -/
abbrev PatternReader : Type := (input : List Nat) → Reads PatternNode input.length

variable (reader : RegexReader)

/-- The reader fails at the code point that `left` begins with. -/
def fail {α : Type} (reason : JsString) (left : List Nat) : Except Rejection α :=
  .error ⟨reason, reader.length - left.length⟩

def parseEscape (start more : List Nat) : Reads PatternNode more.length :=
  match more with
  | [] => reader.fail TRAILING_ESCAPE start
  | escaped :: rest =>
    match CLASS_ESCAPES.lookup escaped with
    | some name => .ok ⟨.charClass name, rest, Nat.le_succ _⟩
    | none =>
      if escaped = WORD_EDGE_ESCAPE then .ok ⟨.assert WORD_EDGE_MASK, rest, Nat.le_succ _⟩
      else if isAsciiPunctuation escaped then .ok ⟨.literal escaped, rest, Nat.le_succ _⟩
      else reader.fail (unknownEscape escaped) start

/-- The count so far and the digits after it; a count above the limit stays one above it. -/
def countDigits (count : Nat) : (input : List Nat) → Read Nat input.length
  | [] => ⟨count, [], Nat.le_refl _⟩
  | digit :: rest =>
    if isDigit digit then
      (countDigits (min (count * 10 + digit - ZERO) (MAX_PATTERN_REPEAT_COUNT + 1)) rest).widen (Nat.le_succ _)
    else ⟨count, digit :: rest, Nat.le_refl _⟩

def readCount (start input : List Nat) : Reads Nat input.length :=
  if (input.head?.any isDigit) = false then reader.fail NO_COUNT start
  else
    let read := countDigits 0 input
    if read.value > MAX_PATTERN_REPEAT_COUNT then reader.fail (ascii "holds a count above the limit of 2048") start
    else .ok read

/-- What follows the lower count of a repeat: an upper count, a comma alone, or nothing. -/
def readUpper (start : List Nat) (min : Nat) (input : List Nat) : Reads (Option Nat) input.length :=
  match input with
  | codePoint :: more =>
    if codePoint ≠ COMMA then .ok ⟨some min, codePoint :: more, Nat.le_refl _⟩
    else if more.head?.any isDigit then do
      let max ← reader.readCount start more
      return ⟨some max.value, max.rest, max.within.trans (Nat.le_succ _)⟩
    else .ok ⟨none, more, Nat.le_succ _⟩
  | [] => .ok ⟨some min, [], Nat.le_refl _⟩

def orderCounts (start : List Nat) (min : Nat) (max : Option Nat) : Except Rejection RepeatCount :=
  match max with
  | none => .ok ⟨min, none, fun _ unbounded => nomatch unbounded⟩
  | some upper =>
    if reversed : min > upper then reader.fail (lowerAboveUpper min upper) start
    else .ok ⟨min, some upper, fun _ same => Option.some.inj same ▸ Nat.le_of_not_gt reversed⟩

/-- The counts of a repeat, from behind its brace to behind the brace that closes it. -/
def parseCounts (start input : List Nat) : Reads RepeatCount input.length := do
  let min ← reader.readCount start input
  let max ← reader.readUpper start min.value min.rest
  match rest : max.rest with
  | [] => reader.fail NO_COUNT start
  | closing :: more =>
    if closing ≠ CLOSE_BRACE then reader.fail NO_COUNT start
    else
      let count ← reader.orderCounts start min.value max.value
      return ⟨count, more, (Read.behind rest).trans min.within⟩

/-- The repeat after an atom, if one is there. -/
def parseRepeat (input : List Nat) : Reads (Option RepeatCount) input.length :=
  match input with
  | [] => .ok ⟨none, [], Nat.le_refl _⟩
  | codePoint :: more =>
    if codePoint = STAR then .ok ⟨some ⟨0, none, fun _ unbounded => nomatch unbounded⟩, more, Nat.le_succ _⟩
    else if codePoint = PLUS then .ok ⟨some ⟨1, none, fun _ unbounded => nomatch unbounded⟩, more, Nat.le_succ _⟩
    else if codePoint = QUESTION then .ok ⟨some ⟨0, some 1, fun _ _ => Nat.zero_le _⟩, more, Nat.le_succ _⟩
    else if codePoint ≠ OPEN_BRACE then .ok ⟨none, codePoint :: more, Nat.le_refl _⟩
    else do
      let count ← reader.parseCounts (codePoint :: more) more
      return ⟨some count.value, count.rest, count.within.trans (Nat.le_succ _)⟩

/-- A member of a set: a code point, or a class where one may stand. -/
def parseSetMember (classAllowed : Bool) (input : List Nat) : Reads (Nat ⊕ ClassName) (input.length - 1) :=
  match input with
  | [] => reader.fail SET_NEVER_CLOSES input
  | codePoint :: more =>
    if codePoint = OPEN_BRACKET ∨ codePoint = CLOSE_BRACKET ∨ codePoint = HYPHEN then
      reader.fail (memberInSet codePoint) input
    else if codePoint ≠ BACKSLASH then .ok ⟨.inl codePoint, more, Nat.le_refl _⟩
    else
      match more with
      | [] => reader.fail TRAILING_ESCAPE input
      | escaped :: rest =>
        match CLASS_ESCAPES.lookup escaped with
        | some name =>
          if classAllowed then .ok ⟨.inr name, rest, Nat.le_succ _⟩
          else if isAsciiPunctuation escaped then .ok ⟨.inl escaped, rest, Nat.le_succ _⟩
          else reader.fail RANGE_ENDS_IN_CLASS input
        | none =>
          if isAsciiPunctuation escaped then .ok ⟨.inl escaped, rest, Nat.le_succ _⟩
          else reader.fail (unknownEscape escaped) input

/-- A set item that begins with a code point: it alone, or a range up to another. -/
def parseSetRange (start : List Nat) (low : Nat) (input : List Nat) : Reads SetItem input.length :=
  match input with
  | [] => .ok ⟨.member low, [], Nat.le_refl _⟩
  | hyphen :: more =>
    if hyphen ≠ HYPHEN ∨ more.head? = some CLOSE_BRACKET then .ok ⟨.member low, hyphen :: more, Nat.le_refl _⟩
    else do
      let high ← reader.parseSetMember false more
      match high.value with
      | .inr _ => reader.fail RANGE_ENDS_IN_CLASS start
      | .inl top =>
        if reversed : low > top then reader.fail (setRangeReversed low top) start
        else return ⟨.range low top (Nat.le_of_not_gt reversed), high.rest,
          high.within.trans ((Nat.sub_le _ _).trans (Nat.le_succ _))⟩

def parseSetItem (input : List Nat) : Reads SetItem (input.length - 1) := do
  let low ← reader.parseSetMember true input
  match low.value with
  | .inr name => return ⟨.charClass name, low.rest, low.within⟩
  | .inl codePoint =>
    let item ← reader.parseSetRange input codePoint low.rest
    return item.widen low.within

/-- The items of a set up to the bracket that closes it. -/
def parseSetItems (start input : List Nat) : Reads (List SetItem) input.length :=
  match input with
  | [] => reader.fail SET_NEVER_CLOSES start
  | codePoint :: more =>
    if codePoint = CLOSE_BRACKET then .ok ⟨[], more, Nat.le_succ _⟩
    else do
      let item ← reader.parseSetItem (codePoint :: more)
      let others ← parseSetItems start item.rest
      return ⟨item.value :: others.value, others.rest, others.within.trans (item.within.trans (Nat.le_succ _))⟩
termination_by input.length
decreasing_by exact Nat.lt_succ_of_le item.within

def parseSet (start more : List Nat) : Reads PatternNode more.length := do
  let negated := more.head? = some CARET
  let items ← reader.parseSetItems start (if negated then more.tail else more)
  have fits : (if negated then more.tail else more).length ≤ more.length := by split <;> simp
  if items.value = [] then
    reader.fail (if negated then NEGATED_EMPTY_SET else ascii "holds an empty set") start
  else return ⟨.set negated items.value, items.rest, items.within.trans fits⟩

/-- The digits collected so far and those after them; none at all where there are too many. -/
def takeDigits (collected : List Nat) : (input : List Nat) → Read (List Nat) input.length
  | [] => ⟨collected, [], Nat.le_refl _⟩
  | digit :: rest =>
    if isDigit digit then
      if collected.length = MAX_NUMBER_RANGE_DIGITS then ⟨[], digit :: rest, Nat.le_refl _⟩
      else (takeDigits (collected ++ [digit]) rest).widen (Nat.le_succ _)
    else ⟨collected, digit :: rest, Nat.le_refl _⟩

def readDigits (input : List Nat) : Read (List Nat) input.length := takeDigits [] input

theorem takeDigits_digits (collected input : List Nat) (digits : ∀ digit ∈ collected, isDigit digit)
    (short : collected.length ≤ MAX_NUMBER_RANGE_DIGITS) :
    (∀ digit ∈ (takeDigits collected input).value, isDigit digit) ∧
      (takeDigits collected input).value.length ≤ MAX_NUMBER_RANGE_DIGITS := by
  induction input generalizing collected with
  | nil => exact ⟨digits, short⟩
  | cons digit rest ih =>
    rw [takeDigits]
    split
    next one =>
      split
      · exact ⟨fun _ isIn => (nomatch isIn), Nat.zero_le _⟩
      next below =>
        refine ih (collected ++ [digit]) ?_ ?_
        · exact List.forall_mem_append.mpr ⟨digits, List.forall_mem_singleton.mpr one⟩
        · rw [List.length_append, List.length_singleton]
          exact Nat.lt_of_le_of_ne short below
    next => exact ⟨digits, short⟩

theorem readDigits_digits (input : List Nat) :
    (∀ digit ∈ (readDigits input).value, isDigit digit) ∧
      (readDigits input).value.length ≤ MAX_NUMBER_RANGE_DIGITS :=
  takeDigits_digits [] input (fun _ isIn => nomatch isIn) (Nat.zero_le _)

/-- The high end of a number range and what closes it. -/
def readHigh (input : List Nat) : Read (List Nat) input.length :=
  match input with
  | [] => ⟨[], [], Nat.le_refl _⟩
  | hyphen :: more =>
    if hyphen = HYPHEN then (readDigits more).widen (Nat.le_succ _) else ⟨[], more, Nat.le_succ _⟩

theorem readHigh_digits (input : List Nat) :
    (∀ digit ∈ (readHigh input).value, isDigit digit) ∧ (readHigh input).value.length ≤ MAX_NUMBER_RANGE_DIGITS := by
  have nothing : (∀ digit ∈ ([] : List Nat), isDigit digit) ∧ ([] : List Nat).length ≤ MAX_NUMBER_RANGE_DIGITS :=
    ⟨fun _ isIn => (nomatch isIn), Nat.zero_le _⟩
  unfold readHigh
  split
  · exact nothing
  next hyphen more =>
    split
    · exact readDigits_digits more
    · exact nothing

def parseNumberRange (start more : List Nat) : Reads PatternNode more.length :=
  let low := readDigits more
  let high := readHigh low.rest
  match closed : high.rest with
  | [] => reader.fail NO_NUMBER_RANGE start
  | closing :: rest =>
    if missing : low.value = [] ∨ high.value = [] ∨ closing ≠ GREATER then reader.fail NO_NUMBER_RANGE start
    else if reversed : compareDigits low.value high.value > 0 then
      reader.fail (numberRangeReversed low.value high.value) start
    else
      have lowDigits := readDigits_digits more
      have highDigits := readHigh_digits low.rest
      have lowSome : 1 ≤ low.value.length := List.length_pos_iff.mpr fun nothing => missing (.inl nothing)
      have highSome : 1 ≤ high.value.length := List.length_pos_iff.mpr fun nothing => missing (.inr (.inl nothing))
      have ordered : numberOf low.value ≤ numberOf high.value := by
        rw [compareDigits] at reversed
        omega
      have within : rest.length ≤ more.length := (Read.behind closed).trans low.within
      do
        let expansion ← reader.expand
          ⟨low.value, high.value, lowDigits.1, highDigits.1, ⟨lowSome, lowDigits.2⟩, ⟨highSome, highDigits.2⟩, ordered⟩
        return ⟨.numberRange expansion, rest, within⟩

/-- A group, where groups may still be nested. -/
def parseGroup (body : Option PatternReader) (start more : List Nat) : Reads PatternNode more.length :=
  if more.head? = some QUESTION then
    reader.fail (ascii "holds \"(?\", which opens a lookaround, an inline flag, or a non-capturing group. The grammar leaves out all three") start
  else
    match body with
    | none => reader.fail (ascii "nests its groups more than 32 deep") start
    | some parsePattern => do
      let pattern ← parsePattern more
      match rest : pattern.rest with
      | [] => reader.fail (ascii "opens a group that it never closes") start
      | closing :: left =>
        if closing ≠ CLOSE_PAREN then reader.fail (ascii "opens a group that it never closes") start
        else return ⟨pattern.value, left, Read.behind rest⟩

def parseAtom (body : Option PatternReader) (codePoint : Nat) (more : List Nat) : Reads PatternNode more.length :=
  let start := codePoint :: more
  if codePoint = BACKSLASH then reader.parseEscape start more
  else if codePoint = DOT then .ok ⟨.any, more, Nat.le_refl _⟩
  else if codePoint = CARET then .ok ⟨.assert START_MASK, more, Nat.le_refl _⟩
  else if codePoint = DOLLAR then .ok ⟨.assert END_MASK, more, Nat.le_refl _⟩
  else if codePoint = OPEN_BRACKET then reader.parseSet start more
  else if codePoint = OPEN_PAREN then reader.parseGroup body start more
  else if codePoint = LESS then reader.parseNumberRange start more
  else if codePoint ∈ RESERVED then reader.fail (reservedHere codePoint) start
  else .ok ⟨.literal codePoint, more, Nat.le_refl _⟩

def startsRepeat (codePoint : Nat) : Bool :=
  codePoint = STAR || codePoint = PLUS || codePoint = QUESTION || codePoint = OPEN_BRACE

def parsePiece (body : Option PatternReader) (codePoint : Nat) (more : List Nat) : Reads PatternNode more.length := do
  let atom ← reader.parseAtom body codePoint more
  let count ← reader.parseRepeat atom.rest
  match count.value with
  | none => return ⟨atom.value, count.rest, count.within.trans atom.within⟩
  | some repeated =>
    match count.rest.head? with
    | some next =>
      if startsRepeat next then reader.fail (secondRepeat next) count.rest
      else return ⟨.repeated atom.value repeated, count.rest, count.within.trans atom.within⟩
    | none => return ⟨.repeated atom.value repeated, count.rest, count.within.trans atom.within⟩

def parsePieces (body : Option PatternReader) (input : List Nat) : Reads (List PatternNode) input.length :=
  match input with
  | [] => .ok ⟨[], [], Nat.le_refl _⟩
  | codePoint :: more =>
    if codePoint = BAR ∨ codePoint = CLOSE_PAREN then .ok ⟨[], codePoint :: more, Nat.le_refl _⟩
    else do
      let piece ← reader.parsePiece body codePoint more
      let others ← parsePieces body piece.rest
      return ⟨piece.value :: others.value, others.rest, others.within.trans (piece.within.trans (Nat.le_succ _))⟩
termination_by input.length
decreasing_by exact Nat.lt_succ_of_le piece.within

/-- The node of a branch. -/
def branchNode : List PatternNode → PatternNode
  | [item] => item
  | items => .sequence items

def parseBranch (body : Option PatternReader) (input : List Nat) : Reads PatternNode input.length := do
  let items ← reader.parsePieces body input
  return ⟨branchNode items.value, items.rest, items.within⟩

/-- The first branch and the others. -/
def parseBranches (body : Option PatternReader) (input : List Nat) :
    Reads (PatternNode × List PatternNode) input.length := do
  let branch ← reader.parseBranch body input
  match rest : branch.rest with
  | [] => return ⟨(branch.value, []), branch.rest, branch.within⟩
  | bar :: more =>
    if bar ≠ BAR then return ⟨(branch.value, []), branch.rest, branch.within⟩
    else
      let others ← parseBranches body more
      return ⟨(branch.value, others.value.1 :: others.value.2), others.rest, others.within.trans (Read.behind rest)⟩
termination_by input.length
decreasing_by
  have within := branch.within
  rw [rest] at within
  exact within

/-- The node of a pattern. -/
def patternNode : PatternNode × List PatternNode → PatternNode
  | (branch, []) => branch
  | (branch, others) => .choice branch others

/-- A pattern in which groups nest so many levels deep at most. -/
def parsePattern : (levels : Nat) → PatternReader
  | 0, input => do
    let branches ← reader.parseBranches none input
    return ⟨patternNode branches.value, branches.rest, branches.within⟩
  | levels + 1, input => do
    let branches ← reader.parseBranches (some (parsePattern levels)) input
    return ⟨patternNode branches.value, branches.rest, branches.within⟩

def parse (codePoints : List Nat) : Except Rejection PatternNode := do
  let pattern ← reader.parsePattern MAX_PATTERN_GROUP_DEPTH codePoints
  match pattern.rest with
  | [] => return pattern.value
  | left => reader.fail (ascii "closes a group that it never opened") left

end RegexReader

/-- The reader of what a number range stands for. There is no number range in it, so that it
never asks for another one. -/
def parseExpansion (bounds : NumberBounds) : Except Rejection PatternNode :=
  let codePoints := numberRange bounds.low bounds.high
  RegexReader.parse ⟨codePoints.length, fun _ => .error ⟨NO_NUMBER_RANGE, 0⟩⟩ codePoints

def parseRegex (codePoints : List Nat) : Except Rejection PatternNode :=
  RegexReader.parse ⟨codePoints.length, parseExpansion⟩ codePoints

end Narsil.Pattern

/-!
## The grammar of regular expressions

Which texts the grammar has, and the node it assigns to each. What is in a group or behind a
number range is a parameter, so that the levels of nested groups are taken one at a time.
-/
namespace Narsil.Pattern

/-- The decimal digits of a count within the limit. -/
structure IsCount (digits : List Nat) : Prop where
  some_digit : digits ≠ []
  all_digits : ∀ digit ∈ digits, isDigit digit
  limit : numberOf digits ≤ MAX_PATTERN_REPEAT_COUNT

/-- `*`, `+`, `?`, `{n}`, `{n,}` or `{n,m}`. -/
inductive RepeatText : List Nat → RepeatCount → Prop
  | star (ordered) : RepeatText [STAR] ⟨0, none, ordered⟩
  | plus (ordered) : RepeatText [PLUS] ⟨1, none, ordered⟩
  | question (ordered) : RepeatText [QUESTION] ⟨0, some 1, ordered⟩
  | exactly {digits : List Nat} (count : IsCount digits) (ordered) :
    RepeatText (OPEN_BRACE :: (digits ++ [CLOSE_BRACE])) ⟨numberOf digits, some (numberOf digits), ordered⟩
  | atLeast {digits : List Nat} (count : IsCount digits) (ordered) :
    RepeatText (OPEN_BRACE :: (digits ++ [COMMA, CLOSE_BRACE])) ⟨numberOf digits, none, ordered⟩
  | between {lower upper : List Nat} (low : IsCount lower) (high : IsCount upper) (ordered) :
    RepeatText (OPEN_BRACE :: (lower ++ COMMA :: (upper ++ [CLOSE_BRACE])))
      ⟨numberOf lower, some (numberOf upper), ordered⟩

inductive MemberText : List Nat → Nat → Prop
  | plain {codePoint : Nat} (free : codePoint ∉ [BACKSLASH, OPEN_BRACKET, CLOSE_BRACKET, HYPHEN]) :
    MemberText [codePoint] codePoint
  | escaped {codePoint : Nat} (punctuation : isAsciiPunctuation codePoint) :
    MemberText [BACKSLASH, codePoint] codePoint

inductive SetItemText : List Nat → SetItem → Prop
  | member {text : List Nat} {codePoint : Nat} (member : MemberText text codePoint) :
    SetItemText text (.member codePoint)
  | range {lowText highText : List Nat} {low high : Nat} (first : MemberText lowText low)
    (last : MemberText highText high) (ordered : low ≤ high) :
    SetItemText (lowText ++ HYPHEN :: highText) (.range low high ordered)
  | charClass {escaped : Nat} {name : ClassName} (known : (escaped, name) ∈ CLASS_ESCAPES) :
    SetItemText [BACKSLASH, escaped] (.charClass name)

inductive SetItemsText : List Nat → List SetItem → Prop
  | nil : SetItemsText [] []
  | cons {text rest : List Nat} {item : SetItem} {items : List SetItem} (first : SetItemText text item)
    (others : SetItemsText rest items) : SetItemsText (text ++ rest) (item :: items)

section
variable (Group : List Nat → PatternNode → Prop) (Expands : NumberBounds → PatternNode → Prop)

inductive AtomText : List Nat → PatternNode → Prop
  | literal {codePoint : Nat} (free : codePoint ∉ RESERVED) : AtomText [codePoint] (.literal codePoint)
  | escaped {codePoint : Nat} (punctuation : isAsciiPunctuation codePoint) :
    AtomText [BACKSLASH, codePoint] (.literal codePoint)
  | any : AtomText [DOT] .any
  | charClass {escaped : Nat} {name : ClassName} (known : (escaped, name) ∈ CLASS_ESCAPES) :
    AtomText [BACKSLASH, escaped] (.charClass name)
  | start : AtomText [CARET] (.assert START_MASK)
  | finish : AtomText [DOLLAR] (.assert END_MASK)
  | wordEdge : AtomText [BACKSLASH, WORD_EDGE_ESCAPE] (.assert WORD_EDGE_MASK)
  /-- A caret directly after the bracket negates the set. -/
  | set {text : List Nat} {items : List SetItem} (members : SetItemsText text items) (some_member : items ≠ [])
    (no_caret : text.head? ≠ some CARET) :
    AtomText (OPEN_BRACKET :: (text ++ [CLOSE_BRACKET])) (.set false items)
  | negatedSet {text : List Nat} {items : List SetItem} (members : SetItemsText text items)
    (some_member : items ≠ []) : AtomText (OPEN_BRACKET :: CARET :: (text ++ [CLOSE_BRACKET])) (.set true items)
  | group {text : List Nat} {node : PatternNode} (body : Group text node) :
    AtomText (OPEN_PAREN :: (text ++ [CLOSE_PAREN])) node
  | numberRange {bounds : NumberBounds} {expansion : PatternNode} (expands : Expands bounds expansion) :
    AtomText (LESS :: (bounds.low ++ HYPHEN :: (bounds.high ++ [GREATER]))) (.numberRange expansion)

inductive PieceText : List Nat → PatternNode → Prop
  | bare {text : List Nat} {atom : PatternNode} (first : AtomText Group Expands text atom) : PieceText text atom
  | repeated {text rest : List Nat} {atom : PatternNode} {count : RepeatCount}
    (first : AtomText Group Expands text atom) (counted : RepeatText rest count) : PieceText (text ++ rest) (.repeated atom count)

inductive PiecesText : List Nat → List PatternNode → Prop
  | nil : PiecesText [] []
  | cons {text rest : List Nat} {item : PatternNode} {items : List PatternNode}
    (first : PieceText Group Expands text item) (others : PiecesText rest items) : PiecesText (text ++ rest) (item :: items)

inductive BranchesText : List Nat → PatternNode × List PatternNode → Prop
  | one {text : List Nat} {items : List PatternNode} (pieces : PiecesText Group Expands text items) :
    BranchesText text (RegexReader.branchNode items, [])
  | more {text rest : List Nat} {items : List PatternNode} {others : PatternNode × List PatternNode}
    (pieces : PiecesText Group Expands text items) (later : BranchesText rest others) :
    BranchesText (text ++ BAR :: rest) (RegexReader.branchNode items, others.1 :: others.2)

end

/-- The texts of patterns whose groups nest so many levels deep at most. -/
def PatternText (Expands : NumberBounds → PatternNode → Prop) : (levels : Nat) → List Nat → PatternNode → Prop
  | 0, text, node =>
    ∃ branches, BranchesText (fun _ _ => False) Expands text branches ∧ node = RegexReader.patternNode branches
  | levels + 1, text, node =>
    ∃ branches, BranchesText (PatternText Expands levels) Expands text branches ∧
      node = RegexReader.patternNode branches

/-- What a number range stands for is a pattern with no number range in it. -/
def ExpansionText (bounds : NumberBounds) : PatternNode → Prop :=
  PatternText (fun _ _ => False) MAX_PATTERN_GROUP_DEPTH (numberRange bounds.low bounds.high)

/-- The texts of regular expressions, each with the node that the grammar assigns to it. -/
def RegexText : List Nat → PatternNode → Prop := PatternText ExpansionText MAX_PATTERN_GROUP_DEPTH

end Narsil.Pattern
