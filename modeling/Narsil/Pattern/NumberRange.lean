import Narsil.Digits.Decimal

/-!
# Number ranges

`<low-high>` stands for a pattern of digits that `numberRange` writes. A digit is written as
its code point.
-/
namespace Narsil.Pattern

def ZERO : Nat := 0x30
def NINE : Nat := 0x39
def OPEN_PAREN : Nat := 0x28
def CLOSE_PAREN : Nat := 0x29
def HYPHEN : Nat := 0x2d
def OPEN_BRACKET : Nat := 0x5b
def CLOSE_BRACKET : Nat := 0x5d
def OPEN_BRACE : Nat := 0x7b
def BAR : Nat := 0x7c
def CLOSE_BRACE : Nat := 0x7d

def isDigit (codePoint : Nat) : Bool := ZERO ≤ codePoint && codePoint ≤ NINE

/-- `Number` of a text of digits. -/
def numberOf (digits : List Nat) : Nat := Decimal.value (digits.map fun digit => digit - ZERO)

/-- `String` of a number. -/
def decimal (n : Nat) : List Nat := (Decimal.digits n).map fun digit => digit + ZERO

def compareDigits (low high : List Nat) : Int := (numberOf low : Int) - (numberOf high : Int)

/-- `[low-high]`. -/
def rangeSet (low high : List Nat) : List Nat := OPEN_BRACKET :: (low ++ HYPHEN :: (high ++ [CLOSE_BRACKET]))

def anyDigit : List Nat := rangeSet [ZERO] [NINE]

/-- `(part|part|…)`. -/
def grouped (parts : List (List Nat)) : List Nat := OPEN_PAREN :: (List.intercalate [BAR] parts ++ [CLOSE_PAREN])

def sameWidth (low high : List Nat) : List Nat :=
  if low = high then low
  else if low ≠ [] ∧ (∀ digit ∈ low, digit = ZERO) ∧ ∀ digit ∈ high, digit = NINE then
    if low.length = 1 then anyDigit
    else anyDigit ++ OPEN_BRACE :: (decimal low.length ++ [CLOSE_BRACE])
  else if low.length = 1 then rangeSet low high
  else
    match low, high with
    | lowLead :: lowRest, highLead :: highRest =>
      if lowLead = highLead then lowLead :: sameWidth lowRest highRest
      else
        let first := lowLead :: sameWidth lowRest (List.replicate lowRest.length NINE)
        let middle :=
          if lowLead - ZERO + 1 ≤ highLead - ZERO - 1 then
            [rangeSet (decimal (lowLead - ZERO + 1)) (decimal (highLead - ZERO - 1)) ++
              (List.replicate lowRest.length anyDigit).flatten]
          else []
        let last := highLead :: sameWidth (List.replicate lowRest.length ZERO) highRest
        grouped (first :: (middle ++ [last]))
    | _, _ => low
termination_by low.length

/-- The parts for as many widths as are left, from a first number and its width. -/
def widthParts (highest : Nat) : (left start width : Nat) → List (List Nat)
  | 0, _, _ => []
  | left + 1, start, width =>
    sameWidth (decimal start) (decimal (min highest (10 ^ width - 1))) ::
      widthParts highest left (10 ^ width) (width + 1)

def numberRange (low high : List Nat) : List Nat :=
  if low.length = high.length then sameWidth low high
  else
    let highest := numberOf high
    let start := numberOf low
    let width := (decimal start).length
    grouped (widthParts highest ((decimal highest).length + 1 - width) start width)

end Narsil.Pattern
