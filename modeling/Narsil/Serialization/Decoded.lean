import Narsil.Serialization.Crc32

/-!
# Decoded MessagePack values

What the MessagePack package gives back for a message, as far as the checks of the
readers tell values apart.
-/
namespace Narsil.Serialization

/-- A number of the language: an integer, or anything else (a fraction, an infinity, NaN). -/
inductive Number where
  | integer (value : Int)
  | other
  deriving DecidableEq, Repr

/-- The keys of an object are distinct. -/
inductive Decoded where
  | null
  | boolean (value : Bool)
  | number (value : Number)
  | string (value : String)
  | binary (value : Bytes)
  | array (values : List Decoded)
  | object (fields : List (String × Decoded))
  deriving Repr

abbrev Fields : Type := List (String × Decoded)

abbrev maxSafeInteger : Nat := 9007199254740991

/-- `isSafeNonNegativeInteger`, with the number it found. -/
def Number.safe : Number → Option Nat
  | .integer value => if 0 ≤ value ∧ value ≤ maxSafeInteger then some value.toNat else none
  | .other => none

theorem Number.safe_eq_some {number : Number} {value : Nat} (h : number.safe = some value) :
    number = .integer value ∧ value ≤ maxSafeInteger := by
  cases number with
  | integer given =>
    rw [safe] at h
    split at h
    next within =>
      obtain rfl := Option.some.inj h
      have back : (given.toNat : Int) = given := Int.toNat_of_nonneg within.1
      exact ⟨by rw [back], by omega⟩
    next => cases h
  | other => cases h

def Decoded.asNumber : Option Decoded → Option Number
  | some (.number value) => some value
  | _ => none

def Decoded.asString : Option Decoded → Option String
  | some (.string value) => some value
  | _ => none

def Decoded.asBinary : Option Decoded → Option Bytes
  | some (.binary value) => some value
  | _ => none

def Decoded.asObject : Option Decoded → Option Fields
  | some (.object fields) => some fields
  | _ => none

end Narsil.Serialization
