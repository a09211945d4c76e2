import Narsil.Ordering.SortValues

/-!
# The binding of a cursor to its request

A cursor carries the hash of what decides which documents a page holds: the values of
the request, each written with a tag, hashed with FNV-1a.
-/
namespace Narsil.Cursor
open Narsil.Ordering

abbrev Bytes := List UInt8

def FNV_OFFSET_BASIS : UInt32 := 0x811c9dc5
def FNV_PRIME : UInt32 := 0x01000193

def fnv1aContinue (start : UInt32) (bytes : Bytes) : UInt32 :=
  bytes.foldl (fun hash byte => (hash ^^^ byte.toUInt32) * FNV_PRIME) start

/-- A value of a request, as a caller passes it. -/
inductive JsValue
  | undefined
  | null
  | boolean (value : Bool)
  | number (value : JsNumber)
  | string (value : JsString)
  | list (members : List JsValue)
  | record (members : List (JsString × JsValue))
  /-- The numbers of a query vector. -/
  | numberList (members : List JsNumber)

abbrev Members := List (JsString × JsValue)

/-- How the runtime lays out a number. -/
structure NumberBytes where
  float64 : JsNumber → Bytes
  fround : JsNumber → JsNumber

def ABSENT_TAG : UInt8 := 0
def NULL_TAG : UInt8 := 1
def FALSE_TAG : UInt8 := 2
def TRUE_TAG : UInt8 := 3
def NUMBER_TAG : UInt8 := 4
def STRING_TAG : UInt8 := 5
def LIST_TAG : UInt8 := 6
def MAP_TAG : UInt8 := 7

def uint32Bytes (value : Nat) : Bytes :=
  [(value >>> 24).toUInt8, (value >>> 16).toUInt8, (value >>> 8).toUInt8, value.toUInt8]

/-- The UTF-8 bytes of a code point; a lone surrogate is replaced. -/
def utf8Bytes (codePoint : Nat) : Bytes :=
  if codePoint < 0x80 then [codePoint.toUInt8]
  else if codePoint < 0x800 then [(0xc0 + codePoint >>> 6).toUInt8, (0x80 + codePoint % 64).toUInt8]
  else if 0xd800 ≤ codePoint ∧ codePoint < 0xe000 then [0xef, 0xbf, 0xbd]
  else if codePoint < 0x10000 then
    [(0xe0 + codePoint >>> 12).toUInt8, (0x80 + (codePoint >>> 6) % 64).toUInt8, (0x80 + codePoint % 64).toUInt8]
  else
    [(0xf0 + codePoint >>> 18).toUInt8, (0x80 + (codePoint >>> 12) % 64).toUInt8,
      (0x80 + (codePoint >>> 6) % 64).toUInt8, (0x80 + codePoint % 64).toUInt8]

def encodeUtf8 (value : JsString) : Bytes := (codePoints value).flatMap utf8Bytes

def LAST_ASCII_UNIT : UInt16 := 0x7f

def writeString (value : JsString) : Bytes :=
  if value.all fun unit => unit ≤ LAST_ASCII_UNIT then
    uint32Bytes value.length ++ value.map fun unit => unit.toUInt8
  else uint32Bytes (encodeUtf8 value).length ++ encodeUtf8 value

section Write
variable (host : NumberBytes)

mutual

def writeValue : JsValue → Bytes
  | .undefined => [ABSENT_TAG]
  | .null => [NULL_TAG]
  | .boolean value => [if value then TRUE_TAG else FALSE_TAG]
  | .number value => NUMBER_TAG :: host.float64 value
  | .string value => STRING_TAG :: writeString value
  | .list members => LIST_TAG :: uint32Bytes members.length ++ writeMembers members
  | .record members =>
    -- The keys in code point order, each before its value.
    MAP_TAG :: uint32Bytes members.length ++
      ((writeEntries members).mergeSort fun first second => (compareCodePoints first.1 second.1).isLE).flatMap
        fun entry => STRING_TAG :: writeString entry.1 ++ entry.2
  | .numberList members =>
    LIST_TAG :: uint32Bytes members.length ++
      members.flatMap fun number => NUMBER_TAG :: host.float64 (host.fround number)

/-- A member that is not there counts as null. -/
def writeMembers : List JsValue → Bytes
  | [] => []
  | .undefined :: members => NULL_TAG :: writeMembers members
  | member :: members => writeValue member ++ writeMembers members

def writeEntries : List (JsString × JsValue) → List (JsString × Bytes)
  | [] => []
  | (key, .undefined) :: entries => (key, [NULL_TAG]) :: writeEntries entries
  | (key, value) :: entries => (key, writeValue value) :: writeEntries entries

end

def memberOf (members : Members) (key : String) : JsValue :=
  ((members.find? fun entry => entry.1 == ascii key).map Prod.snd).getD .undefined

def JsValue.isUndefined : JsValue → Bool
  | .undefined => true
  | _ => false

def presentMembersOf (members : Members) : Members :=
  members.filter fun entry => !entry.2.isUndefined

/-- The part of a request that its cursor depends on. -/
structure BoundParams where
  term : Option JsString
  fields : JsValue
  filters : JsValue
  boost : JsValue
  minScore : JsValue
  termMatch : JsValue
  tolerance : JsValue
  prefixLength : JsValue
  prefixes : JsValue
  partialWords : JsValue
  exact : JsValue
  pinned : JsValue
  mode : JsValue
  hybrid : JsValue
  vector : Option Members
  scoring : JsValue
  rerank : Option Members
  bm25 : Option Members

def numbersOf : JsValue → List JsNumber
  | .list members => members.filterMap fun
    | .number value => some value
    | _ => none
  | .numberList members => members
  | _ => []

def boundVectorOf : Option Members → JsValue
  | none => .undefined
  | some vector =>
    let value := memberOf vector "value"
    let bound :=
      if value.isUndefined then vector
      else (ascii "value", .numberList (numbersOf value)) :: vector.filter fun entry => entry.1 != ascii "value"
    .record (if (memberOf vector "text").isUndefined then bound
      else bound.filter fun entry => entry.1 != ascii "value")

def setsPair : JsValue → Bool
  | .record members => !(memberOf members "k1").isUndefined || !(memberOf members "b").isUndefined
  | _ => true

def bm25SetsValue (bm25 : Members) : Bool :=
  if !(memberOf bm25 "k1").isUndefined || !(memberOf bm25 "b").isUndefined then true
  else
    match memberOf bm25 "fields" with
    | .undefined => false
    | .record fields => fields.any fun entry => setsPair entry.2
    | _ => true

def boundFieldOf (entry : JsString × JsValue) : Option (JsString × JsValue) :=
  match entry.2 with
  | .record members =>
    if (presentMembersOf members).isEmpty then none
    else some (entry.1, .record (presentMembersOf members))
  | value => some (entry.1, value)

def boundBm25Of (bm25 : Members) : JsValue :=
  let bound := presentMembersOf bm25
  match memberOf bm25 "fields" with
  | .record fields =>
    let others := bound.filter fun entry => entry.1 != ascii "fields"
    let boundFields := fields.filterMap boundFieldOf
    .record (if boundFields.isEmpty then others else (ascii "fields", .record boundFields) :: others)
  | _ => .record bound

def boundValuesOf (params : BoundParams) : List JsValue :=
  [params.term.elim .undefined .string, params.fields, params.filters, params.boost, params.minScore,
    params.termMatch, params.tolerance, params.prefixLength, params.prefixes, params.partialWords,
    params.exact, params.pinned, params.mode, params.hybrid, boundVectorOf params.vector,
    if params.scoring.isUndefined then .string (ascii "local") else params.scoring] ++
    (params.rerank.elim [] fun rerank => [.record (presentMembersOf rerank)]) ++
    (params.bm25.elim [] fun bm25 => if bm25SetsValue bm25 then [boundBm25Of bm25] else [])

def hexDigit (value : Nat) : UInt16 :=
  if value < 10 then (0x30 + value).toUInt16 else (0x61 + (value - 10)).toUInt16

/-- Eight lowercase hex digits. -/
def hexDigits (hash : UInt32) : JsString :=
  [28, 24, 20, 16, 12, 8, 4, 0].map fun shift => hexDigit (hash.toNat >>> shift % 16)

def bindingOf (values : List JsValue) : JsString :=
  hexDigits (fnv1aContinue FNV_OFFSET_BASIS (values.flatMap (writeValue host)))

def queryBindingOf (params : BoundParams) : JsString := bindingOf host (boundValuesOf params)

end Write

/-- A full-text request with nothing else set. -/
def termParams (term : JsString) : BoundParams where
  term := some term
  fields := .undefined
  filters := .undefined
  boost := .undefined
  minScore := .undefined
  termMatch := .undefined
  tolerance := .undefined
  prefixLength := .undefined
  prefixes := .undefined
  partialWords := .undefined
  exact := .undefined
  pinned := .undefined
  mode := .undefined
  hybrid := .undefined
  vector := none
  scoring := .undefined
  rerank := none
  bm25 := none

end Narsil.Cursor
