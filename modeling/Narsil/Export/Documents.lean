import Narsil.Serialization.Base64
import Narsil.Serialization.JsonText

/-!
# Documents as lines of JSON

`engine/export/json-line.ts` and `tags.ts`: what JSON has no text for is written as a map
whose only key begins with `$`, and a map that looks like one is wrapped in another.
-/
namespace Narsil.Export

open Narsil.Ordering (JsString ascii)
open Narsil.Serialization

def MAX_DOCUMENT_NESTING_DEPTH : ℕ := 32
def MAX_DATE_MILLISECONDS : ℤ := 8640000000000000
def MILLISECONDS_PER_SECOND : ℤ := 1000
def NANOSECONDS_PER_MILLISECOND : ℤ := 1000000
def MAX_NANOSECONDS : ℤ := 999999999
def MAX_SAFE_INTEGER : ℤ := 9007199254740991

/-- A valid time: whole milliseconds within the range of a date. -/
structure Time where
  milliseconds : ℤ
  within : |milliseconds| ≤ MAX_DATE_MILLISECONDS

/-- A value of a document. An invalid date has no time; an object of a class, a function, a
symbol or a big integer is foreign. -/
inductive Value where
  | undefined
  | null
  | boolean (value : Bool)
  | number (value : JsNumber)
  | string (value : JsString)
  | date (time : Option Time)
  | bytes (value : List UInt8)
  | list (values : List Value)
  | map (entries : List (JsString × Value))
  | foreign (kind : JsString)

structure Refusal where
  message : JsString
  field : JsString
  deriving DecidableEq

def TAG_PREFIX : UInt16 := 0x24
def DATE_TAG : JsString := ascii "$date"
def BYTES_TAG : JsString := ascii "$bytes"
def NUMBER_TAG : JsString := ascii "$number"
def OBJECT_TAG : JsString := ascii "$object"
def ESCAPED_TAG_PREFIX : JsString := ascii "\\u0024"

def startsWithTagPrefix (key : JsString) : Bool := key.head? = some TAG_PREFIX

def keyPath (path key : JsString) : JsString := if path = [] then key else path ++ ascii "." ++ key

def itemPath (path : JsString) (index : ℕ) : JsString :=
  path ++ ascii "[" ++ digitsText (Decimal.digits index) ++ ascii "]"

def shownPath (path : JsString) : JsString := if path = [] then ascii "(document)" else path

structure JsonLineTarget where
  docId : JsString
  tagged : Bool

def refuseWriting (path kind : JsString) (target : JsonLineTarget) : Refusal where
  message := ascii "Document \"" ++ target.docId ++ ascii "\" holds " ++ kind ++ ascii " at \"" ++ shownPath path ++
    ascii "\", which a document export cannot carry as JSON"
  field := path

/-- A map with a tag as its only key. -/
def tagText (tag body : JsString) : JsString := OPEN_MAP :: QUOTE :: (tag ++ QUOTE :: COLON :: (body ++ [CLOSE_MAP]))

def encodeNumber (value : JsNumber) (path : JsString) (target : JsonLineTarget) : Except Refusal JsString :=
  match value with
  | .finite _ | .negativeZero => .ok value.text
  | .infinity _ | .nan =>
    if target.tagged then .ok (tagText NUMBER_TAG (QUOTE :: (value.text ++ [QUOTE])))
    else .error (refuseWriting path value.text target)

/-- The seconds of a time, from a division that rounds. -/
def Time.seconds (time : Time) : ℤ := ⌊Binary64.round (time.milliseconds / MILLISECONDS_PER_SECOND)⌋

/-- Integers below 2^53, which binary64 multiplies and subtracts as they are. -/
def Time.nanoseconds (time : Time) : ℤ :=
  (time.milliseconds - time.seconds * MILLISECONDS_PER_SECOND) * NANOSECONDS_PER_MILLISECOND

def encodeDate (value : Option Time) (path : JsString) (target : JsonLineTarget) : Except Refusal JsString :=
  match value, target.tagged with
  | some time, true =>
    .ok (tagText DATE_TAG
      (OPEN_LIST :: (numberText time.seconds ++ COMMA :: (numberText time.nanoseconds ++ [CLOSE_LIST]))))
  | _, _ => .error (refuseWriting path (ascii "a date") target)

def encodeBytes (value : List UInt8) (path : JsString) (target : JsonLineTarget) : Except Refusal JsString :=
  if target.tagged then .ok (tagText BYTES_TAG (QUOTE :: (encodeBase64 value ++ [QUOTE])))
  else .error (refuseWriting path (ascii "bytes") target)

def Value.isDefined : Value → Bool
  | .undefined => false
  | _ => true

def definedEntries (entries : List (JsString × Value)) : List (JsString × Value) :=
  entries.filter fun entry => entry.2.isDefined

/-- The map looks like a tag. -/
def looksTagged (entries : List (JsString × Value)) : Bool :=
  match definedEntries entries with
  | [(key, _)] => startsWithTagPrefix key
  | _ => false

mutual

def encodeValue (target : JsonLineTarget) : Value → JsString → Except Refusal JsString
  | .null, _ => .ok (ascii "null")
  | .string value, _ => .ok (stringText value)
  | .boolean value, _ => .ok (ascii (if value then "true" else "false"))
  | .number value, path => encodeNumber value path target
  | .undefined, path => .error (refuseWriting path (ascii "a undefined") target)
  | .foreign kind, path => .error (refuseWriting path kind target)
  | .list values, path => do
    let parts ← encodeList target values path 0
    return OPEN_LIST :: (joinedParts parts ++ [CLOSE_LIST])
  | .date time, path => encodeDate time path target
  | .bytes value, path => encodeBytes value path target
  | .map entries, path => do
    let parts ← encodeEntries target entries path
    let text := OPEN_MAP :: (joinedParts parts ++ [CLOSE_MAP])
    return if target.tagged && looksTagged entries then tagText OBJECT_TAG text else text

def encodeList (target : JsonLineTarget) : List Value → JsString → ℕ → Except Refusal (List JsString)
  | [], _, _ => .ok []
  | value :: values, path, index => do
    let part ← encodeValue target value (itemPath path index)
    return part :: (← encodeList target values path (index + 1))

/-- The entries that are defined, one after another. -/
def encodeEntries (target : JsonLineTarget) : List (JsString × Value) → JsString → Except Refusal (List JsString)
  | [], _ => .ok []
  | (key, value) :: entries, path =>
    if value.isDefined then do
      let part ← encodeValue target value (keyPath path key)
      return (stringText key ++ COLON :: part) :: (← encodeEntries target entries path)
    else encodeEntries target entries path

end

def encodeExactJson (value : Value) (docId : JsString) : Except Refusal JsString :=
  encodeValue { docId, tagged := false } value []

def encodeDocumentJson (document : List (JsString × Value)) (docId : JsString) : Except Refusal JsString :=
  encodeValue { docId, tagged := true } (.map document) []

def refuseReading (path reason : JsString) : Refusal where
  message := ascii "Field \"" ++ shownPath path ++ ascii "\" " ++ reason
  field := path

def nonFiniteNumbers (text : JsString) : Option JsNumber :=
  if text = ascii "NaN" then some .nan
  else if text = ascii "Infinity" then some (.infinity false)
  else if text = ascii "-Infinity" then some (.infinity true)
  else none

/-- The integer that a number is. -/
def integerOf : Json → Option ℤ
  | .number (.finite number) => if number.value.den = 1 then some number.value.num else none
  | .number .negativeZero => some 0
  | _ => none

/-- The time that `new Date` keeps of a number within the range: whole milliseconds. -/
def timeOf (milliseconds : ℚ) (within : |milliseconds| ≤ MAX_DATE_MILLISECONDS) : Time where
  milliseconds := if milliseconds < 0 then ⌈milliseconds⌉ else ⌊milliseconds⌋
  within := by
    rw [abs_le] at within
    split
    next negative =>
      rw [abs_of_nonpos (Int.ceil_le.mpr (by simpa using negative.le))]
      have low : -MAX_DATE_MILLISECONDS ≤ ⌈milliseconds⌉ := by
        have above := Int.le_ceil milliseconds
        exact_mod_cast within.1.trans above
      omega
    next positive =>
      rw [not_lt] at positive
      rw [abs_of_nonneg (Int.floor_nonneg.mpr positive)]
      have below := Int.floor_le milliseconds
      exact_mod_cast below.trans within.2

def dateOf (value : Json) (path : JsString) : Except Refusal Value :=
  match value with
  | .list [secondsValue, nanosecondsValue] =>
    match (integerOf secondsValue).filter fun seconds => |seconds| ≤ MAX_SAFE_INTEGER with
    | none =>
      .error (refuseReading path (ascii "holds a \"$date\" tag whose seconds are not an integer from -9007199254740991 to 9007199254740991"))
    | some seconds =>
      match (integerOf nanosecondsValue).filter fun nanoseconds => 0 ≤ nanoseconds ∧ nanoseconds ≤ MAX_NANOSECONDS with
      | none =>
        .error (refuseReading path (ascii "holds a \"$date\" tag whose nanoseconds are not an integer from 0 to 999999999"))
      | some nanoseconds =>
        let milliseconds := Binary64.round (Binary64.round (seconds * MILLISECONDS_PER_SECOND) +
          Binary64.round (nanoseconds / NANOSECONDS_PER_MILLISECOND))
        if within : |milliseconds| ≤ MAX_DATE_MILLISECONDS then .ok (.date (some (timeOf milliseconds within)))
        else .error (refuseReading path (ascii "holds a \"$date\" tag outside the range of a date"))
  | _ => .error (refuseReading path (ascii "holds a \"$date\" tag other than [seconds, nanoseconds]"))

def bytesOf (value : Json) (path : JsString) : Except Refusal Value :=
  let bytes := match value with
    | .string text => decodeExactBase64 text
    | _ => none
  match bytes with
  | some bytes => .ok (.bytes bytes)
  | none => .error (refuseReading path (ascii "holds a \"$bytes\" tag whose text is not padded base64"))

def numberOf (value : Json) (path : JsString) : Except Refusal Value :=
  let number := match value with
    | .string text => nonFiniteNumbers text
    | _ => none
  match number with
  | some number => .ok (.number number)
  | none =>
    .error (refuseReading path (ascii "holds a \"$number\" tag other than \"NaN\", \"Infinity\", or \"-Infinity\""))

def requireDepth (path : JsString) (depth : ℕ) : Except Refusal Unit :=
  if depth ≥ MAX_DOCUMENT_NESTING_DEPTH then .error (refuseReading path (ascii "nests deeper than 32 levels"))
  else .ok ()

def soleTagKey (record : List (JsString × Json)) : Option JsString :=
  match record with
  | [(sole, _)] => if startsWithTagPrefix sole then some sole else none
  | _ => none

mutual

/-- What a parsed value is without any tag. -/
def plainValue : Json → Value
  | .null => .null
  | .boolean value => .boolean value
  | .number value => .number value
  | .string value => .string value
  | .list values => .list (plainList values)
  | .map entries => .map (plainEntries entries)

def plainList : List Json → List Value
  | [] => []
  | value :: values => plainValue value :: plainList values

def plainEntries : List (JsString × Json) → List (JsString × Value)
  | [] => []
  | (key, value) :: entries => (key, plainValue value) :: plainEntries entries

end

mutual

def untag : Json → JsString → ℕ → Except Refusal Value
  | .null, _, _ => .ok .null
  | .boolean value, _, _ => .ok (.boolean value)
  | .number value, _, _ => .ok (.number value)
  | .string value, _, _ => .ok (.string value)
  | .list values, path, depth => do
    requireDepth path depth
    return .list (← untagList values path 0 (depth + 1))
  | .map record, path, depth =>
    match soleTagKey record with
    | none => do
      requireDepth path depth
      return .map (← untagEntries record path (depth + 1))
    | some tag => untagSole tag record path depth

def untagList : List Json → JsString → ℕ → ℕ → Except Refusal (List Value)
  | [], _, _, _ => .ok []
  | value :: values, path, index, depth => do
    let untagged ← untag value (itemPath path index) depth
    return untagged :: (← untagList values path (index + 1) depth)

def untagEntries : List (JsString × Json) → JsString → ℕ → Except Refusal (List (JsString × Value))
  | [], _, _ => .ok []
  | (key, value) :: entries, path, depth => do
    let untagged ← untag value (keyPath path key) depth
    return (key, untagged) :: (← untagEntries entries path depth)

/-- `untagTag` of the value under the only key. -/
def untagSole (tag : JsString) : List (JsString × Json) → JsString → ℕ → Except Refusal Value
  | [], path, _ => .error (refuseReading path [])
  | (_, value) :: _, path, depth => untagTag tag value path depth

def untagTag (tag : JsString) : Json → JsString → ℕ → Except Refusal Value
  | value, path, depth =>
    if tag = DATE_TAG then dateOf value path
    else if tag = BYTES_TAG then bytesOf value path
    else if tag = NUMBER_TAG then numberOf value path
    else if tag = OBJECT_TAG then
      match value with
      | .map record => do
        requireDepth path depth
        return .map (← untagEntries record path (depth + 1))
      | _ => .error (refuseReading path (ascii "holds an \"$object\" tag whose value is not an object"))
    else
      .error (refuseReading path (ascii "holds an object whose only key, \"" ++ tag ++ ascii "\", names no tag"))

end

/-- `untagMap` at the document itself. -/
def untagMap (record : List (JsString × Json)) (path : JsString) (depth : ℕ) :
    Except Refusal (List (JsString × Value)) := do
  requireDepth path depth
  untagEntries record path (depth + 1)

def untagDocumentLine (text : JsString) (parsed : List (JsString × Json)) :
    Except Refusal (List (JsString × Value)) :=
  if ¬ [QUOTE, TAG_PREFIX] <:+: text ∧ ¬ ESCAPED_TAG_PREFIX <:+: text then .ok (plainEntries parsed)
  else untagMap parsed [] 0

end Narsil.Export
