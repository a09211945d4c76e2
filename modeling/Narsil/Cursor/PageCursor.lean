import Narsil.Cursor.Binding

/-!
# The cursor a page ends with

A cursor names the last document of a page and where that document stands, by its
score or by its sort values. It travels as base64 text of a JSON object, and every rule
of its format is checked when it comes back.
-/
namespace Narsil.Cursor
open Narsil.Ordering

def CURSOR_VERSION : ℚ := 4
def MAX_CURSOR_LENGTH : Nat := 40960
def MAX_SORT_FIELDS : Nat := 8
def MAX_SORT_FIELD_NAME_LENGTH : Nat := 255
def MAX_CURSOR_ANCHOR_CODE_POINTS : Nat := 512
def MAX_SAFE_INTEGER : Nat := 9007199254740991

structure PageCursor where
  anchor : JsString
  score : Option JsNumber
  sortKey : Option (List ComparableSortValue)
  sortSignature : Option JsString
  depth : Option Nat
  binding : JsString
  deriving DecidableEq, Repr

inductive ErrorCode
  | SEARCH_INVALID_CURSOR
  | SEARCH_INVALID_FIELD
  | SEARCH_RESULT_WINDOW_EXCEEDED
  deriving DecidableEq, Repr

structure NarsilError where
  code : ErrorCode
  message : String
  /-- The text of the cursor that is shown with the error. -/
  cursor : JsString
  deriving DecidableEq, Repr

def invalidCursor (cursor : JsString) (reason : String) : NarsilError where
  code := .SEARCH_INVALID_CURSOR
  message := "Failed to decode cursor: " ++ reason
  cursor := if cursor.length > 100 then cursor.take 100 ++ ascii "..." else cursor

/-- A JSON value, as it is parsed; a number may be too large to be finite. -/
inductive Json
  | null
  | boolean (value : Bool)
  | number (value : JsNumber)
  | string (value : JsString)
  | array (members : List Json)
  | object (members : List (JsString × Json))

/-- The object a cursor is written as. -/
structure CursorPayload where
  a : JsString
  k : Option (List ComparableSortValue)
  o : Option JsString
  /-- A score that is not finite is written as null. -/
  s : Option (Option ℚ)
  d : Option Nat
  q : JsString
  deriving DecidableEq, Repr

def jsonOfSortValue : ComparableSortValue → Json
  | none => .null
  | some (.number value) => .number (.finite value)
  | some (.text value) => .string value
  | some (.boolean value) => .boolean value

def jsonOfNumber : Option ℚ → Json
  | none => .null
  | some value => .number (.finite value)

def CursorPayload.members (payload : CursorPayload) : List (JsString × Json) :=
  [(ascii "v", .number (.finite CURSOR_VERSION)), (ascii "a", .string payload.a)] ++
    (payload.k.elim [] fun key => [(ascii "k", .array (key.map jsonOfSortValue))]) ++
    (payload.o.elim [] fun signature => [(ascii "o", .string signature)]) ++
    (payload.s.elim [] fun score => [(ascii "s", jsonOfNumber score)]) ++
    (payload.d.elim [] fun depth => [(ascii "d", .number (.finite depth))]) ++
    [(ascii "q", .string payload.q)]

/-- The runtime's JSON and base64, and how it shows a value in a message. -/
structure CursorHost where
  stringify : CursorPayload → JsString
  stringifyLists : List (List JsString) → JsString
  parse : JsString → Option Json
  encodeCursorText : JsString → JsString
  decodeCursorText : JsString → Option JsString
  shown : Option Json → String

/-- What is written of this payload is read back. -/
def CursorHost.ReadsBack (host : CursorHost) (payload : CursorPayload) : Prop :=
  host.encodeCursorText (host.stringify payload) ≠ [] ∧
  host.decodeCursorText (host.encodeCursorText (host.stringify payload)) = some (host.stringify payload) ∧
    host.parse (host.stringify payload) = some (.object payload.members)

section Codec
variable (host : CursorHost)

def payloadOf (cursor : PageCursor) : CursorPayload where
  a := cursor.anchor
  k := if cursor.sortSignature.isSome then
      cursor.sortKey.map fun key => key.map fun value => toComparableSortValue (rawOf value)
    else none
  o := if cursor.sortKey.isSome then cursor.sortSignature else none
  s := if cursor.sortKey.isSome && cursor.sortSignature.isSome then none
    else cursor.score.map fun
      | .finite value => some value
      | _ => none
  d := cursor.depth.filter fun depth => 0 < depth
  q := cursor.binding

def encodePageCursor (cursor : PageCursor) : JsString :=
  host.encodeCursorText (host.stringify (payloadOf cursor))

def decodeSortValue (cursor : JsString) : Json → Except NarsilError ComparableSortValue
  | .null => .ok none
  | .boolean value => .ok (some (.boolean value))
  | .number (.finite value) => .ok (some (.number value))
  | .number _ => .error (invalidCursor cursor "\"k\" holds a number that is not finite")
  | .string value =>
    if exceedsCodePoints value SORT_VALUE_MAX_CODE_POINTS then
      .error (invalidCursor cursor "\"k\" holds an oversized sort value")
    else .ok (some (.text value))
  | _ => .error (invalidCursor cursor "\"k\" accepts a string, a finite number, a boolean, or null")

def decodeSortKey (value : Json) (cursor : JsString) : Except NarsilError (List ComparableSortValue) :=
  match value with
  | .array entries =>
    if entries.length > MAX_SORT_FIELDS then
      .error (invalidCursor cursor "\"k\" carries too many sort values")
    else entries.mapM (decodeSortValue cursor)
  | _ => .error (invalidCursor cursor "\"k\" must be an array")

def isHexDigit (unit : UInt16) : Bool :=
  (0x30 ≤ unit && unit ≤ 0x39) || (0x61 ≤ unit && unit ≤ 0x66)

def isBinding (value : JsString) : Bool := value.length == 8 && value.all isHexDigit

def isSafeInteger (value : ℚ) : Bool := value.den == 1 && value.num.natAbs ≤ MAX_SAFE_INTEGER

def Json.field (members : List (JsString × Json)) (name : String) : Option Json :=
  (members.find? fun entry => entry.1 == ascii name).map Prod.snd

def isVersion : Option Json → Bool
  | some (.number version) => version = .finite CURSOR_VERSION
  | _ => false

def decodeBinding (cursor : JsString) : Option Json → Except NarsilError JsString
  | some (.string q) =>
    if isBinding q then .ok q
    else .error (invalidCursor cursor "\"q\" must be 8 lowercase hex digits")
  | _ => .error (invalidCursor cursor "\"q\" must be 8 lowercase hex digits")

def decodeAnchor (cursor : JsString) : Option Json → Except NarsilError JsString
  | some (.string a) =>
    if a.length = 0 then .error (invalidCursor cursor "\"a\" must be a non-empty string")
    else if exceedsCodePoints a MAX_CURSOR_ANCHOR_CODE_POINTS then
      .error (invalidCursor cursor "\"a\" is too long to be a document id")
    else .ok a
  | _ => .error (invalidCursor cursor "\"a\" must be a non-empty string")

def decodeScore (cursor : JsString) : Option Json → Except NarsilError (Option JsNumber)
  | none => .ok none
  | some (.number (.finite score)) => .ok (some (.finite score))
  | some _ => .error (invalidCursor cursor "\"s\" must be a finite number")

def decodeDepth (cursor : JsString) : Option Json → Except NarsilError Nat
  | none => .ok 0
  | some (.number (.finite depth)) =>
    if isSafeInteger depth ∧ 1 ≤ depth then .ok depth.num.natAbs
    else .error (invalidCursor cursor "\"d\" must be a positive integer")
  | some _ => .error (invalidCursor cursor "\"d\" must be a positive integer")

def decodeSignature (cursor : JsString) : Option Json → Except NarsilError (Option JsString)
  | none => .ok none
  | some (.string signature) => .ok (some signature)
  | some _ => .error (invalidCursor cursor "\"o\" must be a string")

def decodeFields (cursor : JsString) (members : List (JsString × Json)) : Except NarsilError PageCursor := do
  if !isVersion (Json.field members "v") then
    throw (invalidCursor cursor ("unsupported cursor version " ++ host.shown (Json.field members "v")))
  let binding ← decodeBinding cursor (Json.field members "q")
  let anchor ← decodeAnchor cursor (Json.field members "a")
  let score ← decodeScore cursor (Json.field members "s")
  if (Json.field members "s").isSome && (Json.field members "k").isSome then
    throw (invalidCursor cursor "a cursor carries \"s\" or \"k\", never both")
  let depth ← decodeDepth cursor (Json.field members "d")
  let sortKey ← (Json.field members "k").mapM fun key => decodeSortKey key cursor
  let sortSignature ← decodeSignature cursor (Json.field members "o")
  if sortKey.isNone != sortSignature.isNone then
    throw (invalidCursor cursor "\"k\" and \"o\" have to arrive together")
  return { anchor, score, sortKey, sortSignature, depth := some depth, binding }

def decodePageCursor (cursor : JsString) : Except NarsilError PageCursor :=
  if cursor.length > MAX_CURSOR_LENGTH then .error (invalidCursor cursor "the cursor is too long")
  else
    match host.decodeCursorText cursor with
    | none => .error (invalidCursor cursor "invalid base64 encoding")
    | some json =>
      match host.parse json with
      | none => .error (invalidCursor cursor "invalid JSON")
      | some (.object members) => decodeFields host cursor members
      | some _ => .error (invalidCursor cursor "expected an object")

def requireMatchingCursor (cursor : PageCursor) (encoded : JsString) (signature : Option JsString)
    (scoreAnchored : Bool) (binding : JsString) : Except NarsilError Unit :=
  if cursor.binding ≠ binding then
    .error (invalidCursor encoded "the cursor belongs to a different query")
  else if signature.isSome then
    if cursor.sortSignature ≠ signature then
      .error (invalidCursor encoded "the cursor belongs to a different sort order")
    else .ok ()
  else if cursor.sortSignature.isSome then
    .error (invalidCursor encoded "the cursor belongs to a sorted request")
  else if scoreAnchored && cursor.score.isNone then
    .error (invalidCursor encoded "the cursor carries no score to seek from")
  else if !scoreAnchored && cursor.score.isSome then
    .error (invalidCursor encoded "the cursor belongs to a search rather than a listing")
  else .ok ()

end Codec

/-- A cursor as the pages of a search and of a listing build it. -/
structure PageCursor.Sound (cursor : PageCursor) : Prop where
  bound : isBinding cursor.binding
  named : cursor.anchor ≠ []
  short : (codePoints cursor.anchor).length ≤ MAX_CURSOR_ANCHOR_CODE_POINTS
  finite : ∀ score, cursor.score = some score → score.isFinite
  /-- A sort key comes with its signature, and without a score. -/
  signed : cursor.sortKey.isSome = cursor.sortSignature.isSome
  oneMode : cursor.sortKey.isSome → cursor.score = none
  fields : ∀ key, cursor.sortKey = some key → key.length ≤ MAX_SORT_FIELDS
  reduced : ∀ key, cursor.sortKey = some key → ∀ value ∈ key, toComparableSortValue (rawOf value) = value
  countable : ∀ depth, cursor.depth = some depth → depth ≤ MAX_SAFE_INTEGER

section RoundTrip
variable {host : CursorHost} {cursor : PageCursor}

theorem field_members (payload : CursorPayload) :
    Json.field payload.members "v" = some (.number (.finite CURSOR_VERSION)) ∧
    Json.field payload.members "a" = some (.string payload.a) ∧
    Json.field payload.members "k" = payload.k.map (fun key => .array (key.map jsonOfSortValue)) ∧
    Json.field payload.members "o" = payload.o.map .string ∧
    Json.field payload.members "s" = payload.s.map jsonOfNumber ∧
    Json.field payload.members "d" = payload.d.map (fun depth : Nat => .number (.finite (depth : ℚ))) ∧
    Json.field payload.members "q" = some (.string payload.q) := by
  have v : ascii "v" = [118] := by decide
  have a : ascii "a" = [97] := by decide
  have k : ascii "k" = [107] := by decide
  have o : ascii "o" = [111] := by decide
  have s : ascii "s" = [115] := by decide
  have d : ascii "d" = [100] := by decide
  have q : ascii "q" = [113] := by decide
  obtain ⟨anchor, key, signature, score, depth, binding⟩ := payload
  cases key <;> cases signature <;> cases score <;> cases depth <;>
    simp [CursorPayload.members, Json.field, v, a, k, o, s, d, q]

theorem text_fits {value : JsString} (kept : truncateSortString value = value) :
    (codePoints value).length ≤ SORT_VALUE_MAX_CODE_POINTS := by
  rw [← kept]
  exact truncateSortString_le value

theorem decodeSortValue_json {encoded : JsString} {value : ComparableSortValue}
    (reduced : toComparableSortValue (rawOf value) = value) :
    decodeSortValue encoded (jsonOfSortValue value) = .ok value := by
  rcases value with _ | value | value | value
  · rfl
  · rfl
  · simp only [rawOf, toComparableSortValue, Option.some.injEq, SortValue.text.injEq] at reduced
    have fits := text_fits reduced
    rw [jsonOfSortValue, decodeSortValue, exceedsCodePoints_eq, decide_eq_false (Nat.not_lt.mpr fits)]
    rfl
  · rfl

theorem decodeSortKey_json {encoded : JsString} {key : List ComparableSortValue}
    (fields : key.length ≤ MAX_SORT_FIELDS)
    (reduced : ∀ value ∈ key, toComparableSortValue (rawOf value) = value) :
    decodeSortKey (.array (key.map jsonOfSortValue)) encoded = .ok key := by
  rw [decodeSortKey, List.length_map, if_neg (Nat.not_lt.mpr fields)]
  clear fields
  induction key with
  | nil => rfl
  | cons value key ih =>
    rw [List.map_cons, List.mapM_cons, decodeSortValue_json (reduced value (by simp)),
      ih fun later member => reduced later (by simp [member])]
    rfl

theorem decodeDepth_json {encoded : JsString} {depth : Option Nat}
    (countable : ∀ count, depth = some count → count ≤ MAX_SAFE_INTEGER) :
    decodeDepth encoded ((depth.filter fun count => 0 < count).map fun count : Nat => .number (.finite (count : ℚ))) =
      .ok (depth.getD 0) := by
  cases depth with
  | none => rfl
  | some count =>
    by_cases positive : 0 < count
    · have kept : (some count).filter (fun count => 0 < count) = some count := by simp [positive]
      have whole : isSafeInteger (count : ℚ) := by
        simp [isSafeInteger, countable count rfl]
      have one : (1 : ℚ) ≤ count := by exact_mod_cast positive
      rw [kept, Option.map_some, decodeDepth, if_pos ⟨whole, one⟩]
      simp
    · have none : count = 0 := by omega
      rw [none]
      rfl

theorem decodeScore_json {encoded : JsString} (finite : ∀ score, cursor.score = some score → score.isFinite)
    (signed : cursor.sortKey.isSome = cursor.sortSignature.isSome)
    (oneMode : cursor.sortKey.isSome → cursor.score = none) :
    decodeScore encoded ((payloadOf cursor).s.map jsonOfNumber) = .ok cursor.score := by
  rw [payloadOf]
  cases sorted : cursor.sortKey.isSome with
  | true =>
    rw [oneMode sorted, ← signed, sorted]
    rfl
  | false =>
    cases scored : cursor.score with
    | none => rfl
    | some score =>
      have := finite score scored
      cases score with
      | finite value => rfl
      | infinite positive => exact absurd this Bool.false_ne_true
      | nan => exact absurd this Bool.false_ne_true

theorem decodePageCursor_encodePageCursor (sound : cursor.Sound) (reads : host.ReadsBack (payloadOf cursor))
    (fits : (encodePageCursor host cursor).length ≤ MAX_CURSOR_LENGTH) :
    decodePageCursor host (encodePageCursor host cursor) =
      .ok { cursor with depth := some (cursor.depth.getD 0) } := by
  obtain ⟨v, a, k, o, s, d, q⟩ := field_members (payloadOf cursor)
  rw [decodePageCursor, if_neg (Nat.not_lt.mpr fits)]
  have text : host.decodeCursorText (encodePageCursor host cursor) = some (host.stringify (payloadOf cursor)) :=
    reads.2.1
  generalize encodePageCursor host cursor = encoded at text
  simp only [text, reads.2.2]
  rw [decodeFields, v, a, k, o, s, d, q]
  have anchor : decodeAnchor encoded (some (.string cursor.anchor)) = .ok cursor.anchor := by
    have := List.length_pos_iff.mpr sound.named
    rw [decodeAnchor, if_neg (by omega), exceedsCodePoints_eq,
      decide_eq_false (Nat.not_lt.mpr sound.short)]
    rfl
  have binding : decodeBinding encoded (some (.string cursor.binding)) = .ok cursor.binding := by
    rw [decodeBinding, if_pos sound.bound]
  have score : decodeScore encoded ((payloadOf cursor).s.map jsonOfNumber) = .ok cursor.score :=
    decodeScore_json sound.finite sound.signed sound.oneMode
  have depth : decodeDepth encoded ((payloadOf cursor).d.map fun count : Nat => .number (.finite (count : ℚ))) =
      .ok (cursor.depth.getD 0) := decodeDepth_json sound.countable
  have version : isVersion (some (.number (.finite CURSOR_VERSION))) = true := by
    simp [isVersion]
  have asked : (payloadOf cursor).a = cursor.anchor ∧ (payloadOf cursor).q = cursor.binding := ⟨rfl, rfl⟩
  rw [asked.1, asked.2, version, anchor, binding, score, depth]
  -- A cursor is anchored on sort values or on a score.
  cases sorted : cursor.sortKey with
  | none =>
    have unsigned : cursor.sortSignature = none := by
      have := sound.signed
      rw [sorted] at this
      exact Option.not_isSome_iff_eq_none.mp (by rw [← this]; decide)
    have k : (payloadOf cursor).k = none := by simp [payloadOf, unsigned]
    have o : (payloadOf cursor).o = none := by simp [payloadOf, sorted]
    rw [k, o]
    cases (payloadOf cursor).s <;> simp [decodeSignature, unsigned] <;> rfl
  | some key =>
    obtain ⟨signature, signed⟩ : ∃ signature, cursor.sortSignature = some signature := by
      apply Option.isSome_iff_exists.mp
      rw [← sound.signed, sorted]
      rfl
    have k : (payloadOf cursor).k = some key := by
      simp only [payloadOf, signed, sorted, Option.isSome_some, if_true, Option.map_some, Option.some.injEq]
      exact (List.map_congr_left (sound.reduced key sorted)).trans (List.map_id' key)
    have o : (payloadOf cursor).o = some signature := by simp [payloadOf, signed, sorted]
    have s : (payloadOf cursor).s = none := by simp [payloadOf, signed, sorted]
    rw [k, o, s]
    simp [decodeSignature, signed, decodeSortKey_json (sound.fields key sorted) (sound.reduced key sorted)]
    rfl

end RoundTrip

end Narsil.Cursor
