import Narsil.Ordering.Utf8
import Narsil.Serialization.ValueEnds

/-!
# Top-level fields of a MessagePack map

`topLevelMapKeys` and `decodeMapWithoutFields` walk over the pairs of a map, reading keys and
skipping values, of which the latter decodes those that are wanted.
-/
namespace Narsil.Serialization

open MessagePack Narsil.Ordering Narsil.Cursor

def PROTO : JsString := ascii "__proto__"

def FORBIDDEN_KEYS : List JsString := [PROTO, ascii "constructor", ascii "prototype"]

/-- The text of well-formed UTF-8. -/
def utf8Text? (bytes : Bytes) : Option JsString :=
  let text := (decodePoints none (byteNumbers bytes)).flatMap unitsOf
  if encodeUtf8 text = bytes then some text else none

def withoutMark (text : JsString) : JsString := if text.head? = some BYTE_ORDER_MARK then text.drop 1 else text

/-- `keyDecoder.decode`: the decoder is fatal, and leaves out a byte order mark as decoders do. -/
def decodeKey (bytes : Bytes) : Option JsString := (utf8Text? bytes).map withoutMark

def isStringTag (tag : Nat) : Bool :=
  decide (tag ≥ 0xa0) && decide (tag ≤ 0xbf) || tag == 0xd9 || tag == 0xda || tag == 0xdb

/-- The key at an offset, and where it ends. -/
def stringKeyAt (view : Bytes) (offset : Nat) : Except RangeError (Option (JsString × Nat)) := do
  match ← headerAt view offset with
  | none => .ok none
  | some header =>
    if header.children ≠ 0 then .ok none
    else do
      let tag ← getUint view offset 1
      let finish := offset + header.headerBytes + header.bodyBytes
      if !isStringTag tag || decide (finish > view.length) then .ok none
      else
        match decodeKey ((view.drop (offset + header.headerBytes)).take header.bodyBytes) with
        | none => .ok none
        | some key => .ok (some (key, finish))

def isMapTag (tag : Nat) : Bool := decide (tag ≥ 0x80) && decide (tag ≤ 0x8f) || MAP_TAGS.contains tag

/-- `Set.add`. -/
def addKey (keys : List JsString) (key : JsString) : List JsString := if key ∈ keys then keys else keys ++ [key]

def keysFrom (view : Bytes) : Nat → Nat → List JsString → Except RangeError (Option (List JsString))
  | 0, _, keys => .ok (some keys)
  | pairs + 1, offset, keys => do
    match ← stringKeyAt view offset with
    | none => .ok none
    | some (key, finish) =>
      match ← endOfValue view finish with
      | none => .ok none
      | some valueEnd => keysFrom view pairs valueEnd (addKey keys key)

def topLevelMapKeys (bytes : Bytes) : Except RangeError (Option (List JsString)) := do
  match ← headerAt bytes 0 with
  | none => .ok none
  | some top =>
    if top.bodyBytes ≠ 0 then .ok none
    else do
      let tag ← getUint bytes 0 1
      if !isMapTag tag then .ok none else keysFrom bytes (top.children / 2) top.headerBytes []

section Decode
variable {α : Type} (decode : Bytes → Option α) (skippedFields : List JsString)

def fieldsFrom (view : Bytes) : Nat → Nat → List (JsString × α) →
    Except RangeError (Option (List (JsString × α) × Nat))
  | 0, offset, document => .ok (some (document, offset))
  | pairs + 1, offset, document => do
    match ← stringKeyAt view offset with
    | none => .ok none
    | some (key, finish) =>
      if key ∈ FORBIDDEN_KEYS then .ok none
      else
        match ← endOfValue view finish with
        | none => .ok none
        | some valueEnd =>
          if key ∈ skippedFields then fieldsFrom view pairs valueEnd document
          else
            match decode ((view.drop finish).take (valueEnd - finish)) with
            | none => .ok none
            | some value => fieldsFrom view pairs valueEnd (Assoc.set document key value)

/-- The fields in the order of the document, an empty map giving none. -/
def decodeMapWithoutFields (bytes : Bytes) : Except RangeError (Option (List (JsString × α))) := do
  match ← headerAt bytes 0 with
  | none => .ok none
  | some top =>
    if top.children = 0 ∨ top.bodyBytes ≠ 0 then .ok none
    else do
      let tag ← getUint bytes 0 1
      if !isMapTag tag then .ok none
      else
        match ← fieldsFrom decode skippedFields bytes (top.children / 2) top.headerBytes [] with
        | none => .ok none
        | some (document, offset) => .ok (if offset = bytes.length then some document else none)

end Decode

/-- The head of a key, the bytes of its text, and those of its value. -/
structure MapPair where
  head : Bytes
  key : Bytes
  value : Bytes

def MapPair.bytes (pair : MapPair) : Bytes := pair.head ++ pair.key ++ pair.value

structure MapPair.Good (pair : MapPair) : Prop where
  isKey : StrHead pair.head pair.key.length
  isValue : Whole pair.value

theorem str_tags : ∀ form ∈ strForms, isStringTag form.1.toNat = true := by decide

theorem strHead_tag {head : Bytes} {length : Nat} (isKey : StrHead head length) :
    ∃ byte rest, head = byte :: rest ∧ isStringTag byte.toNat = true := by
  cases isKey with
  | fix small =>
    refine ⟨_, [], rfl, ?_⟩
    rw [toUInt8_toNat (by omega), isStringTag, decide_eq_true (by omega), decide_eq_true (by omega)]
    rfl
  | long form fits => exact ⟨_, _, rfl, str_tags _ form⟩

theorem map_tags : ∀ form ∈ mapForms, isMapTag form.1.toNat = true := by decide

theorem mapHead_tag {head : Bytes} {count : Nat} (isMap : MapHead head count) :
    ∃ byte rest, head = byte :: rest ∧ isMapTag byte.toNat = true := by
  cases isMap with
  | fix small =>
    refine ⟨_, [], rfl, ?_⟩
    rw [toUInt8_toNat (by omega), isMapTag, decide_eq_true (by omega), decide_eq_true (by omega)]
    rfl
  | long form fits => exact ⟨_, _, rfl, map_tags _ form⟩

set_option maxRecDepth 100000 in
theorem other_tags : ∀ tag ∈ numberForms.map Prod.fst ++ constants ++ binForms.map Prod.fst ++ extForms.map Prod.fst ++
    fixextForms.map Prod.fst ++ arrayForms.map Prod.fst, isStringTag tag.toNat = false ∧ isMapTag tag.toNat = false := by
  decide

set_option maxRecDepth 100000 in
theorem str_not_map : ∀ tag : Fin 256, isStringTag tag.val = true → isMapTag tag.val = false := by decide

theorem isMapTag_outside {tag : Nat} (outside : tag < 0x80 ∨ 0x90 ≤ tag ∧ tag < 0xde ∨ 0xe0 ≤ tag) :
    isMapTag tag = false := by
  simp only [isMapTag, MAP_TAGS, List.contains_cons, List.contains_nil, Bool.or_false, Bool.or_eq_false_iff,
    Bool.and_eq_false_iff, decide_eq_false_iff_not, beq_eq_false_iff_ne]
  omega

theorem isStringTag_outside {tag : Nat} (outside : tag < 0xa0 ∨ 0xe0 ≤ tag) : isStringTag tag = false := by
  simp only [isStringTag, Bool.or_eq_false_iff, Bool.and_eq_false_iff, decide_eq_false_iff_not, beq_eq_false_iff_ne]
  omega

theorem head_kind {head : Bytes} {body children : Nat} (isHead : Head head body children) :
    ∃ byte rest, head = byte :: rest ∧
      (isStringTag byte.toNat = true ∧ isMapTag byte.toNat = false ∧ StrHead head body ∧ children = 0 ∨
        isMapTag byte.toNat = true ∧ (∃ count, MapHead head count ∧ children = 2 * count) ∧ body = 0 ∨
        isStringTag byte.toNat = false ∧ isMapTag byte.toNat = false) := by
  -- The tags of the tables are told apart one by one, those of a range by its bounds.
  cases isHead with
  | str form =>
    obtain ⟨byte, rest, rfl, isString⟩ := strHead_tag form
    exact ⟨byte, rest, rfl, .inl ⟨isString, str_not_map ⟨_, byte.toNat_lt⟩ isString, form, rfl⟩⟩
  | map form =>
    obtain ⟨byte, rest, rfl, isMap⟩ := mapHead_tag form
    exact ⟨byte, rest, rfl, .inr (.inl ⟨isMap, ⟨_, form, rfl⟩, rfl⟩)⟩
  | @fixint tag form =>
    rw [UInt8.le_iff_toNat_le, UInt8.le_iff_toNat_le] at form
    simp only [UInt8.reduceToNat] at form
    exact ⟨tag, [], rfl, .inr (.inr ⟨isStringTag_outside (by omega), isMapTag_outside (by omega)⟩)⟩
  | @fixarray count small =>
    have tag := @toUInt8_toNat (0x90 + children) (by omega)
    refine ⟨_, [], rfl, .inr (.inr ?_)⟩
    rw [tag]
    exact ⟨isStringTag_outside (by omega), isMapTag_outside (by omega)⟩
  | constant form => exact ⟨_, _, rfl, .inr (.inr (other_tags _ (by simp only [List.mem_append]; tauto)))⟩
  | number form =>
    have named := List.mem_map_of_mem (f := Prod.fst) form
    exact ⟨_, _, rfl, .inr (.inr (other_tags _ (by simp only [List.mem_append]; tauto)))⟩
  | bin form fits =>
    have named := List.mem_map_of_mem (f := Prod.fst) form
    exact ⟨_, _, rfl, .inr (.inr (other_tags _ (by simp only [List.mem_append]; tauto)))⟩
  | fixext form =>
    have named := List.mem_map_of_mem (f := Prod.fst) form
    exact ⟨_, _, rfl, .inr (.inr (other_tags _ (by simp only [List.mem_append]; tauto)))⟩
  | ext form fits =>
    have named := List.mem_map_of_mem (f := Prod.fst) form
    exact ⟨_, _, rfl, .inr (.inr (other_tags _ (by simp only [List.mem_append]; tauto)))⟩
  | array form fits =>
    have named := List.mem_map_of_mem (f := Prod.fst) form
    exact ⟨_, _, rfl, .inr (.inr (other_tags _ (by simp only [List.mem_append]; tauto)))⟩

theorem strHead_of_tag {head : Bytes} {byte : UInt8} {rest : Bytes} {body children : Nat}
    (isHead : Head head body children) (first : head = byte :: rest) (isString : isStringTag byte.toNat = true) :
    StrHead head body := by
  obtain ⟨_, _, same, kind⟩ := head_kind isHead
  obtain ⟨rfl, -⟩ := List.cons.inj (first.symm.trans same)
  rcases kind with ⟨-, -, isKey, -⟩ | ⟨isMap, -, -⟩ | ⟨notString, -⟩
  · exact isKey
  · rw [str_not_map ⟨_, byte.toNat_lt⟩ isString] at isMap
    cases isMap
  · rw [isString] at notString
    cases notString

theorem mapHead_of_tag {head : Bytes} {byte : UInt8} {rest : Bytes} {body children : Nat}
    (isHead : Head head body children) (first : head = byte :: rest) (isMap : isMapTag byte.toNat = true) :
    MapHead head (children / 2) := by
  obtain ⟨_, _, same, kind⟩ := head_kind isHead
  obtain ⟨rfl, -⟩ := List.cons.inj (first.symm.trans same)
  rcases kind with ⟨-, notMap, -, -⟩ | ⟨-, ⟨count, form, rfl⟩, -⟩ | ⟨-, notMap⟩
  · rw [isMap] at notMap
    cases notMap
  · rwa [Nat.mul_div_cancel_left _ (by decide)]
  · rw [isMap] at notMap
    cases notMap

/-- The head and the text of a key, and what is behind it. -/
def readKey (rest : Bytes) : Option (Bytes × Bytes × Bytes) :=
  match headerOf rest with
  | none => none
  | some header =>
    let behind := rest.drop header.headerBytes
    if header.children = 0 ∧ isStringTag (ofBigEndian (rest.take 1)) = true ∧ header.bodyBytes ≤ behind.length then
      some (rest.take header.headerBytes, behind.take header.bodyBytes, behind.drop header.bodyBytes)
    else none

theorem ofBigEndian_one (byte : UInt8) : ofBigEndian [byte] = byte.toNat := by
  rw [ofBigEndian_cons]
  simp [ofBigEndian]

theorem readKey_spec (rest head text behind : Bytes) :
    readKey rest = some (head, text, behind) ↔ StrHead head text.length ∧ rest = head ++ (text ++ behind) := by
  constructor
  · intro found
    cases read : headerOf rest with
    | none =>
      simp only [readKey, read] at found
      cases found
    | some header =>
      simp only [readKey, read, Option.ite_none_right_eq_some, Option.some.injEq, Prod.mk.injEq] at found
      obtain ⟨⟨-, isString, fits⟩, rfl, rfl, rfl⟩ := found
      obtain ⟨head, isHead, length, ⟨others, rfl⟩⟩ := headerOf_head read
      obtain ⟨byte, more, rfl, -⟩ := head_kind isHead
      rw [List.cons_append, List.take_succ_cons, List.take_zero, ofBigEndian_one] at isString
      rw [← length, List.drop_left] at fits
      rw [← length, List.drop_left, List.take_left, List.take_append_drop, List.length_take_of_le fits]
      exact ⟨strHead_of_tag isHead rfl isString, rfl⟩
  · rintro ⟨isKey, rfl⟩
    obtain ⟨byte, more, rfl, isString⟩ := strHead_tag isKey
    have first : ofBigEndian ((byte :: more ++ (text ++ behind)).take 1) = byte.toNat := by
      rw [List.cons_append, List.take_succ_cons, List.take_zero, ofBigEndian_one]
    have fits : text.length ≤ (text ++ behind).length := by simp
    simp only [readKey, headerOf_of_head (.str isKey)]
    rw [first, List.drop_left, List.take_left, List.take_left, List.drop_left, if_pos ⟨trivial, isString, fits⟩]

theorem getUint_one {view : Bytes} {offset : Nat} (inside : offset < view.length) :
    getUint view offset 1 = .ok (ofBigEndian ((view.drop offset).take 1)) := if_neg (by omega)

theorem stringKeyAt_eq (view : Bytes) (offset : Nat) :
    stringKeyAt view offset = .ok ((readKey (view.drop offset)).bind fun (head, text, _) =>
      (decodeKey text).map (·, offset + head.length + text.length)) := by
  rw [stringKeyAt, headerAt_eq]
  cases read : headerOf (view.drop offset) with
  | none => simp [readKey, read, bind, Except.bind]
  | some header =>
    have within := headerOf_progress read
    rw [List.length_drop] at within
    simp only [readKey, read, bind, Except.bind]
    by_cases leaf : header.children = 0
    · rw [if_neg (not_not.mpr leaf), getUint_one (by omega)]
      simp only [leaf, true_and]
      have refused : (!isStringTag (ofBigEndian ((view.drop offset).take 1)) ||
            decide (offset + header.headerBytes + header.bodyBytes > view.length)) = true ↔
          ¬ (isStringTag (ofBigEndian ((view.drop offset).take 1)) = true ∧
            header.bodyBytes ≤ ((view.drop offset).drop header.headerBytes).length) := by
        rw [Bool.or_eq_true, Bool.not_eq_true', decide_eq_true_eq, List.drop_drop, List.length_drop, not_and_or,
          Bool.not_eq_true]
        refine or_congr Iff.rfl ?_
        omega
      by_cases kept : isStringTag (ofBigEndian ((view.drop offset).take 1)) = true ∧
          header.bodyBytes ≤ ((view.drop offset).drop header.headerBytes).length
      · rw [if_neg (fun refusal => refused.mp refusal kept), if_pos kept, Option.bind_some,
          List.length_take_of_le kept.2, List.length_take_of_le (by rw [List.length_drop]; omega), List.drop_drop]
        cases decodeKey ((view.drop (offset + header.headerBytes)).take header.bodyBytes) <;> rfl
      · rw [if_pos (refused.mpr kept), if_neg kept]
        rfl
    · rw [if_pos leaf, if_neg (fun all => leaf all.1)]
      rfl

theorem endOfValue_ahead {view value more : Bytes} {start : Nat} (isValue : Whole value)
    (here : view.drop start = value ++ more) : endOfValue view start = .ok (some (start + value.length)) := by
  obtain ⟨answer, ends, spec⟩ := endOfValue_spec view start
  rw [ends, (spec _).mpr ⟨value, isValue, here ▸ List.prefix_append _ _, rfl⟩]

/-- The first value in front of the bytes, and what is behind it. -/
def readValue (rest : Bytes) : Option (Bytes × Bytes) :=
  match endOfValue rest 0 with
  | .ok (some size) => some (rest.take size, rest.drop size)
  | _ => none

theorem readValue_spec (rest value behind : Bytes) :
    readValue rest = some (value, behind) ↔ Whole value ∧ rest = value ++ behind := by
  constructor
  · intro found
    obtain ⟨answer, ends, spec⟩ := endOfValue_spec rest 0
    rw [readValue, ends] at found
    cases answer with
    | none => cases found
    | some size =>
      obtain ⟨whole, isValue, ⟨more, here⟩, length⟩ := (spec size).mp rfl
      rw [List.drop_zero] at here
      rw [Nat.zero_add] at length
      subst here length
      simp only [List.take_left, List.drop_left, Option.some.injEq, Prod.mk.injEq] at found
      obtain ⟨rfl, rfl⟩ := found
      exact ⟨isValue, rfl⟩
  · rintro ⟨isValue, rfl⟩
    rw [readValue, endOfValue_ahead isValue List.drop_zero]
    simp only [Nat.zero_add, List.take_left, List.drop_left]

theorem endOfValue_eq (view : Bytes) (start : Nat) :
    endOfValue view start = .ok ((readValue (view.drop start)).map fun (value, _) => start + value.length) := by
  cases read : readValue (view.drop start) with
  | none =>
    obtain ⟨answer, ends, spec⟩ := endOfValue_spec view start
    cases answer with
    | none => rw [ends]; rfl
    | some finish =>
      obtain ⟨value, isValue, ⟨behind, here⟩, -⟩ := (spec finish).mp rfl
      rw [(readValue_spec _ value behind).mpr ⟨isValue, here.symm⟩] at read
      cases read
  | some found =>
    obtain ⟨isValue, here⟩ := (readValue_spec _ found.1 found.2).mp read
    exact endOfValue_ahead isValue here

/-- The first pair in front of the bytes, and what is behind it. -/
def readPair (rest : Bytes) : Option (MapPair × Bytes) :=
  (readKey rest).bind fun (head, key, held) => (readValue held).map fun (value, behind) => (⟨head, key, value⟩, behind)

theorem readPair_spec (rest : Bytes) (pair : MapPair) (behind : Bytes) :
    readPair rest = some (pair, behind) ↔ pair.Good ∧ rest = pair.bytes ++ behind := by
  obtain ⟨head, key, value⟩ := pair
  simp only [readPair, Option.bind_eq_some_iff, Option.map_eq_some_iff, Prod.exists, Prod.mk.injEq, MapPair.mk.injEq]
  constructor
  · rintro ⟨_, _, held, isKey, _, _, isValue, ⟨rfl, rfl, rfl⟩, rfl⟩
    obtain ⟨keyHead, rfl⟩ := (readKey_spec _ _ _ _).mp isKey
    obtain ⟨whole, rfl⟩ := (readValue_spec _ _ _).mp isValue
    exact ⟨⟨keyHead, whole⟩, by simp [MapPair.bytes]⟩
  · rintro ⟨⟨isKey, isValue⟩, rfl⟩
    refine ⟨head, key, value ++ behind, (readKey_spec _ _ _ _).mpr ⟨isKey, by simp [MapPair.bytes]⟩, value, behind,
      (readValue_spec _ _ _).mpr ⟨isValue, rfl⟩, ⟨rfl, rfl, rfl⟩, rfl⟩

def readPairs : Nat → Bytes → Option (List MapPair × Bytes)
  | 0, rest => some ([], rest)
  | count + 1, rest =>
    (readPair rest).bind fun (pair, behind) => (readPairs count behind).map fun (pairs, more) => (pair :: pairs, more)

theorem readPairs_spec (count : Nat) (rest : Bytes) (pairs : List MapPair) (behind : Bytes) :
    readPairs count rest = some (pairs, behind) ↔
      pairs.length = count ∧ (∀ pair ∈ pairs, pair.Good) ∧ rest = pairs.flatMap MapPair.bytes ++ behind := by
  induction count generalizing rest pairs with
  | zero =>
    simp only [readPairs, Option.some.injEq, Prod.mk.injEq, List.length_eq_zero_iff]
    constructor
    · rintro ⟨rfl, rfl⟩
      exact ⟨rfl, nofun, rfl⟩
    · rintro ⟨rfl, -, rfl⟩
      exact ⟨rfl, rfl⟩
  | succ count ih =>
    simp only [readPairs, Option.bind_eq_some_iff, Option.map_eq_some_iff, Prod.exists, Prod.mk.injEq]
    constructor
    · rintro ⟨pair, held, first, others, _, later, rfl, rfl⟩
      obtain ⟨good, rfl⟩ := (readPair_spec _ _ _).mp first
      obtain ⟨length, goods, rfl⟩ := (ih _ _).mp later
      refine ⟨by rw [List.length_cons, length], List.forall_mem_cons.mpr ⟨good, goods⟩, ?_⟩
      rw [List.flatMap_cons, List.append_assoc]
    · rintro ⟨length, goods, rfl⟩
      cases pairs with
      | nil => cases length
      | cons pair pairs =>
        obtain ⟨good, goods⟩ := List.forall_mem_cons.mp goods
        rw [List.flatMap_cons, List.append_assoc]
        exact ⟨pair, _, (readPair_spec _ _ _).mpr ⟨good, rfl⟩, pairs, behind,
          (ih _ _).mpr ⟨Nat.succ.inj length, goods, rfl⟩, rfl, rfl⟩

theorem MapPair.bytes_length (pair : MapPair) :
    pair.bytes.length = pair.head.length + pair.key.length + pair.value.length := by
  simp only [MapPair.bytes, List.length_append]

theorem pair_step (view : Bytes) (offset : Nat) {pair : MapPair} {behind : Bytes}
    (read : readPair (view.drop offset) = some (pair, behind)) :
    let finish := offset + pair.head.length + pair.key.length
    let valueEnd := offset + pair.bytes.length
    stringKeyAt view offset = .ok ((decodeKey pair.key).map (·, finish)) ∧
      endOfValue view finish = .ok (some valueEnd) ∧ (view.drop finish).take (valueEnd - finish) = pair.value ∧
      view.drop valueEnd = behind := by
  obtain ⟨⟨isKey, isValue⟩, here⟩ := (readPair_spec _ _ _).mp read
  have total := pair.bytes_length
  have front : pair.head.length + pair.key.length = (pair.head ++ pair.key).length := List.length_append.symm
  have held : view.drop (offset + pair.head.length + pair.key.length) = pair.value ++ behind := by
    rw [Nat.add_assoc, ← List.drop_drop, here, front, MapPair.bytes, List.append_assoc (pair.head ++ pair.key),
      List.drop_left]
  refine ⟨?_, ?_, ?_, ?_⟩
  · have key : readKey (view.drop offset) = some (pair.head, pair.key, pair.value ++ behind) :=
      (readKey_spec _ _ _ _).mpr ⟨isKey, by rw [here, MapPair.bytes]; simp only [List.append_assoc]⟩
    rw [stringKeyAt_eq, key]
    rfl
  · rw [endOfValue_ahead isValue held, total]
    simp only [Nat.add_assoc]
  · rw [held, total, show offset + (pair.head.length + pair.key.length + pair.value.length) -
      (offset + pair.head.length + pair.key.length) = pair.value.length by omega, List.take_left]
  · rw [← List.drop_drop, here, List.drop_left]

theorem no_pair (view : Bytes) (offset : Nat) (missing : readPair (view.drop offset) = none) :
    stringKeyAt view offset = .ok none ∨
      ∃ key finish, stringKeyAt view offset = .ok (some (key, finish)) ∧ endOfValue view finish = .ok none := by
  rw [stringKeyAt_eq]
  cases read : readKey (view.drop offset) with
  | none => exact .inl rfl
  | some found =>
    obtain ⟨head, text, held⟩ := found
    cases decoded : decodeKey text with
    | none =>
      left
      simp only [Option.bind_some, decoded, Option.map_none]
    | some key =>
      right
      refine ⟨key, offset + head.length + text.length, by simp only [Option.bind_some, decoded, Option.map_some], ?_⟩
      obtain ⟨isKey, here⟩ := (readKey_spec _ _ _ _).mp read
      have behind : view.drop (offset + head.length + text.length) = held := by
        rw [Nat.add_assoc, ← List.drop_drop, here, ← List.append_assoc, ← List.length_append, List.drop_left]
      simp only [readPair, read, Option.bind_some, Option.map_eq_none_iff] at missing
      rw [endOfValue_eq, behind, missing]
      rfl

theorem keysFrom_eq (view : Bytes) (count offset : Nat) (keys : List JsString) :
    keysFrom view count offset keys = .ok ((readPairs count (view.drop offset)).bind fun (pairs, _) =>
      (pairs.mapM fun pair => decodeKey pair.key).map (·.foldl addKey keys)) := by
  induction count generalizing offset keys with
  | zero => rfl
  | succ count ih =>
    rw [keysFrom, readPairs]
    cases read : readPair (view.drop offset) with
    | none =>
      rcases no_pair view offset read with missing | ⟨key, finish, found, missing⟩
      · rw [missing]
        rfl
      · rw [found]
        simp only [bind, Except.bind, missing, Option.bind_none]
    | some step =>
      obtain ⟨pair, behind⟩ := step
      obtain ⟨key, ends, -, later⟩ := pair_step view offset read
      rw [key, Option.bind_some]
      cases decoded : decodeKey pair.key with
      | none =>
        simp only [bind, Except.bind, Option.map_none]
        cases readPairs count behind with
        | none => rfl
        | some others =>
          simp only [Option.map_some, Option.bind_some, List.mapM_cons, decoded, Option.bind_eq_bind, Option.bind_none,
            Option.map_none]
      | some text =>
        simp only [bind, Except.bind, Option.map_some, ends, ih, later]
        cases readPairs count behind with
        | none => rfl
        | some others =>
          simp only [Option.bind_some, Option.map_some, List.mapM_cons, decoded, Option.pure_def, Option.bind_eq_bind]
          cases others.1.mapM fun pair => decodeKey pair.key <;> rfl

theorem map_children {bytes : Bytes} {top : ValueHeader} (read : headerOf bytes = some top)
    (isMap : isMapTag (ofBigEndian (bytes.take 1)) = true) : top.children = 2 * (top.children / 2) := by
  obtain ⟨head, isHead, -, ⟨others, rfl⟩⟩ := headerOf_head read
  obtain ⟨byte, more, rfl, kind⟩ := head_kind isHead
  rw [List.cons_append, List.take_succ_cons, List.take_zero, ofBigEndian_one] at isMap
  rcases kind with ⟨-, notMap, -, -⟩ | ⟨-, ⟨count, -, children⟩, -⟩ | ⟨-, notMap⟩
  · rw [isMap] at notMap
    cases notMap
  · omega
  · rw [isMap] at notMap
    cases notMap

/-- The pairs of the map in front of the bytes, and what is behind it. -/
def readMap (bytes : Bytes) : Option (List MapPair × Bytes) :=
  match headerOf bytes with
  | none => none
  | some top =>
    if top.bodyBytes = 0 ∧ isMapTag (ofBigEndian (bytes.take 1)) = true then
      readPairs (top.children / 2) (bytes.drop top.headerBytes)
    else none

theorem readMap_spec (bytes : Bytes) (pairs : List MapPair) (behind : Bytes) :
    readMap bytes = some (pairs, behind) ↔ ∃ head, MapHead head pairs.length ∧ (∀ pair ∈ pairs, pair.Good) ∧
      bytes = head ++ (pairs.flatMap MapPair.bytes ++ behind) := by
  constructor
  · intro found
    cases read : headerOf bytes with
    | none =>
      simp only [readMap, read] at found
      cases found
    | some top =>
      simp only [readMap, read, Option.ite_none_right_eq_some] at found
      obtain ⟨⟨-, isMap⟩, found⟩ := found
      obtain ⟨length, goods, here⟩ := (readPairs_spec _ _ _ _).mp found
      obtain ⟨head, isHead, head_length, ⟨others, rfl⟩⟩ := headerOf_head read
      obtain ⟨byte, more, rfl, -⟩ := head_kind isHead
      rw [List.cons_append, List.take_succ_cons, List.take_zero, ofBigEndian_one] at isMap
      rw [← head_length, List.drop_left] at here
      exact ⟨_, length ▸ mapHead_of_tag isHead rfl isMap, goods, by rw [here]⟩
  · rintro ⟨head, isHead, goods, rfl⟩
    obtain ⟨byte, more, rfl, isMap⟩ := mapHead_tag isHead
    have first : ofBigEndian ((byte :: more ++ (pairs.flatMap MapPair.bytes ++ behind)).take 1) = byte.toNat := by
      rw [List.cons_append, List.take_succ_cons, List.take_zero, ofBigEndian_one]
    simp only [readMap, headerOf_of_head (.map isHead)]
    rw [first, if_pos ⟨trivial, isMap⟩, List.drop_left, Nat.mul_div_cancel_left _ (by decide)]
    exact (readPairs_spec _ _ _ _).mpr ⟨rfl, goods, rfl⟩

theorem topLevelMapKeys_eq (bytes : Bytes) :
    topLevelMapKeys bytes = .ok ((readMap bytes).bind fun (pairs, _) =>
      (pairs.mapM fun pair => decodeKey pair.key).map (·.foldl addKey [])) := by
  rw [topLevelMapKeys, headerAt_eq, List.drop_zero]
  cases read : headerOf bytes with
  | none => simp [readMap, read, bind, Except.bind]
  | some top =>
    have within := headerOf_progress read
    simp only [readMap, read, bind, Except.bind]
    by_cases body : top.bodyBytes = 0
    · rw [if_neg (not_not.mpr body), getUint_one (by omega), List.drop_zero]
      cases isMap : isMapTag (ofBigEndian (bytes.take 1)) with
      | false => simp [isMap]
      | true =>
        simp only [isMap, Bool.not_true, Bool.false_eq_true, if_false, body, and_self, if_true]
        exact keysFrom_eq bytes _ _ []
    · rw [if_pos body, if_neg (fun both => body both.1)]
      rfl

section Documents
variable {α : Type} (decode : Bytes → Option α) (skippedFields : List JsString)

/-- What a pair adds to the document: nothing for a skipped field. -/
def fieldOf (pair : MapPair) : Option (List (JsString × α)) :=
  (decodeKey pair.key).bind fun key =>
    if key ∈ FORBIDDEN_KEYS then none
    else if key ∈ skippedFields then some []
    else (decode pair.value).map fun value => [(key, value)]

def setAll (document fields : List (JsString × α)) : List (JsString × α) :=
  fields.foldl (fun document field => Assoc.set document field.1 field.2) document

theorem fieldsFrom_eq (view : Bytes) (count offset : Nat) (document : List (JsString × α)) (within : offset ≤ view.length) :
    fieldsFrom decode skippedFields view count offset document =
      .ok ((readPairs count (view.drop offset)).bind fun (pairs, behind) =>
        (pairs.mapM (fieldOf decode skippedFields)).map fun fields =>
          (setAll document fields.flatten, view.length - behind.length)) := by
  induction count generalizing offset document with
  | zero =>
    simp only [fieldsFrom, readPairs, Option.bind_some, List.mapM_nil, Option.pure_def, Option.map_some, List.flatten_nil,
      List.length_drop, setAll, List.foldl_nil, Nat.sub_sub_self within]
  | succ count ih =>
    rw [fieldsFrom, readPairs]
    cases read : readPair (view.drop offset) with
    | none =>
      rcases no_pair view offset read with missing | ⟨key, finish, found, missing⟩
      · rw [missing]
        rfl
      · rw [found]
        simp only [bind, Except.bind, missing, Option.bind_none]
        split <;> rfl
    | some step =>
      obtain ⟨pair, behind⟩ := step
      obtain ⟨key, ends, taken, later⟩ := pair_step view offset read
      have inside : offset + pair.bytes.length ≤ view.length := by
        obtain ⟨-, here⟩ := (readPair_spec _ _ _).mp read
        have total := congrArg List.length here
        rw [List.length_drop, List.length_append] at total
        omega
      have refused : fieldOf decode skippedFields pair = none →
          Except.ok (ε := RangeError) (none : Option (List (JsString × α) × Nat)) =
            .ok (((readPairs count behind).map fun (pairs, more) => (pair :: pairs, more)).bind fun (pairs, behind) =>
              (pairs.mapM (fieldOf decode skippedFields)).map fun fields =>
                (setAll document fields.flatten, view.length - behind.length)) := by
        intro nothing
        cases readPairs count behind with
        | none => rfl
        | some others =>
          simp only [Option.map_some, Option.bind_some, List.mapM_cons, nothing, Option.bind_eq_bind, Option.bind_none,
            Option.map_none]
      have goes : ∀ added, fieldOf decode skippedFields pair = some added →
          fieldsFrom decode skippedFields view count (offset + pair.bytes.length) (setAll document added) =
            .ok (((readPairs count behind).map fun (pairs, more) => (pair :: pairs, more)).bind fun (pairs, behind) =>
              (pairs.mapM (fieldOf decode skippedFields)).map fun fields =>
                (setAll document fields.flatten, view.length - behind.length)) := by
        intro added field
        rw [ih _ _ inside, later]
        cases readPairs count behind with
        | none => rfl
        | some others =>
          simp only [Option.map_some, Option.bind_some, List.mapM_cons, field, Option.bind_eq_bind, Option.pure_def]
          cases others.1.mapM (fieldOf decode skippedFields) with
          | none => rfl
          | some fields =>
            simp only [Option.map_some, Option.bind_some, List.flatten_cons, setAll, List.foldl_append]
      rw [key, Option.bind_some]
      cases decoded : decodeKey pair.key with
      | none => exact refused (by rw [fieldOf, decoded]; rfl)
      | some text =>
        simp only [bind, Except.bind, Option.map_some]
        by_cases forbidden : text ∈ FORBIDDEN_KEYS
        · rw [if_pos forbidden]
          exact refused (by rw [fieldOf, decoded, Option.bind_some, if_pos forbidden])
        · rw [if_neg forbidden, ends]
          simp only [taken]
          by_cases skipped : text ∈ skippedFields
          · rw [if_pos skipped]
            exact goes [] (by rw [fieldOf, decoded, Option.bind_some, if_neg forbidden, if_pos skipped])
          · rw [if_neg skipped]
            cases value : decode pair.value with
            | none =>
              exact refused (by rw [fieldOf, decoded, Option.bind_some, if_neg forbidden, if_neg skipped, value]; rfl)
            | some value' =>
              exact goes [(text, value')]
                (by rw [fieldOf, decoded, Option.bind_some, if_neg forbidden, if_neg skipped, value]; rfl)

theorem decodeMapWithoutFields_eq (bytes : Bytes) :
    decodeMapWithoutFields decode skippedFields bytes = .ok ((readMap bytes).bind fun (pairs, behind) =>
      if pairs = [] then none
      else (pairs.mapM (fieldOf decode skippedFields)).bind fun fields =>
        if behind = [] then some (setAll [] fields.flatten) else none) := by
  rw [decodeMapWithoutFields, headerAt_eq, List.drop_zero]
  cases read : headerOf bytes with
  | none => simp [readMap, read, bind, Except.bind]
  | some top =>
    have within := headerOf_progress read
    simp only [readMap, read, bind, Except.bind]
    by_cases body : top.bodyBytes = 0
    · rw [getUint_one (by omega), List.drop_zero]
      cases isMap : isMapTag (ofBigEndian (bytes.take 1)) with
      | false => by_cases empty : top.children = 0 <;> simp [isMap, empty, body]
      | true =>
        simp only [isMap, body, Bool.not_true, Bool.false_eq_true, if_false, ne_eq, not_true_eq_false, or_false, and_self,
          if_true]
        rw [fieldsFrom_eq decode skippedFields bytes _ _ [] within.2]
        cases reads : readPairs (top.children / 2) (bytes.drop top.headerBytes) with
        | none =>
          simp only [Option.bind_none]
          split <;> rfl
        | some found =>
          obtain ⟨pairs, behind⟩ := found
          obtain ⟨length, -, here⟩ := (readPairs_spec _ _ _ _).mp reads
          simp only [Option.bind_some]
          by_cases empty : top.children = 0
          · rw [if_pos empty, if_pos (List.length_eq_zero_iff.mp (by omega))]
          · have even := map_children read isMap
            have some_pair : pairs ≠ [] := by
              intro nothing
              rw [nothing, List.length_nil] at length
              omega
            rw [if_neg empty, if_neg some_pair]
            cases pairs.mapM (fieldOf decode skippedFields) with
            | none => rfl
            | some fields =>
              have total := congrArg List.length here
              rw [List.length_drop, List.length_append] at total
              simp only [Option.map_some, Option.bind_some]
              refine congrArg Except.ok (if_congr ?_ rfl rfl)
              rw [← List.length_eq_zero_iff]
              omega
    · rw [if_pos (.inr body), if_neg (fun both => body both.1)]
      rfl

end Documents

end Narsil.Serialization
