import Narsil.Serialization.MapFields
import Narsil.Serialization.ValueCodec

/-!
# Values in the shortest forms

An encoder and decoder with the laws of the package, for the values the messages here hold.
-/
namespace Narsil.Serialization

open MessagePack

def countForm (value : Nat) : Bytes :=
  if value < 0x80 then [value.toUInt8]
  else if value < 2 ^ 8 then 0xcc :: bigEndian 1 value
  else if value < 2 ^ 16 then 0xcd :: bigEndian 2 value
  else if value < 2 ^ 32 then 0xce :: bigEndian 4 value
  else 0xcf :: bigEndian 8 value

/-- The first of the forms that holds the length. -/
def longForm (forms : List (UInt8 × Nat)) (length : Nat) : Bytes :=
  match forms.find? fun form => decide (length < 256 ^ form.2) with
  | some (tag, width) => tag :: bigEndian width length
  | none => []

def stringForm (length : Nat) : Bytes :=
  if length < 32 then [(0xa0 + length).toUInt8] else longForm strForms length

def arrayForm (length : Nat) : Bytes :=
  if length < 16 then [(0x90 + length).toUInt8] else longForm arrayForms length

def objectForm (length : Nat) : Bytes :=
  if length < 16 then [(0x80 + length).toUInt8] else longForm mapForms length

def encodeString (text : String) : Option Bytes :=
  let bytes := text.toByteArray.data.toList
  if bytes.length < lengthLimit then some (stringForm bytes.length ++ bytes) else none

mutual

def encodeForms : Decoded → Option Bytes
  | .null => some [0xc0]
  | .boolean value => some [if value then 0xc3 else 0xc2]
  | .number (.integer (.ofNat value)) => some (countForm value)
  | .number (.integer (.negSucc value)) => some (0xd3 :: bigEndian 8 (2 ^ 64 - 1 - value))
  | .number .other => some (0xcb :: bigEndian 8 0)
  | .string text => encodeString text
  | .binary bytes => if bytes.length < lengthLimit then some (longForm binForms bytes.length ++ bytes) else none
  | .array values =>
    if values.length < lengthLimit then (encodeAll values).map fun parts => arrayForm values.length ++ parts.flatten
    else none
  | .object fields =>
    if fields.length < lengthLimit then (encodeFields fields).map fun parts => objectForm fields.length ++ parts.flatten
    else none

def encodeAll : List Decoded → Option (List Bytes)
  | [] => some []
  | value :: values => (encodeForms value).bind fun bytes => (encodeAll values).map (bytes :: ·)

def encodeFields : List (String × Decoded) → Option (List Bytes)
  | [] => some []
  | (key, value) :: fields => (encodeString key).bind fun name => (encodeForms value).bind fun bytes =>
      (encodeFields fields).map ((name ++ bytes) :: ·)

end

theorem encodeAll_eq (values : List Decoded) : encodeAll values = values.mapM encodeForms := by
  induction values with
  | nil => rfl
  | cons value values ih =>
    rw [encodeAll, List.mapM_cons, ih]
    cases encodeForms value with
    | none => rfl
    | some bytes => cases values.mapM encodeForms <;> rfl

theorem encodeFields_eq (fields : List (String × Decoded)) : encodeFields fields = fields.mapM fun field =>
    (encodeForms (.string field.1)).bind fun key => (encodeForms field.2).map (key ++ ·) := by
  induction fields with
  | nil => rfl
  | cons field fields ih =>
    obtain ⟨key, value⟩ := field
    rw [encodeFields, List.mapM_cons, ih, encodeForms]
    cases encodeString key with
    | none => rfl
    | some name =>
      cases encodeForms value with
      | none => rfl
      | some bytes =>
        simp only [Option.bind_some, Option.map_some, Option.bind_eq_bind, Option.pure_def]
        rw [Option.map_eq_bind]
        rfl

theorem countForm_length (value : Nat) : (countForm value).length =
    if value < 0x80 then 1 else if value < 2 ^ 8 then 2 else if value < 2 ^ 16 then 3 else if value < 2 ^ 32 then 5 else 9 := by
  rw [countForm]
  split
  · rfl
  · split
    · rw [List.length_cons, bigEndian_length]
    · split
      · rw [List.length_cons, bigEndian_length]
      · split <;> rw [List.length_cons, bigEndian_length]

theorem longForm_spec {forms : List (UInt8 × Nat)} {length : Nat} (fits : length < lengthLimit)
    (widest : ∃ tag, (tag, 4) ∈ forms) :
    ∃ tag width, (tag, width) ∈ forms ∧ length < 256 ^ width ∧ longForm forms length = tag :: bigEndian width length := by
  rw [longForm]
  cases found : forms.find? fun form => decide (length < 256 ^ form.2) with
  | none =>
    obtain ⟨tag, member⟩ := widest
    have refused := List.find?_eq_none.mp found _ member
    simp only [decide_eq_true_eq] at refused
    exact absurd (show length < 256 ^ 4 by omega) refused
  | some form =>
    have holds := List.find?_some found
    simp only [decide_eq_true_eq] at holds
    exact ⟨form.1, form.2, List.mem_of_find?_eq_some found, holds, rfl⟩

theorem stringForm_head {length : Nat} (fits : length < lengthLimit) : StrHead (stringForm length) length := by
  rw [stringForm]
  split
  · next small => exact .fix small
  · obtain ⟨tag, width, member, within, same⟩ := @longForm_spec strForms length fits ⟨0xdb, by decide⟩
    exact same ▸ .long member within

theorem objectForm_head {length : Nat} (fits : length < lengthLimit) : MapHead (objectForm length) length := by
  rw [objectForm]
  split
  · next small => exact .fix small
  · obtain ⟨tag, width, member, within, same⟩ := @longForm_spec mapForms length fits ⟨0xdf, by decide⟩
    exact same ▸ .long member within

def readMany {α : Type} (read : Bytes → Option (α × Bytes)) : Nat → Bytes → Option (List α × Bytes)
  | 0, rest => some ([], rest)
  | count + 1, rest =>
    (read rest).bind fun (value, behind) => (readMany read count behind).map fun (values, more) => (value :: values, more)

/-- A text and the value behind it. -/
def readField (read : Bytes → Option (Decoded × Bytes)) (rest : Bytes) : Option ((String × Decoded) × Bytes) :=
  match read rest with
  | some (.string key, behind) => (read behind).map fun (value, more) => ((key, value), more)
  | _ => none

/-- What a tag stands for, as far as it is used here. -/
inductive Kind
  | small | string | object | array | count | binary | other
  deriving DecidableEq

def kindOf (tag : Nat) : Kind :=
  if tag < 0x80 then .small
  else if isMapTag tag then .object
  else if isStringTag tag then .string
  else if decide (0x90 ≤ tag) && decide (tag ≤ 0x9f) || tag == 0xdc || tag == 0xdd then .array
  else if decide (0xcc ≤ tag) && decide (tag ≤ 0xcf) then .count
  else if decide (0xc4 ≤ tag) && decide (tag ≤ 0xc6) then .binary
  else .other

def decodeAt : Nat → Bytes → Option (Decoded × Bytes)
  | 0, _ => none
  | fuel + 1, rest =>
    match headerOf rest with
    | none => none
    | some header =>
      let tag := ofBigEndian (rest.take 1)
      let behind := rest.drop header.headerBytes
      let body := behind.take header.bodyBytes
      let after := behind.drop header.bodyBytes
      match kindOf tag with
      | .small => some (.number (.integer tag), behind)
      | .string => (String.fromUTF8? ⟨body.toArray⟩).map fun text => (.string text, after)
      | .object =>
        (readMany (readField (decodeAt fuel)) (header.children / 2) behind).map fun (fields, more) => (.object fields, more)
      | .array => (readMany (decodeAt fuel) header.children behind).map fun (values, more) => (.array values, more)
      | .count => some (.number (.integer (ofBigEndian body)), after)
      | .binary => some (.binary body, after)
      | .other => none

section Reading
variable {fuel : Nat} {head body bytes rest : Bytes} {children : Nat}

theorem decodeAt_head (isHead : Head head body.length children) {kind : Kind}
    (isKind : kindOf (ofBigEndian (head.take 1)) = kind) :
    decodeAt (fuel + 1) (head ++ (body ++ rest)) =
      match kind with
      | .small => some (.number (.integer (ofBigEndian (head.take 1))), body ++ rest)
      | .string => (String.fromUTF8? ⟨body.toArray⟩).map fun text => (.string text, rest)
      | .object =>
        (readMany (readField (decodeAt fuel)) (children / 2) (body ++ rest)).map fun (fields, more) => (.object fields, more)
      | .array => (readMany (decodeAt fuel) children (body ++ rest)).map fun (values, more) => (.array values, more)
      | .count => some (.number (.integer (ofBigEndian body)), rest)
      | .binary => some (.binary body, rest)
      | .other => none := by
  obtain ⟨byte, more, same, -⟩ := head_kind isHead
  have first : (head ++ (body ++ rest)).take 1 = head.take 1 := by
    rw [same]
    rfl
  rw [decodeAt, headerOf_of_head isHead]
  simp only [first, isKind, List.drop_left, List.take_left]
  cases kind <;> rfl

theorem first_tag (byte : UInt8) (more : Bytes) : ofBigEndian ((byte :: more).take 1) = byte.toNat := by
  rw [List.take_succ_cons, List.take_zero, ofBigEndian_one]

set_option maxRecDepth 100000 in
theorem kind_string : ∀ tag : Fin 256, isStringTag tag.val = true → kindOf tag.val = .string := by decide

set_option maxRecDepth 100000 in
theorem kind_object : ∀ tag : Fin 256, isMapTag tag.val = true → kindOf tag.val = .object := by decide

theorem kind_forms : (∀ form ∈ binForms, kindOf form.1.toNat = .binary) ∧ (∀ form ∈ arrayForms, kindOf form.1.toNat = .array) ∧
    ∀ small : Fin 16, kindOf (0x90 + small.val) = .array := by
  decide

theorem decodeAt_string {text : String} (encoded : encodeString text = some bytes) :
    decodeAt (fuel + 1) (bytes ++ rest) = some (.string text, rest) := by
  simp only [encodeString, Option.ite_none_right_eq_some, Option.some.injEq] at encoded
  obtain ⟨fits, rfl⟩ := encoded
  have isHead := stringForm_head fits
  obtain ⟨byte, more, same, isString⟩ := strHead_tag isHead
  have isKind : kindOf (ofBigEndian ((stringForm text.toByteArray.data.toList.length).take 1)) = .string := by
    rw [same, first_tag]
    exact kind_string ⟨_, byte.toNat_lt⟩ isString
  have reads : String.fromUTF8? ⟨text.toByteArray.data.toList.toArray⟩ = some text := by
    simp only [Array.toArray_toList, String.fromUTF8?, Option.dite_none_right_eq_some]
    exact ⟨text.isValidUTF8, rfl⟩
  rw [List.append_assoc, decodeAt_head (.str isHead) isKind]
  simp only [reads, Option.map_some]

theorem decodeAt_binary {held : Bytes} (fits : held.length < lengthLimit) :
    decodeAt (fuel + 1) (longForm binForms held.length ++ held ++ rest) = some (.binary held, rest) := by
  obtain ⟨tag, width, member, within, same⟩ := @longForm_spec binForms held.length fits ⟨0xc6, by decide⟩
  have isHead : Head (longForm binForms held.length) held.length 0 := same ▸ .bin member within
  have isKind : kindOf (ofBigEndian ((longForm binForms held.length).take 1)) = .binary := by
    rw [same, first_tag]
    exact kind_forms.1 _ member
  rw [List.append_assoc, decodeAt_head isHead isKind]

theorem decodeAt_array {values : List Decoded} {held : Bytes} (fits : values.length < lengthLimit)
    (reads : readMany (decodeAt fuel) values.length (held ++ rest) = some (values, rest)) :
    decodeAt (fuel + 1) (arrayForm values.length ++ held ++ rest) = some (.array values, rest) := by
  have isHead : Head (arrayForm values.length) 0 values.length ∧
      kindOf (ofBigEndian ((arrayForm values.length).take 1)) = .array := by
    rw [arrayForm]
    split
    · next small =>
      have tag := @toUInt8_toNat (0x90 + values.length) (by omega)
      refine ⟨.fixarray small, ?_⟩
      rw [first_tag, tag]
      exact kind_forms.2.2 ⟨_, small⟩
    · obtain ⟨tag, width, member, within, same⟩ := @longForm_spec arrayForms values.length fits ⟨0xdd, by decide⟩
      rw [same, first_tag]
      exact ⟨.array member within, kind_forms.2.1 _ member⟩
  have read := @decodeAt_head fuel _ [] (held ++ rest) _ isHead.1 _ isHead.2
  rw [List.append_assoc]
  rw [List.nil_append, reads] at read
  exact read

theorem decodeAt_object {fields : List (String × Decoded)} {held : Bytes} (fits : fields.length < lengthLimit)
    (reads : readMany (readField (decodeAt fuel)) fields.length (held ++ rest) = some (fields, rest)) :
    decodeAt (fuel + 1) (objectForm fields.length ++ held ++ rest) = some (.object fields, rest) := by
  have isHead := objectForm_head fits
  obtain ⟨byte, more, same, isMap⟩ := mapHead_tag isHead
  have isKind : kindOf (ofBigEndian ((objectForm fields.length).take 1)) = .object := by
    rw [same, first_tag]
    exact kind_object ⟨_, byte.toNat_lt⟩ isMap
  have read := @decodeAt_head fuel _ [] (held ++ rest) _ (.map isHead) _ isKind
  rw [List.append_assoc]
  rw [List.nil_append, Nat.mul_div_cancel_left _ (by decide), reads] at read
  exact read

theorem decodeAt_count {value : Nat} (safe : value ≤ maxSafeInteger) :
    decodeAt (fuel + 1) (countForm value ++ rest) = some (.number (.integer value), rest) := by
  have small_kind : ∀ tag : Fin 128, kindOf tag.val = .small := by decide
  have long : ∀ {tag : UInt8} {width : Nat}, (tag, width) ∈ numberForms → kindOf tag.toNat = .count →
      value < 256 ^ width →
      decodeAt (fuel + 1) (tag :: bigEndian width value ++ rest) = some (.number (.integer value), rest) := by
    intro tag width member isKind within
    have isHead : Head [tag] (bigEndian width value).length 0 := by
      rw [bigEndian_length]
      exact .number member
    have read := @decodeAt_head fuel [tag] (bigEndian width value) rest 0 isHead .count
      (by rw [first_tag, isKind])
    rw [ofBigEndian_bigEndian, Nat.mod_eq_of_lt within] at read
    exact read
  rw [countForm]
  split
  · next small =>
    have tag := @toUInt8_toNat value (by omega)
    have isHead : Head [value.toUInt8] ([] : Bytes).length 0 := by
      refine .fixint (.inl ?_)
      rw [UInt8.le_iff_toNat_le, tag]
      simp only [UInt8.reduceToNat]
      omega
    have read : decodeAt (fuel + 1) ([value.toUInt8] ++ rest) =
        some (.number (.integer (ofBigEndian ([value.toUInt8].take 1))), rest) := @decodeAt_head fuel _ [] rest _ isHead .small
      (by rw [first_tag, tag]; exact small_kind ⟨_, small⟩)
    rw [first_tag, tag] at read
    exact read
  · split
    · next within => exact long (by decide) rfl within
    · split
      · next within => exact long (by decide) rfl within
      · split
        · next within => exact long (by decide) rfl within
        · exact long (by decide) rfl (Nat.lt_of_le_of_lt safe (by decide))

theorem readMany_parts {α : Type} {read : Bytes → Option (α × Bytes)} {encode : α → Option Bytes} {items : List α}
    {parts : List Bytes} (made : items.mapM encode = some parts)
    (reads : ∀ item ∈ items, ∀ part ∈ parts, encode item = some part → ∀ behind, read (part ++ behind) = some (item, behind)) :
    readMany read items.length (parts.flatten ++ rest) = some (items, rest) := by
  induction items generalizing parts with
  | nil =>
    cases made
    rfl
  | cons item items ih =>
    simp only [List.mapM_cons, Option.bind_eq_bind, Option.pure_def, Option.bind_eq_some_iff, Option.some.injEq] at made
    obtain ⟨part, encoded, others, later, rfl⟩ := made
    have first := reads item List.mem_cons_self part List.mem_cons_self encoded (others.flatten ++ rest)
    have behind := ih later fun other member piece inside =>
      reads other (List.mem_cons_of_mem _ member) piece (List.mem_cons_of_mem _ inside)
    rw [List.length_cons, readMany, List.flatten_cons, List.append_assoc, first, Option.bind_some]
    simp only [behind, Option.map_some]

theorem part_within {parts : List Bytes} {head part : Bytes} (member : part ∈ parts) (nonempty : head ≠ [])
    (enough : (head ++ parts.flatten).length ≤ fuel + 1) : part.length ≤ fuel := by
  have within := (List.sublist_flatten_of_mem member).length_le
  have positive := List.length_pos_iff.mpr nonempty
  rw [List.length_append] at enough
  omega

theorem fuel_left (nonempty : head ≠ []) (enough : (head ++ body).length ≤ fuel) : ∃ left, fuel = left + 1 := by
  have positive := List.length_pos_iff.mpr nonempty
  rw [List.length_append] at enough
  exact ⟨fuel - 1, by omega⟩

theorem arrayForm_ne_nil {length : Nat} (fits : length < lengthLimit) : arrayForm length ≠ [] := by
  rw [arrayForm]
  split
  · exact List.cons_ne_nil _ _
  · obtain ⟨tag, width, -, -, same⟩ := @longForm_spec arrayForms length fits ⟨0xdd, by decide⟩
    exact same ▸ List.cons_ne_nil _ _

theorem countForm_ne_nil (value : Nat) : countForm value ≠ [] := by
  rw [← List.length_pos_iff, countForm_length]
  split_ifs <;> omega

theorem decodeAt_forms {value : Decoded} (plain : value.Plain) (encoded : encodeForms value = some bytes)
    (enough : bytes.length ≤ fuel) (rest : Bytes) : decodeAt fuel (bytes ++ rest) = some (value, rest) := by
  induction plain generalizing fuel bytes rest with
  | @count value safe =>
    cases encoded
    obtain ⟨left, rfl⟩ := @fuel_left fuel (countForm value) [] (countForm_ne_nil value) (by rwa [List.append_nil])
    exact decodeAt_count safe
  | string text =>
    have isText := encoded
    simp only [encodeForms, encodeString, Option.ite_none_right_eq_some, Option.some.injEq] at encoded
    obtain ⟨fits, rfl⟩ := encoded
    obtain ⟨left, rfl⟩ := fuel_left (Head.ne_nil (.str (stringForm_head fits))) enough
    exact decodeAt_string isText
  | binary held =>
    simp only [encodeForms, Option.ite_none_right_eq_some, Option.some.injEq] at encoded
    obtain ⟨fits, rfl⟩ := encoded
    obtain ⟨tag, width, -, -, same⟩ := @longForm_spec binForms held.length fits ⟨0xc6, by decide⟩
    obtain ⟨left, rfl⟩ := fuel_left (same ▸ List.cons_ne_nil _ _) enough
    exact decodeAt_binary fits
  | @array values plain ih =>
    simp only [encodeForms, Option.ite_none_right_eq_some, Option.map_eq_some_iff] at encoded
    obtain ⟨fits, parts, made, rfl⟩ := encoded
    rw [encodeAll_eq] at made
    obtain ⟨left, rfl⟩ := fuel_left (arrayForm_ne_nil fits) enough
    refine decodeAt_array fits (readMany_parts made fun item member part inside isPart behind => ?_)
    exact ih item member isPart (part_within inside (arrayForm_ne_nil fits) enough) behind
  | @object fields distinct noPrototype plain ih =>
    simp only [encodeForms, Option.ite_none_right_eq_some, Option.map_eq_some_iff] at encoded
    obtain ⟨fits, parts, made, rfl⟩ := encoded
    rw [encodeFields_eq] at made
    have nonempty := Head.ne_nil (.map (objectForm_head fits))
    obtain ⟨left, rfl⟩ := fuel_left nonempty enough
    refine decodeAt_object fits (readMany_parts made fun field member part inside isPart behind => ?_)
    have room := part_within inside nonempty enough
    obtain ⟨key, isKey, isPart⟩ := Option.bind_eq_some_iff.mp isPart
    obtain ⟨held, isHeld, rfl⟩ := Option.map_eq_some_iff.mp isPart
    rw [List.length_append] at room
    have keyRead : decodeAt left (key ++ (held ++ behind)) = some (.string field.1, held ++ behind) := by
      have isText : encodeString field.1 = some key := isKey
      simp only [encodeString, Option.ite_none_right_eq_some, Option.some.injEq] at isText
      obtain ⟨keyFits, same⟩ := isText
      obtain ⟨less, rfl⟩ := fuel_left (Head.ne_nil (.str (stringForm_head keyFits)))
        (show _ ≤ left by rw [same]; omega)
      exact decodeAt_string isKey
    have valueRead := ih field member isHeld (show held.length ≤ left by omega) behind
    rw [List.append_assoc, readField, keyRead]
    simp only [valueRead, Option.map_some]

end Reading

def shortestForms : ValueCodec where
  encode := encodeForms
  decode bytes :=
    match decodeAt bytes.length bytes with
    | some (value, []) => .ok value
    | _ => .error "Insufficient data"
  count := countForm
  arrayHead := arrayForm
  objectHead := objectForm
  encode_count _ := by rfl
  encode_array values := by rw [encodeForms, encodeAll_eq]
  encode_object fields := by rw [encodeForms, encodeFields_eq]
  count_mono grows := by
    rw [countForm_length, countForm_length]
    split_ifs <;> omega
  count_bound value := by
    rw [countForm_length]
    split_ifs <;> omega
  decode_encode := by
    intro value bytes plain encoded
    have read := decodeAt_forms plain encoded (Nat.le_refl _) []
    rw [List.append_nil] at read
    rw [read]

end Narsil.Serialization
