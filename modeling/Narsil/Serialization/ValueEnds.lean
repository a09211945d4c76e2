import Narsil.Assoc.Entries
import Narsil.MessagePack.Format
import Narsil.Replication.Entry

/-!
# The ends of MessagePack values

`headerAt` and `endOfValue` read heads and skip bodies without decoding. Reading beyond the
bytes throws, and never happens.
-/
namespace Narsil.Serialization

open MessagePack

inductive RangeError
  | outOfBounds
  deriving DecidableEq

structure ValueHeader where
  headerBytes : Nat
  bodyBytes : Nat
  children : Nat
  deriving DecidableEq

/-- `getUint8`, `getUint16` and `getUint32` of a view, the latter two big-endian. -/
def getUint (view : Bytes) (offset width : Nat) : Except RangeError Nat :=
  if offset + width > view.length then .error .outOfBounds else .ok (ofBigEndian ((view.drop offset).take width))

def LENGTH_BYTES_BY_TAG : List (Nat × Nat) :=
  [(0xc4, 1), (0xc5, 2), (0xc6, 4), (0xc7, 1), (0xc8, 2), (0xc9, 4), (0xd9, 1), (0xda, 2), (0xdb, 4), (0xdc, 2),
    (0xdd, 4), (0xde, 2), (0xdf, 4)]
def ARRAY_TAGS : List Nat := [0xdc, 0xdd]
def MAP_TAGS : List Nat := [0xde, 0xdf]
def EXT_TAGS : List Nat := [0xc7, 0xc8, 0xc9]
def FIXED_BODY_BYTES_BY_TAG : List (Nat × Nat) :=
  [(0xc0, 0), (0xc2, 0), (0xc3, 0), (0xca, 4), (0xcb, 8), (0xcc, 1), (0xcd, 2), (0xce, 4), (0xcf, 8), (0xd0, 1),
    (0xd1, 2), (0xd2, 4), (0xd3, 8), (0xd4, 2), (0xd5, 3), (0xd6, 5), (0xd7, 9), (0xd8, 17)]

/-- The header behind a tag with a length. -/
def lengthHeader (tag lengthBytes length : Nat) : ValueHeader :=
  let headerBytes := 1 + lengthBytes
  if ARRAY_TAGS.contains tag then ⟨headerBytes, 0, length⟩
  else if MAP_TAGS.contains tag then ⟨headerBytes, 0, length * 2⟩
  else ⟨headerBytes, length + if EXT_TAGS.contains tag then 1 else 0, 0⟩

def headerAt (view : Bytes) (offset : Nat) : Except RangeError (Option ValueHeader) :=
  if offset ≥ view.length then .ok none
  else do
    let tag ← getUint view offset 1
    if tag ≤ 0x7f ∨ tag ≥ 0xe0 then .ok (some ⟨1, 0, 0⟩)
    else if tag ≤ 0x8f then .ok (some ⟨1, 0, (tag &&& 0x0f) * 2⟩)
    else if tag ≤ 0x9f then .ok (some ⟨1, 0, tag &&& 0x0f⟩)
    else if tag ≤ 0xbf then .ok (some ⟨1, tag &&& 0x1f, 0⟩)
    else
      match Assoc.lookup LENGTH_BYTES_BY_TAG tag with
      | some lengthBytes =>
        if offset + 1 + lengthBytes > view.length then .ok none
        else do
          let length ← getUint view (offset + 1) lengthBytes
          .ok (some (lengthHeader tag lengthBytes length))
      | none =>
        match Assoc.lookup FIXED_BODY_BYTES_BY_TAG tag with
        | none => .ok none
        | some fixedBytes => .ok (some ⟨1, fixedBytes, 0⟩)

/-- The header in front of the bytes that are left. -/
def headerOf : Bytes → Option ValueHeader
  | [] => none
  | byte :: rest =>
    let tag := byte.toNat
    if tag ≤ 0x7f ∨ tag ≥ 0xe0 then some ⟨1, 0, 0⟩
    else if tag ≤ 0x8f then some ⟨1, 0, (tag &&& 0x0f) * 2⟩
    else if tag ≤ 0x9f then some ⟨1, 0, tag &&& 0x0f⟩
    else if tag ≤ 0xbf then some ⟨1, tag &&& 0x1f, 0⟩
    else
      match Assoc.lookup LENGTH_BYTES_BY_TAG tag with
      | some lengthBytes =>
        if lengthBytes > rest.length then none
        else some (lengthHeader tag lengthBytes (ofBigEndian (rest.take lengthBytes)))
      | none => (Assoc.lookup FIXED_BODY_BYTES_BY_TAG tag).map fun fixedBytes => ⟨1, fixedBytes, 0⟩

theorem headerAt_eq (view : Bytes) (offset : Nat) : headerAt view offset = .ok (headerOf (view.drop offset)) := by
  rw [headerAt]
  by_cases beyond : offset ≥ view.length
  · rw [if_pos beyond, List.drop_eq_nil_of_le beyond]
    rfl
  · have inside : offset < view.length := Nat.lt_of_not_ge beyond
    have left := List.drop_eq_getElem_cons inside
    have byte : getUint view offset 1 = .ok view[offset].toNat := by
      rw [getUint, if_neg (by omega), left, List.take_succ_cons, List.take_zero, ofBigEndian_cons]
      simp [ofBigEndian]
    rw [if_neg beyond, byte, left]
    simp only [bind, Except.bind, headerOf]
    split
    · rfl
    · split
      · rfl
      · split
        · rfl
        · split
          · rfl
          · cases Assoc.lookup LENGTH_BYTES_BY_TAG view[offset].toNat with
            | none => cases Assoc.lookup FIXED_BODY_BYTES_BY_TAG view[offset].toNat <;> rfl
            | some lengthBytes =>
              simp only
              by_cases short : offset + 1 + lengthBytes > view.length
              · rw [if_pos short, if_pos (by rw [List.length_drop]; omega)]
              · rw [if_neg short, if_neg (by rw [List.length_drop]; omega), getUint, if_neg short]

theorem toUInt8_toNat {value : Nat} (fits : value < 256) : value.toUInt8.toNat = value := by
  rw [Nat.toUInt8_eq, UInt8.toNat_ofNat', Nat.mod_eq_of_lt fits]

theorem toUInt8_byte {value : Nat} {byte : UInt8} (same : value = byte.toNat) : value.toUInt8 = byte := by
  rw [same, Nat.toUInt8_eq, UInt8.ofNat_toNat]

theorem and_15 (tag : Nat) : tag &&& 0x0f = tag % 16 := Nat.and_two_pow_sub_one_eq_mod tag 4

theorem and_31 (tag : Nat) : tag &&& 0x1f = tag % 32 := Nat.and_two_pow_sub_one_eq_mod tag 5

/-- What a tag with a length may be. -/
def lengthForm (tag : Nat) (form : UInt8 × Nat) : Bool :=
  if ARRAY_TAGS.contains tag then arrayForms.contains form
  else if MAP_TAGS.contains tag then mapForms.contains form
  else if EXT_TAGS.contains tag then extForms.contains form
  else strForms.contains form || binForms.contains form

set_option maxRecDepth 100000 in
theorem length_tags : ∀ tag : Fin 256, (Assoc.lookup LENGTH_BYTES_BY_TAG tag.val).all
    (fun width => lengthForm tag.val (tag.val.toUInt8, width)) = true := by
  decide

set_option maxRecDepth 100000 in
theorem fixed_tags : ∀ tag : Fin 256, (Assoc.lookup FIXED_BODY_BYTES_BY_TAG tag.val).all
    (fun size => constants.contains tag.val.toUInt8 && size == 0 || numberForms.contains (tag.val.toUInt8, size) ||
      1 ≤ size && fixextForms.contains (tag.val.toUInt8, size - 1)) = true := by
  decide

theorem lengthForm_of_found {byte : UInt8} {width : Nat}
    (found : Assoc.lookup LENGTH_BYTES_BY_TAG byte.toNat = some width) : lengthForm byte.toNat (byte, width) = true := by
  have all := length_tags ⟨byte.toNat, byte.toNat_lt⟩
  rwa [found, Option.all_some, toUInt8_byte rfl] at all

theorem lengthHeader_head {byte : UInt8} {width length : Nat} (fits : length < 256 ^ width)
    (found : Assoc.lookup LENGTH_BYTES_BY_TAG byte.toNat = some width) :
    let header := lengthHeader byte.toNat width length
    Head (byte :: bigEndian width length) header.bodyBytes header.children ∧ header.headerBytes = 1 + width := by
  have form := lengthForm_of_found found
  rw [lengthForm] at form
  simp only [lengthHeader]
  split at form
  next isArray =>
    rw [if_pos isArray]
    exact ⟨.array (List.contains_iff_mem.mp form) fits, rfl⟩
  next notArray =>
    rw [if_neg notArray]
    split at form
    next isMap =>
      rw [if_pos isMap, Nat.mul_comm]
      exact ⟨.map (.long (List.contains_iff_mem.mp form) fits), rfl⟩
    next notMap =>
      rw [if_neg notMap]
      split at form
      next isExt =>
        rw [if_pos isExt, Nat.add_comm length]
        exact ⟨.ext (List.contains_iff_mem.mp form) fits, rfl⟩
      next notExt =>
        rw [if_neg notExt, Nat.add_zero]
        rcases (Bool.or_eq_true _ _).mp form with isStr | isBin
        · exact ⟨.str (.long (List.contains_iff_mem.mp isStr) fits), rfl⟩
        · exact ⟨.bin (List.contains_iff_mem.mp isBin) fits, rfl⟩

theorem headerOf_head {rest : Bytes} {header : ValueHeader} (found : headerOf rest = some header) :
    ∃ head, Head head header.bodyBytes header.children ∧ head.length = header.headerBytes ∧ head <+: rest := by
  cases rest with
  | nil => cases found
  | cons byte rest =>
    have bound := byte.toNat_lt
    have front : [byte] <+: byte :: rest := ⟨rest, rfl⟩
    simp only [headerOf, and_15, and_31] at found
    split at found
    next fixint =>
      cases found
      exact ⟨[byte], .fixint (by rwa [UInt8.le_iff_toNat_le, UInt8.le_iff_toNat_le]), rfl, front⟩
    next notFixint =>
      split at found
      next fixmap =>
        cases found
        have tag : (0x80 + byte.toNat % 16).toUInt8 = byte := toUInt8_byte (by omega)
        have isHead := MapHead.fix (Nat.mod_lt byte.toNat (show 16 > 0 by decide))
        rw [tag] at isHead
        rw [Nat.mul_comm]
        exact ⟨[byte], .map isHead, rfl, front⟩
      next notFixmap =>
        split at found
        next fixarray =>
          cases found
          have tag : (0x90 + byte.toNat % 16).toUInt8 = byte := toUInt8_byte (by omega)
          have isHead := Head.fixarray (Nat.mod_lt byte.toNat (show 16 > 0 by decide))
          rw [tag] at isHead
          exact ⟨[byte], isHead, rfl, front⟩
        next notFixarray =>
          split at found
          next fixstr =>
            cases found
            have tag : (0xa0 + byte.toNat % 32).toUInt8 = byte := toUInt8_byte (by omega)
            have isHead := StrHead.fix (Nat.mod_lt byte.toNat (show 32 > 0 by decide))
            rw [tag] at isHead
            exact ⟨[byte], .str isHead, rfl, front⟩
          next notFixstr =>
            split at found
            next width isLength =>
              split at found
              · cases found
              next enough =>
                cases found
                have taken : (rest.take width).length = width := List.length_take_of_le (Nat.le_of_not_gt enough)
                have fits := ofBigEndian_lt (rest.take width)
                have bytes := bigEndian_ofBigEndian (rest.take width)
                rw [taken] at fits bytes
                obtain ⟨isHead, headerBytes⟩ := lengthHeader_head fits isLength
                refine ⟨_, isHead, ?_, ?_⟩
                · rw [headerBytes, List.length_cons, bigEndian_length, Nat.add_comm]
                · rw [bytes]
                  exact List.cons_prefix_cons.mpr ⟨rfl, List.take_prefix _ _⟩
            next =>
              obtain ⟨size, isFixed, rfl⟩ := Option.map_eq_some_iff.mp found
              have all := fixed_tags ⟨byte.toNat, bound⟩
              rw [isFixed, Option.all_some, toUInt8_byte rfl] at all
              simp only [Bool.or_eq_true, Bool.and_eq_true, beq_iff_eq, decide_eq_true_eq, List.contains_iff_mem] at all
              rcases all with (⟨constant, rfl⟩ | number) | ⟨positive, fixext⟩
              · exact ⟨[byte], .constant constant, rfl, front⟩
              · exact ⟨[byte], .number number, rfl, front⟩
              · have isHead := Head.fixext fixext
                rw [Nat.add_sub_cancel' positive] at isHead
                exact ⟨[byte], isHead, rfl, front⟩

theorem headerOf_long {tag : UInt8} {width length : Nat} (found : Assoc.lookup LENGTH_BYTES_BY_TAG tag.toNat = some width)
    (range : 0xbf < tag.toNat ∧ tag.toNat < 0xe0) (fits : length < 256 ^ width) (rest : Bytes) :
    headerOf (tag :: bigEndian width length ++ rest) = some (lengthHeader tag.toNat width length) := by
  have enough : ¬ width > (bigEndian width length ++ rest).length := by
    rw [List.length_append, bigEndian_length]
    omega
  have taken : (bigEndian width length ++ rest).take width = bigEndian width length := by
    rw [List.take_append_of_le_length (Nat.le_of_eq (bigEndian_length _ _).symm),
      List.take_of_length_le (Nat.le_of_eq (bigEndian_length _ _))]
  rw [List.cons_append, headerOf]
  simp only [found]
  rw [if_neg (by omega), if_neg (by omega), if_neg (by omega), if_neg (by omega), if_neg enough, taken, ofBigEndian_bigEndian, Nat.mod_eq_of_lt fits]

theorem long_forms : ∀ form ∈ strForms ++ binForms ++ extForms ++ arrayForms ++ mapForms,
    Assoc.lookup LENGTH_BYTES_BY_TAG form.1.toNat = some form.2 ∧ 0xbf < form.1.toNat ∧ form.1.toNat < 0xe0 := by
  decide

theorem body_forms : ∀ form ∈ strForms ++ binForms, ARRAY_TAGS.contains form.1.toNat = false ∧
    MAP_TAGS.contains form.1.toNat = false ∧ EXT_TAGS.contains form.1.toNat = false := by
  decide

theorem ext_forms : ∀ form ∈ extForms, ARRAY_TAGS.contains form.1.toNat = false ∧
    MAP_TAGS.contains form.1.toNat = false ∧ EXT_TAGS.contains form.1.toNat = true := by
  decide

theorem array_forms : ∀ form ∈ arrayForms, ARRAY_TAGS.contains form.1.toNat = true := by
  decide

theorem map_forms : ∀ form ∈ mapForms, ARRAY_TAGS.contains form.1.toNat = false ∧
    MAP_TAGS.contains form.1.toNat = true := by
  decide

theorem short_forms : ∀ form ∈ numberForms ++ constants.map (·, 0) ++ fixextForms.map (fun form => (form.1, 1 + form.2)),
    Assoc.lookup LENGTH_BYTES_BY_TAG form.1.toNat = none ∧
      Assoc.lookup FIXED_BODY_BYTES_BY_TAG form.1.toNat = some form.2 ∧ 0xbf < form.1.toNat ∧ form.1.toNat < 0xe0 := by
  decide

theorem headerOf_short {tag : UInt8} {size : Nat} (isForm : (tag, size) ∈
    numberForms ++ constants.map (·, 0) ++ fixextForms.map (fun form => (form.1, 1 + form.2))) (rest : Bytes) :
    headerOf (tag :: rest) = some ⟨1, size, 0⟩ := by
  obtain ⟨noLength, fixed, above, below⟩ := short_forms _ isForm
  simp only at noLength fixed above below
  rw [headerOf]
  simp only [noLength, fixed]
  rw [if_neg (by omega), if_neg (by omega), if_neg (by omega), if_neg (by omega)]
  rfl

theorem headerOf_body {tag : UInt8} {width length : Nat} (form : (tag, width) ∈ strForms ++ binForms)
    (fits : length < 256 ^ width) (rest : Bytes) :
    headerOf (tag :: bigEndian width length ++ rest) = some ⟨(tag :: bigEndian width length).length, length, 0⟩ := by
  obtain ⟨found, range⟩ := long_forms (tag, width) (by simp only [List.mem_append] at form ⊢; tauto)
  obtain ⟨notArray, notMap, notExt⟩ := body_forms _ form
  simp only at notArray notMap notExt found range
  rw [headerOf_long found range fits, lengthHeader, notArray, notMap, notExt, List.length_cons, bigEndian_length,
    Nat.add_comm 1]
  rfl

theorem headerOf_of_head {head : Bytes} {body children : Nat} (isHead : Head head body children) (rest : Bytes) :
    headerOf (head ++ rest) = some ⟨head.length, body, children⟩ := by
  cases isHead with
  | @fixint tag form =>
    rw [UInt8.le_iff_toNat_le, UInt8.le_iff_toNat_le] at form
    rw [List.singleton_append, headerOf]
    exact if_pos form
  | @constant tag form =>
    exact headerOf_short (List.mem_append_left _ (List.mem_append_right _ (List.mem_map.mpr ⟨tag, form, rfl⟩))) rest
  | number form => exact headerOf_short (List.mem_append_left _ (List.mem_append_left _ form)) rest
  | @fixext tag size form =>
    exact headerOf_short (List.mem_append_right _ (List.mem_map.mpr ⟨(tag, size), form, rfl⟩)) rest
  | str form =>
    cases form with
    | fix small =>
      have tag := @toUInt8_toNat (0xa0 + body) (by omega)
      rw [List.singleton_append, headerOf]
      simp only [tag, and_31]
      rw [if_neg (by omega), if_neg (by omega), if_neg (by omega), if_pos (by omega),
        show (0xa0 + body) % 32 = body by omega]
      rfl
    | long form fits => exact headerOf_body (List.mem_append_left _ form) fits rest
  | bin form fits => exact headerOf_body (List.mem_append_right _ form) fits rest
  | @ext tag width length form fits =>
    obtain ⟨found, range⟩ := long_forms (tag, width) (by simp only [List.mem_append]; tauto)
    obtain ⟨notArray, notMap, isExt⟩ := ext_forms _ form
    simp only at notArray notMap isExt found range
    rw [headerOf_long found range fits, lengthHeader, notArray, notMap, isExt, List.length_cons, bigEndian_length,
      Nat.add_comm 1, Nat.add_comm 1]
    rfl
  | fixarray small =>
    have tag := @toUInt8_toNat (0x90 + children) (by omega)
    rw [List.singleton_append, headerOf]
    simp only [tag, and_15]
    rw [if_neg (by omega), if_neg (by omega), if_pos (by omega), show (0x90 + children) % 16 = children by omega]
    rfl
  | @array tag width count form fits =>
    obtain ⟨found, range⟩ := long_forms (tag, width) (by simp only [List.mem_append]; tauto)
    have isArray := array_forms _ form
    simp only at isArray found range
    rw [headerOf_long found range fits, lengthHeader, isArray, List.length_cons, bigEndian_length, Nat.add_comm 1]
    rfl
  | map form =>
    cases form with
    | fix small =>
      rename_i count
      have tag := @toUInt8_toNat (0x80 + count) (by omega)
      rw [List.singleton_append, headerOf]
      simp only [tag, and_15]
      rw [if_neg (by omega), if_pos (by omega), show (0x80 + count) % 16 = count by omega, Nat.mul_comm]
      rfl
    | @long tag width count form fits =>
      obtain ⟨found, range⟩ := long_forms (tag, width) (by simp only [List.mem_append]; tauto)
      obtain ⟨notArray, isMap⟩ := map_forms _ form
      simp only at notArray isMap found range
      rw [headerOf_long found range fits, lengthHeader, notArray, isMap, List.length_cons, bigEndian_length,
        Nat.add_comm 1, Nat.mul_comm 2]
      rfl

theorem headerOf_progress {rest : Bytes} {header : ValueHeader} (found : headerOf rest = some header) :
    0 < header.headerBytes ∧ header.headerBytes ≤ rest.length := by
  obtain ⟨head, isHead, length, isPrefix⟩ := headerOf_head found
  rw [← length]
  exact ⟨List.length_pos_iff.mpr isHead.ne_nil, isPrefix.length_le⟩

theorem headerAt_progress {view : Bytes} {offset : Nat} {header : ValueHeader}
    (found : headerAt view offset = .ok (some header)) : 0 < header.headerBytes ∧ offset < view.length := by
  rw [headerAt_eq, Except.ok.injEq] at found
  obtain ⟨positive, within⟩ := headerOf_progress found
  rw [List.length_drop] at within
  omega

def endFrom (view : Bytes) (offset pending : Nat) : Except RangeError (Option Nat) :=
  if pending > 0 then
    match _found : headerAt view offset with
    | .error thrown => .error thrown
    | .ok none => .ok none
    | .ok (some header) =>
      let next := offset + (header.headerBytes + header.bodyBytes)
      if next > view.length then .ok none else endFrom view next (pending + header.children - 1)
  else .ok (some offset)
termination_by view.length - offset
decreasing_by
  have := headerAt_progress _found
  omega

/-- The offset behind the value at the start. -/
def endOfValue (view : Bytes) (start : Nat) : Except RangeError (Option Nat) := endFrom view start 1

section Ends
variable {rest : Bytes} {header : ValueHeader} {pending : Nat}

theorem no_values (missing : headerOf rest = none) {values : Bytes} (isValues : Wholes (pending + 1) values) :
    ¬ values <+: rest := by
  rintro ⟨more, rfl⟩
  cases isValues with
  | more isValue others =>
    cases isValue with
    | value isHead held =>
      rw [List.append_assoc, List.append_assoc, List.append_assoc, headerOf_of_head isHead] at missing
      cases missing

theorem values_behind (found : headerOf rest = some header) (finish : Nat) :
    (∃ values, Wholes (pending + 1) values ∧ values <+: rest ∧ finish = values.length) ↔
      header.headerBytes + header.bodyBytes ≤ rest.length ∧
        ∃ values, Wholes (header.children + pending) values ∧
          values <+: rest.drop (header.headerBytes + header.bodyBytes) ∧
          finish = header.headerBytes + header.bodyBytes + values.length := by
  constructor
  · rintro ⟨values, isValues, ⟨more, rfl⟩, rfl⟩
    cases isValues with
    | more isValue others =>
      cases isValue with
      | @value head body held count isHead values =>
        rw [List.append_assoc, List.append_assoc, List.append_assoc, headerOf_of_head isHead] at found
        cases found
        have front : head.length + body.length = (head ++ body).length := List.length_append.symm
        refine ⟨by simp only [List.length_append]; omega, _, values.append others, ?_, ?_⟩
        · simp only [front, List.append_assoc]
          rw [← List.append_assoc head, List.drop_left]
          exact ⟨more, by simp only [List.append_assoc]⟩
        · simp only [List.length_append]
          omega
  · rintro ⟨within, values, isValues, ⟨more, behind⟩, rfl⟩
    obtain ⟨head, isHead, length, ⟨afterHead, rfl⟩⟩ := headerOf_head found
    obtain ⟨held, others, rfl, isHeld, isOthers⟩ := isValues.split
    rw [List.length_append, length] at within
    have body_length : (afterHead.take header.bodyBytes).length = header.bodyBytes :=
      List.length_take_of_le (by omega)
    rw [← length, List.drop_append, List.drop_eq_nil_of_le (by omega), List.nil_append, Nat.add_sub_cancel_left] at behind
    rw [← body_length] at isHead
    refine ⟨_, .more (.value isHead isHeld) isOthers, ⟨more, ?_⟩, ?_⟩
    · conv => rhs; rw [← List.take_append_drop header.bodyBytes afterHead, ← behind]
      simp only [List.append_assoc]
    · simp only [List.length_append, body_length, length]
      omega

end Ends

theorem endFrom_spec (view : Bytes) (offset pending : Nat) (within : offset ≤ view.length) :
    ∃ answer, endFrom view offset pending = .ok answer ∧
      ∀ finish, answer = some finish ↔
        ∃ values, Wholes pending values ∧ values <+: view.drop offset ∧ finish = offset + values.length := by
  induction offset, pending using endFrom.induct view with
  | case1 offset pending more thrown found =>
    rw [headerAt_eq] at found
    cases found
  | case2 offset pending more found =>
    obtain ⟨pending, rfl⟩ := Nat.exists_eq_add_of_lt more
    rw [headerAt_eq, Except.ok.injEq] at found
    refine ⟨none, ?_, fun finish => iff_of_false nofun ?_⟩
    · rw [endFrom, if_pos more, headerAt_eq, found]
    · rintro ⟨values, isValues, isPrefix, -⟩
      rw [Nat.zero_add] at isValues
      exact no_values found isValues isPrefix
  | case3 offset pending more header found next beyond =>
    obtain ⟨pending, rfl⟩ := Nat.exists_eq_add_of_lt more
    rw [headerAt_eq, Except.ok.injEq] at found
    refine ⟨none, ?_, fun finish => iff_of_false nofun ?_⟩
    · rw [endFrom, if_pos more, headerAt_eq, found]
      exact if_pos beyond
    · rintro ⟨values, isValues, isPrefix, -⟩
      rw [Nat.zero_add] at isValues
      have fits := ((values_behind found values.length).mp ⟨values, isValues, isPrefix, rfl⟩).1
      rw [List.length_drop] at fits
      omega
  | case4 offset pending more header found next fits ih =>
    obtain ⟨pending, rfl⟩ := Nat.exists_eq_add_of_lt more
    rw [headerAt_eq, Except.ok.injEq] at found
    obtain ⟨answer, ends, spec⟩ := ih (by omega)
    refine ⟨answer, ?_, fun finish => (spec finish).trans ?_⟩
    · rw [endFrom, if_pos more, headerAt_eq, found]
      simp only
      rw [if_neg fits]
      exact ends
    · have behind := @values_behind (view.drop offset) header pending found
      have count : 0 + pending + 1 + header.children - 1 = header.children + pending := by omega
      have inside : header.headerBytes + header.bodyBytes ≤ (view.drop offset).length := by
        rw [List.length_drop]
        omega
      rw [count, Nat.zero_add]
      constructor
      · rintro ⟨values, isValues, isPrefix, rfl⟩
        rw [← List.drop_drop] at isPrefix
        obtain ⟨all, isAll, front, length⟩ := (behind _).mpr ⟨inside, values, isValues, isPrefix, rfl⟩
        exact ⟨all, isAll, front, by omega⟩
      · rintro ⟨all, isAll, front, rfl⟩
        obtain ⟨-, values, isValues, isPrefix, length⟩ := (behind _).mp ⟨all, isAll, front, rfl⟩
        rw [List.drop_drop] at isPrefix
        exact ⟨values, isValues, isPrefix, by omega⟩
  | case5 offset pending stops =>
    obtain rfl : pending = 0 := by omega
    refine ⟨some offset, by rw [endFrom, if_neg stops], fun finish => ?_⟩
    constructor
    · rintro ⟨⟩
      exact ⟨[], .none, List.nil_prefix, rfl⟩
    · rintro ⟨values, isValues, -, rfl⟩
      cases isValues
      rfl

theorem wholes_one {bytes : Bytes} : Wholes 1 bytes ↔ Whole bytes := by
  constructor
  · intro values
    cases values with
    | more isValue others =>
      cases others
      rwa [List.append_nil]
  · intro isValue
    have one := Wholes.more isValue .none
    rwa [List.append_nil] at one

theorem endOfValue_spec (view : Bytes) (start : Nat) :
    ∃ answer, endOfValue view start = .ok answer ∧
      ∀ finish, answer = some finish ↔
        ∃ value, Whole value ∧ value <+: view.drop start ∧ finish = start + value.length := by
  by_cases within : start ≤ view.length
  · obtain ⟨answer, ends, spec⟩ := endFrom_spec view start 1 within
    refine ⟨answer, ends, fun finish => ?_⟩
    rw [spec]
    exact exists_congr fun value => and_congr_left fun _ => wholes_one
  · have nothing : view.drop start = [] := List.drop_eq_nil_of_le (Nat.le_of_not_le within)
    refine ⟨none, ?_, fun finish => iff_of_false nofun ?_⟩
    · rw [endOfValue, endFrom, if_pos Nat.one_pos, headerAt_eq, nothing]
      rfl
    · rintro ⟨value, isValue, isPrefix, -⟩
      rw [nothing] at isPrefix
      exact no_values rfl (wholes_one.mpr isValue) isPrefix

end Narsil.Serialization
