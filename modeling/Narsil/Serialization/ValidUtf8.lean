import Mathlib.Data.Nat.Bitwise
import Narsil.Ordering.Utf8

/-!
# Well-formed sequences of UTF-8

A sequence holds one scalar value, in the shortest form that has room for its bits. The bytes
of a code point are such a sequence, and there is no other.
-/
namespace Narsil.KeywordSegment

open Narsil.Cursor Narsil.Ordering

/-- A lead byte with the high bits of a scalar value, and continuation bytes with six bits each. -/
inductive IsSequence : List Nat → Prop
  | one {point : Nat} (fits : point < 0x80) : IsSequence [point]
  | two {high low : Nat} (leads : high < 0x20) (continues : low < 0x40) (shortest : 0x80 ≤ high * 0x40 + low) :
      IsSequence [0xc0 + high, 0x80 + low]
  | three {high middle low : Nat} (leads : high < 0x10) (first : middle < 0x40) (second : low < 0x40)
      (shortest : 0x800 ≤ high * 0x1000 + middle * 0x40 + low)
      (scalar : IsScalar (high * 0x1000 + middle * 0x40 + low)) : IsSequence [0xe0 + high, 0x80 + middle, 0x80 + low]
  | four {high upper lower low : Nat} (leads : high < 0x8) (first : upper < 0x40) (second : lower < 0x40)
      (third : low < 0x40) (shortest : 0x10000 ≤ high * 0x40000 + upper * 0x1000 + lower * 0x40 + low)
      (scalar : IsScalar (high * 0x40000 + upper * 0x1000 + lower * 0x40 + low)) :
      IsSequence [0xf0 + high, 0x80 + upper, 0x80 + lower, 0x80 + low]

theorem byteNumbers_injective {left right : Cursor.Bytes} (same : byteNumbers left = byteNumbers right) : left = right :=
  List.map_injective_iff.mpr (fun _ _ => UInt8.toNat_inj.mp) same

theorem isSequence_utf8Bytes {point : Nat} (scalar : IsScalar point) :
    IsSequence (byteNumbers (utf8Bytes point)) := by
  rw [utf8Bytes_numbers scalar]
  have bound := scalar.1
  split
  next one => exact .one one
  next =>
    split
    next two => exact .two (by omega) (by omega) (by omega)
    next =>
      split
      next three =>
        have joined : point / 4096 * 0x1000 + point / 64 % 64 * 0x40 + point % 64 = point := by omega
        exact .three (by omega) (by omega) (by omega) (by omega) (joined.symm ▸ scalar)
      next =>
        have joined : point / 262144 * 0x40000 + point / 4096 % 64 * 0x1000 + point / 64 % 64 * 0x40 + point % 64 =
          point := by omega
        exact .four (by omega) (by omega) (by omega) (by omega) (by omega) (joined.symm ▸ scalar)

theorem IsSequence.exists_point {numbers : List Nat} (sequence : IsSequence numbers) :
    ∃ point, IsScalar point ∧ numbers = byteNumbers (utf8Bytes point) := by
  cases sequence with
  | @one point fits =>
    have scalar : IsScalar point := by unfold IsScalar IsSurrogate; omega
    refine ⟨point, scalar, ?_⟩
    rw [utf8Bytes_numbers scalar, if_pos fits]
  | @two high low leads continues shortest =>
    have scalar : IsScalar (high * 0x40 + low) := by unfold IsScalar IsSurrogate; omega
    refine ⟨_, scalar, ?_⟩
    rw [utf8Bytes_numbers scalar, if_neg (by omega), if_pos (by omega)]
    exact two_eq (by omega) (by omega)
  | @three high middle low leads first second shortest scalar =>
    refine ⟨_, scalar, ?_⟩
    rw [utf8Bytes_numbers scalar, if_neg (by omega), if_neg (by omega), if_pos (by omega)]
    exact congrArg₂ _ (by omega) (two_eq (by omega) (by omega))
  | @four high upper lower low leads first second third shortest scalar =>
    refine ⟨_, scalar, ?_⟩
    rw [utf8Bytes_numbers scalar, if_neg (by omega), if_neg (by omega), if_neg (by omega)]
    exact congrArg₂ _ (by omega) (congrArg₂ _ (by omega) (two_eq (by omega) (by omega)))

theorem isSequence_iff {bytes : Cursor.Bytes} :
    IsSequence (byteNumbers bytes) ↔ ∃ point, IsScalar point ∧ bytes = utf8Bytes point := by
  constructor
  · intro sequence
    obtain ⟨point, scalar, same⟩ := sequence.exists_point
    exact ⟨point, scalar, byteNumbers_injective same⟩
  · rintro ⟨point, scalar, rfl⟩
    exact isSequence_utf8Bytes scalar

end Narsil.KeywordSegment

/-!
## Validating the bytes of a segment

One sequence after the other is measured, from the first byte on, until one has no length or
the bytes are at their end.
-/
namespace Narsil.KeywordSegment

open Narsil.Cursor Narsil.Ordering

def CONTINUATION_MASK : UInt8 := 0xc0
def CONTINUATION_BYTE : UInt8 := 0x80

/-- `(byte & CONTINUATION_MASK) === CONTINUATION_BYTE`; of a byte that is not there the language
keeps no bits. -/
def isContinuation (byte : Option UInt8) : Bool := byte.getD 0 &&& CONTINUATION_MASK = CONTINUATION_BYTE

def continues (bytes : Cursor.Bytes) (start count : Nat) : Bool :=
  if bytes.length < start + count then false
  else (List.range count).all fun k => isContinuation bytes[start + (k + 1)]?

def sequenceLengthAt (bytes : Cursor.Bytes) (start : Nat) : Nat :=
  match bytes[start]? with
  | none => 0
  | some lead =>
    if lead < 0x80 then 1
    else if 0xc2 ≤ lead ∧ lead ≤ 0xdf then if continues bytes start 1 then 2 else 0
    else if 0xe0 ≤ lead ∧ lead ≤ 0xef then
      if !continues bytes start 2 then 0
      else
        let second := bytes[start + 1]?.getD 0
        if lead = 0xe0 ∧ second < 0xa0 then 0
        else if lead = 0xed ∧ 0x9f < second then 0
        else 3
    else if 0xf0 ≤ lead ∧ lead ≤ 0xf4 then
      if !continues bytes start 3 then 0
      else
        let second := bytes[start + 1]?.getD 0
        if lead = 0xf0 ∧ second < 0x90 then 0
        else if lead = 0xf4 ∧ 0x8f < second then 0
        else 4
    else 0

/-- The loop of `isValidUtf8`, from where it stands. -/
def isValidFrom (bytes : Cursor.Bytes) (start : Nat) : Bool :=
  if start < bytes.length then
    if _ : sequenceLengthAt bytes start = 0 then false
    else isValidFrom bytes (start + sequenceLengthAt bytes start)
  else true
termination_by bytes.length - start

/-- A sequence that counts has a length, so the loop comes to the end of the bytes. -/
def isValidUtf8 (bytes : Cursor.Bytes) : Bool := isValidFrom bytes 0

theorem isContinuation_some (byte : UInt8) :
    isContinuation (some byte) = true ↔ 0x80 ≤ byte.toNat ∧ byte.toNat < 0xc0 := by
  -- The mask leaves the two highest bits.
  have masked : byte.toNat &&& 3 <<< 6 = (byte.toNat >>> 6 &&& 3) <<< 6 := by
    apply Nat.eq_of_testBit_eq
    intro place
    simp only [Nat.testBit_and, Nat.testBit_shiftLeft, Nat.testBit_shiftRight]
    by_cases high : 6 ≤ place
    · simp [high, Nat.add_sub_cancel' high]
    · simp [high]
  rw [Nat.shiftLeft_eq, Nat.shiftLeft_eq, Nat.and_two_pow_sub_one_eq_mod _ 2, Nat.shiftRight_eq_div_pow] at masked
  have number : (byte &&& CONTINUATION_MASK).toNat = byte.toNat / 2 ^ 6 % 2 ^ 2 * 2 ^ 6 := by
    rw [UInt8.toNat_and]
    exact masked
  have target : CONTINUATION_BYTE.toNat = 0x80 := rfl
  have bound := byte.toNat_lt
  rw [isContinuation, Option.getD_some, decide_eq_true_eq, ← UInt8.toNat_inj, number, target]
  omega

theorem continues_iff {lead : UInt8} {bytes : Cursor.Bytes} {count : Nat} : continues (lead :: bytes) 0 count = true ↔
    count ≤ bytes.length ∧ ∀ byte ∈ bytes.take count, 0x80 ≤ byte.toNat ∧ byte.toNat < 0xc0 := by
  have all_iff : ((List.range count).all fun k => isContinuation (lead :: bytes)[0 + (k + 1)]?) = true ↔
      ∀ k < count, isContinuation bytes[k]? = true := by
    simp only [List.all_eq_true, List.mem_range, Nat.zero_add, List.getElem?_cons_succ]
  rw [continues]
  constructor
  · intro found
    split at found
    · nomatch found
    · rw [all_iff] at found
      have enough : count ≤ bytes.length := by
        by_contra short
        have past := found bytes.length (by omega)
        rw [List.getElem?_eq_none le_rfl] at past
        exact absurd past (by decide)
      refine ⟨enough, ?_⟩
      intro byte isIn
      obtain ⟨k, inside, rfl⟩ := List.mem_take_iff_getElem.mp isIn
      have here := found k (by omega)
      rw [List.getElem?_eq_getElem (by omega)] at here
      exact (isContinuation_some _).mp here
  · rintro ⟨enough, tail⟩
    rw [if_neg (by rw [List.length_cons]; omega), all_iff]
    intro k inside
    rw [List.getElem?_eq_getElem (by omega)]
    exact (isContinuation_some _).mpr (tail _ (List.mem_take_iff_getElem.mpr ⟨k, by omega, rfl⟩))

theorem sequenceLengthAt_drop (bytes : Cursor.Bytes) (start : Nat) :
    sequenceLengthAt bytes start = sequenceLengthAt (bytes.drop start) 0 := by
  have same (count : Nat) : start < bytes.length →
      continues bytes start count = continues (bytes.drop start) 0 count := by
    intro inside
    simp only [continues, List.length_drop, List.getElem?_drop, Nat.zero_add]
    by_cases short : bytes.length < start + count
    · rw [if_pos short, if_pos (by omega)]
    · rw [if_neg short, if_neg (by omega)]
  by_cases inside : start < bytes.length
  · simp only [sequenceLengthAt, same _ inside, List.getElem?_drop, Nat.add_zero, Nat.zero_add]
  · have past : bytes[start]? = none := List.getElem?_eq_none (by omega)
    simp only [sequenceLengthAt, List.getElem?_drop, Nat.add_zero, past]

theorem sequenceLengthAt_cons (lead : UInt8) (bytes : Cursor.Bytes) : sequenceLengthAt (lead :: bytes) 0 =
    if lead.toNat < 0x80 then 1
    else if 0xc2 ≤ lead.toNat ∧ lead.toNat ≤ 0xdf then if continues (lead :: bytes) 0 1 then 2 else 0
    else if 0xe0 ≤ lead.toNat ∧ lead.toNat ≤ 0xef then
      if !continues (lead :: bytes) 0 2 then 0
      else if lead.toNat = 0xe0 ∧ (bytes[0]?.getD 0).toNat < 0xa0 then 0
      else if lead.toNat = 0xed ∧ 0x9f < (bytes[0]?.getD 0).toNat then 0
      else 3
    else if 0xf0 ≤ lead.toNat ∧ lead.toNat ≤ 0xf4 then
      if !continues (lead :: bytes) 0 3 then 0
      else if lead.toNat = 0xf0 ∧ (bytes[0]?.getD 0).toNat < 0x90 then 0
      else if lead.toNat = 0xf4 ∧ 0x8f < (bytes[0]?.getD 0).toNat then 0
      else 4
    else 0 := by
  simp only [sequenceLengthAt, List.getElem?_cons_zero, Nat.zero_add, List.getElem?_cons_succ, UInt8.lt_iff_toNat_lt,
    UInt8.le_iff_toNat_le, ← UInt8.toNat_inj, UInt8.reduceToNat]

theorem sequence_of_length {bytes : Cursor.Bytes} (measured : sequenceLengthAt bytes 0 ≠ 0) :
    ∃ sequence rest, bytes = sequence ++ rest ∧ sequenceLengthAt bytes 0 = sequence.length ∧
      IsSequence (byteNumbers sequence) := by
  cases bytes with
  | nil => exact absurd rfl measured
  | cons lead bytes =>
    rw [sequenceLengthAt_cons] at measured ⊢
    by_cases one : lead.toNat < 0x80
    · rw [if_pos one]
      exact ⟨[lead], bytes, rfl, rfl, .one one⟩
    rw [if_neg one] at measured ⊢
    by_cases two : 0xc2 ≤ lead.toNat ∧ lead.toNat ≤ 0xdf
    · rw [if_pos two] at measured ⊢
      by_cases tail : continues (lead :: bytes) 0 1 = true
      · rw [if_pos tail]
        obtain ⟨enough, bounds⟩ := continues_iff.mp tail
        obtain ⟨second, bytes, rfl⟩ := List.exists_cons_of_length_pos enough
        have second_bounds := bounds second (by simp)
        have split : byteNumbers [lead, second] =
            [0xc0 + (lead.toNat - 0xc0), 0x80 + (second.toNat - 0x80)] := two_eq (by omega) (by omega)
        refine ⟨[lead, second], bytes, rfl, rfl, ?_⟩
        rw [split]
        exact .two (by omega) (by omega) (by omega)
      · exact absurd (if_neg tail) measured
    rw [if_neg two] at measured ⊢
    by_cases three : 0xe0 ≤ lead.toNat ∧ lead.toNat ≤ 0xef
    · rw [if_pos three] at measured ⊢
      by_cases tail : continues (lead :: bytes) 0 2 = true
      · rw [if_neg (by simp [tail])] at measured ⊢
        obtain ⟨enough, bounds⟩ := continues_iff.mp tail
        obtain ⟨second, bytes, rfl⟩ := List.exists_cons_of_length_pos (Nat.lt_of_lt_of_le (by decide) enough)
        obtain ⟨third, bytes, rfl⟩ := List.exists_cons_of_length_pos (Nat.le_of_succ_le_succ enough)
        have second_bounds := bounds second (by simp)
        have third_bounds := bounds third (by simp)
        simp only [List.getElem?_cons_zero, Option.getD_some] at measured ⊢
        by_cases long : lead.toNat = 0xe0 ∧ second.toNat < 0xa0
        · exact absurd (if_pos long) measured
        by_cases surrogate : lead.toNat = 0xed ∧ 0x9f < second.toNat
        · rw [if_neg long, if_pos surrogate] at measured
          exact absurd rfl measured
        rw [if_neg long, if_neg surrogate]
        have split : byteNumbers [lead, second, third] =
            [0xe0 + (lead.toNat - 0xe0), 0x80 + (second.toNat - 0x80), 0x80 + (third.toNat - 0x80)] :=
          congrArg₂ _ (by omega) (two_eq (by omega) (by omega))
        refine ⟨[lead, second, third], bytes, rfl, rfl, ?_⟩
        rw [split]
        exact .three (by omega) (by omega) (by omega) (by omega) (by unfold IsScalar IsSurrogate; omega)
      · exact absurd (if_pos (by simp [tail])) measured
    rw [if_neg three] at measured ⊢
    by_cases four : 0xf0 ≤ lead.toNat ∧ lead.toNat ≤ 0xf4
    · rw [if_pos four] at measured ⊢
      by_cases tail : continues (lead :: bytes) 0 3 = true
      · rw [if_neg (by simp [tail])] at measured ⊢
        obtain ⟨enough, bounds⟩ := continues_iff.mp tail
        obtain ⟨second, bytes, rfl⟩ := List.exists_cons_of_length_pos (Nat.lt_of_lt_of_le (by decide) enough)
        have enough := Nat.le_of_succ_le_succ enough
        obtain ⟨third, bytes, rfl⟩ := List.exists_cons_of_length_pos (Nat.lt_of_lt_of_le (by decide) enough)
        obtain ⟨fourth, bytes, rfl⟩ := List.exists_cons_of_length_pos (Nat.le_of_succ_le_succ enough)
        have second_bounds := bounds second (by simp)
        have third_bounds := bounds third (by simp)
        have fourth_bounds := bounds fourth (by simp)
        simp only [List.getElem?_cons_zero, Option.getD_some] at measured ⊢
        by_cases long : lead.toNat = 0xf0 ∧ second.toNat < 0x90
        · exact absurd (if_pos long) measured
        by_cases beyond : lead.toNat = 0xf4 ∧ 0x8f < second.toNat
        · rw [if_neg long, if_pos beyond] at measured
          exact absurd rfl measured
        rw [if_neg long, if_neg beyond]
        have split : byteNumbers [lead, second, third, fourth] = [0xf0 + (lead.toNat - 0xf0),
            0x80 + (second.toNat - 0x80), 0x80 + (third.toNat - 0x80), 0x80 + (fourth.toNat - 0x80)] :=
          congrArg₂ _ (by omega) (congrArg₂ _ (by omega) (two_eq (by omega) (by omega)))
        refine ⟨[lead, second, third, fourth], bytes, rfl, rfl, ?_⟩
        rw [split]
        exact .four (by omega) (by omega) (by omega) (by omega) (by omega) (by unfold IsScalar IsSurrogate; omega)
      · exact absurd (if_pos (by simp [tail])) measured
    · exact absurd (if_neg four) measured

theorem length_of_sequence {sequence : Cursor.Bytes} (wellFormed : IsSequence (byteNumbers sequence)) (rest : Cursor.Bytes) :
    sequenceLengthAt (sequence ++ rest) 0 = sequence.length := by
  have continued {lead : UInt8} {tail : Cursor.Bytes} {count : Nat} (length : tail.length = count)
      (bounds : ∀ byte ∈ tail, 0x80 ≤ byte.toNat ∧ byte.toNat < 0xc0) :
      continues (lead :: (tail ++ rest)) 0 count = true := by
    subst length
    rw [continues_iff, List.take_left]
    exact ⟨by rw [List.length_append]; omega, bounds⟩
  generalize same : byteNumbers sequence = numbers at wellFormed
  rw [byteNumbers] at same
  cases wellFormed with
  | one fits =>
    obtain ⟨lead, rfl, rfl⟩ := List.map_eq_singleton_iff.mp same
    exact (sequenceLengthAt_cons lead rest).trans (if_pos fits)
  | two leads continues shortest =>
    obtain ⟨lead, tail, rfl, lead_eq, tail_eq⟩ := List.map_eq_cons_iff.mp same
    obtain ⟨second, rfl, second_eq⟩ := List.map_eq_singleton_iff.mp tail_eq
    have found := @continued lead [second] 1 rfl (by simp; omega)
    rw [List.cons_append, sequenceLengthAt_cons, if_neg (by omega), if_pos (by omega), found]
    rfl
  | three leads first second shortest scalar =>
    obtain ⟨lead, tail, rfl, lead_eq, tail_eq⟩ := List.map_eq_cons_iff.mp same
    obtain ⟨middle, tail, rfl, middle_eq, tail_eq⟩ := List.map_eq_cons_iff.mp tail_eq
    obtain ⟨last, rfl, last_eq⟩ := List.map_eq_singleton_iff.mp tail_eq
    unfold IsScalar IsSurrogate at scalar
    have found := @continued lead [middle, last] 2 rfl (by simp; omega)
    rw [List.cons_append, sequenceLengthAt_cons, if_neg (by omega), if_neg (by omega), if_pos (by omega),
      found, if_neg (by decide)]
    simp only [List.cons_append, List.getElem?_cons_zero, Option.getD_some]
    rw [if_neg (by omega), if_neg (by omega)]
    rfl
  | four leads first second third shortest scalar =>
    obtain ⟨lead, tail, rfl, lead_eq, tail_eq⟩ := List.map_eq_cons_iff.mp same
    obtain ⟨upper, tail, rfl, upper_eq, tail_eq⟩ := List.map_eq_cons_iff.mp tail_eq
    obtain ⟨lower, tail, rfl, lower_eq, tail_eq⟩ := List.map_eq_cons_iff.mp tail_eq
    obtain ⟨last, rfl, last_eq⟩ := List.map_eq_singleton_iff.mp tail_eq
    unfold IsScalar IsSurrogate at scalar
    have found := @continued lead [upper, lower, last] 3 rfl (by simp; omega)
    rw [List.cons_append, sequenceLengthAt_cons, if_neg (by omega), if_neg (by omega), if_neg (by omega),
      if_pos (by omega), found, if_neg (by decide)]
    simp only [List.cons_append, List.getElem?_cons_zero, Option.getD_some]
    rw [if_neg (by omega), if_neg (by omega)]
    rfl

theorem isValidFrom_iff (bytes : Cursor.Bytes) (start : Nat) (inside : start ≤ bytes.length) :
    isValidFrom bytes start = true ↔ ∃ sequences : List Cursor.Bytes,
      (∀ sequence ∈ sequences, IsSequence (byteNumbers sequence)) ∧ bytes.drop start = sequences.flatten := by
  fun_induction isValidFrom bytes start with
  | case1 start more none =>
    -- The first sequence of a cut would have been measured.
    constructor
    · intro found
      nomatch found
    rintro ⟨sequences, wellFormed, cut⟩
    cases sequences with
    | nil =>
      have length := congrArg List.length cut
      rw [List.length_drop, List.flatten_nil, List.length_nil] at length
      omega
    | cons sequence sequences =>
      have first := wellFormed sequence List.mem_cons_self
      rw [sequenceLengthAt_drop, cut, List.flatten_cons, length_of_sequence first, List.length_eq_zero_iff] at none
      subst none
      nomatch first
  | case2 start more some ih =>
    rw [sequenceLengthAt_drop] at some ih
    obtain ⟨sequence, rest, cut, measured, first⟩ := sequence_of_length some
    have fits : start + sequence.length ≤ bytes.length := by
      have length := congrArg List.length cut
      rw [List.length_drop, List.length_append] at length
      omega
    have later : bytes.drop (start + sequence.length) = rest := by
      rw [← List.drop_drop, cut, List.drop_left]
    rw [measured, later] at ih
    rw [sequenceLengthAt_drop, measured, ih fits, cut]
    constructor
    · rintro ⟨sequences, wellFormed, rfl⟩
      exact ⟨sequence :: sequences, List.forall_mem_cons.mpr ⟨first, wellFormed⟩, rfl⟩
    · rintro ⟨sequences, wellFormed, same⟩
      cases sequences with
      | nil =>
        have empty := (List.append_eq_nil_iff.mp same).1
        subst empty
        nomatch first
      | cons other sequences =>
        have parts := List.forall_mem_cons.mp wellFormed
        -- Two cuts of the same bytes begin with a sequence of one length.
        have length := length_of_sequence parts.1 sequences.flatten
        rw [← List.flatten_cons, ← same, length_of_sequence first] at length
        exact ⟨sequences, parts.2, (List.append_inj same length).2⟩
  | case3 start finished =>
    have ended : bytes.drop start = [] := List.drop_eq_nil_of_le (by omega)
    exact ⟨fun _ => ⟨[], by simp, ended⟩, fun _ => rfl⟩

theorem exists_points {sequences : List Cursor.Bytes}
    (wellFormed : ∀ sequence ∈ sequences, IsSequence (byteNumbers sequence)) :
    ∃ points : List Nat, (∀ point ∈ points, IsScalar point) ∧ sequences = points.map utf8Bytes := by
  induction sequences with
  | nil => exact ⟨[], by simp, rfl⟩
  | cons sequence sequences ih =>
    obtain ⟨first, later⟩ := List.forall_mem_cons.mp wellFormed
    obtain ⟨point, scalar, rfl⟩ := isSequence_iff.mp first
    obtain ⟨points, scalars, rfl⟩ := ih later
    exact ⟨point :: points, List.forall_mem_cons.mpr ⟨scalar, scalars⟩, rfl⟩

/-- The bytes that are valid are well-formed sequences in a row, and so the encodings of the lists
of scalar values. -/
theorem isValidUtf8_iff (bytes : Cursor.Bytes) :
    (isValidUtf8 bytes = true ↔ ∃ sequences : List Cursor.Bytes,
      (∀ sequence ∈ sequences, IsSequence (byteNumbers sequence)) ∧ bytes = sequences.flatten) ∧
    (isValidUtf8 bytes = true ↔ ∃ points : List Nat,
      (∀ point ∈ points, IsScalar point) ∧ bytes = points.flatMap utf8Bytes) := by
  have cuts := isValidFrom_iff bytes 0 (Nat.zero_le _)
  rw [List.drop_zero] at cuts
  refine ⟨cuts, cuts.trans ?_⟩
  constructor
  · rintro ⟨sequences, wellFormed, rfl⟩
    obtain ⟨points, scalars, rfl⟩ := exists_points wellFormed
    exact ⟨points, scalars, List.flatMap_def.symm⟩
  · rintro ⟨points, scalars, rfl⟩
    refine ⟨points.map utf8Bytes, ?_, List.flatMap_def⟩
    intro sequence isIn
    obtain ⟨point, listed, rfl⟩ := List.mem_map.mp isIn
    exact isSequence_utf8Bytes (scalars point listed)

end Narsil.KeywordSegment
