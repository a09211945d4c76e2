import Narsil.Checksums.ReflectedCrc
import Narsil.Serialization.Crc32

/-!
# Combining checksums

The checksum of two parts is made of theirs and the length of the second. What a remainder
becomes over zero bytes is a matrix of 32 rows; those for the powers of two are squared once
and kept. The signed results of the bit operators are told here by their bits.
-/
namespace Narsil.Serialization

open ReflectedCrc

def CRC_BITS : Nat := 32

/-- The images of the single bits. -/
abbrev Operator : Type := List UInt32

def timesVectorFrom (operator : Operator) (rest : UInt32) (row : Nat) (sum : UInt32) : UInt32 :=
  if _stops : rest = 0 then sum
  else timesVectorFrom operator (rest >>> 1) (row + 1) (if rest &&& 1 = 1 then sum ^^^ operator.getD row 0 else sum)
termination_by rest.toNat
decreasing_by
  have positive : rest.toNat ≠ 0 := fun zero => _stops (UInt32.toNat_inj.mp zero)
  rw [UInt32.toNat_shiftRight, show (1 : UInt32).toNat % 32 = 1 from rfl, Nat.shiftRight_eq_div_pow]
  omega

def timesVector (operator : Operator) (vector : UInt32) : UInt32 := timesVectorFrom operator vector 0 0

def squared (operator : Operator) : Operator :=
  (List.range CRC_BITS).map fun row => timesVector operator (operator.getD row 0)

def oneZeroBit : Operator :=
  (List.range CRC_BITS).map fun row => if row = 0 then ieeePolynomial else 1 <<< (row - 1).toUInt32

def firstOperator : Operator := (List.range 3).foldl (fun operator _ => squared operator) oneZeroBit

def pushSquares : Nat → List Operator → List Operator
  | 0, operators => operators
  | missing + 1, operators => pushSquares missing (operators ++ [squared (operators.getLastD [])])

/-- `zeroByteOperators`, once it reaches the power. -/
def growOperators (operators : List Operator) (power : Nat) : List Operator :=
  let started := if operators.length = 0 then [firstOperator] else operators
  pushSquares (power + 1 - started.length) started

def operatorForZeroBytesPower (operators : List Operator) (power : Nat) : Operator × List Operator :=
  let grown := growOperators operators power
  (grown.getD power [], grown)

def combineFrom (operators : List Operator) (crc : UInt32) (rest power : Nat) : UInt32 × List Operator :=
  if rest > 0 then
    if rest % 2 = 1 then
      let (operator, operators) := operatorForZeroBytesPower operators power
      combineFrom operators (timesVector operator crc) (rest / 2) (power + 1)
    else combineFrom operators crc (rest / 2) (power + 1)
  else (crc, operators)
termination_by rest

/-- The checksum, and the operators the next call finds. -/
def crc32Combine (operators : List Operator) (first second secondByteLength : Nat) : Nat × List Operator :=
  let (crc, operators) := combineFrom operators (UInt32.ofNat first) secondByteLength 0
  ((crc ^^^ UInt32.ofNat second).toNat, operators)

/-- The rows are the images of the single bits. -/
structure Represents (operator : Operator) (f : BitVec 32 → BitVec 32) : Prop where
  linear : IsLinear f
  rows : ∀ row < CRC_BITS, (operator.getD row 0).toBitVec = f (1#32 <<< row)

variable {operator : Operator} {f : BitVec 32 → BitVec 32}

theorem low_bit (value : UInt32) : value &&& 1 = 1 ↔ value.toBitVec.getLsbD 0 = true := by
  have low : (value &&& 1).toBitVec = BitVec.setWidth 32 (BitVec.ofBool (value.toBitVec.getLsbD 0)) := by
    rw [UInt32.toBitVec_and]
    exact BitVec.and_one_eq_setWidth_ofBool_getLsbD
  rw [← UInt32.toBitVec_inj, low]
  cases value.toBitVec.getLsbD 0 <;> decide

theorem shiftRight_one (value : UInt32) : (value >>> 1).toBitVec = value.toBitVec >>> 1 := UInt32.toBitVec_shiftRight ..

/-- The rows whose bits are set make the image of the vector. -/
theorem timesVectorFrom_spec (represents : Represents operator f) (rest : UInt32) (row : Nat) (sum : UInt32)
    (fits : rest.toNat < 2 ^ (CRC_BITS - row)) :
    (timesVectorFrom operator rest row sum).toBitVec = sum.toBitVec ^^^ f (rest.toBitVec <<< row) := by
  induction rest, row, sum using timesVectorFrom.induct operator with
  | case1 row sum =>
    rw [timesVectorFrom, dif_pos rfl]
    have nothing : (0 : UInt32).toBitVec <<< row = 0#32 := BitVec.zero_shiftLeft row
    rw [nothing, represents.linear.zero, BitVec.xor_zero]
  | case2 rest row sum more ih =>
    have positive : rest.toNat ≠ 0 := fun zero => more (UInt32.toNat_inj.mp zero)
    have inside : row < CRC_BITS := by
      by_contra beyond
      rw [Nat.sub_eq_zero_of_le (Nat.le_of_not_lt beyond)] at fits
      omega
    have half : (rest >>> 1).toNat = rest.toNat / 2 := by
      rw [UInt32.toNat_shiftRight, show (1 : UInt32).toNat % 32 = 1 from rfl, Nat.shiftRight_eq_div_pow]
    have half_fits : (rest >>> 1).toNat < 2 ^ (CRC_BITS - (row + 1)) := by
      rw [show CRC_BITS - row = CRC_BITS - (row + 1) + 1 by omega, Nat.pow_succ] at fits
      omega
    rw [dite_eq_ite] at ih
    rw [timesVectorFrom, dif_neg more, ih half_fits, represents.linear.shiftLeft rest.toBitVec row,
      shiftRight_one]
    by_cases low : rest &&& 1 = 1
    · rw [if_pos low, if_pos ((low_bit rest).mp low), UInt32.toBitVec_xor, represents.rows row inside, BitVec.xor_assoc]
    · rw [if_neg low, if_neg fun bit => low ((low_bit rest).mpr bit), BitVec.zero_xor]

theorem timesVector_spec (represents : Represents operator f) (vector : UInt32) :
    (timesVector operator vector).toBitVec = f vector.toBitVec := by
  rw [timesVector, timesVectorFrom_spec represents _ _ _ vector.toNat_lt, BitVec.shiftLeft_zero]
  exact BitVec.zero_xor

theorem squared_represents (represents : Represents operator f) : Represents (squared operator) (f ∘ f) where
  linear := represents.linear.comp represents.linear
  rows row inside := by
    rw [squared, List.getD, List.getElem?_map, List.getElem?_range inside]
    simp only [Option.map_some, Option.getD_some]
    rw [timesVector_spec represents, represents.rows row inside]
    rfl

theorem oneZeroBit_represents : Represents oneZeroBit (bitStep ieeePolynomial.toBitVec) where
  linear := bitStep_linear _
  rows := by decide

theorem firstOperator_represents : Represents firstOperator (zeroBytes ieeePolynomial.toBitVec (2 ^ 0)) :=
  squared_represents (squared_represents (squared_represents oneZeroBit_represents))

/-- The operator at each place is that of as many zero bytes as its power of two. -/
def Powers (operators : List Operator) : Prop := ∀ power operator, operators[power]? = some operator →
  Represents operator (zeroBytes ieeePolynomial.toBitVec (2 ^ power))

theorem squared_power {power : Nat} (represents : Represents operator (zeroBytes ieeePolynomial.toBitVec (2 ^ power))) :
    Represents (squared operator) (zeroBytes ieeePolynomial.toBitVec (2 ^ (power + 1))) := by
  have twice := squared_represents represents
  have same : zeroBytes ieeePolynomial.toBitVec (2 ^ power) ∘ zeroBytes ieeePolynomial.toBitVec (2 ^ power) =
      zeroBytes ieeePolynomial.toBitVec (2 ^ (power + 1)) := by
    funext crc
    rw [Nat.pow_succ, Nat.mul_two, zeroBytes_add]
    rfl
  exact same ▸ twice

theorem pushSquares_spec (missing : Nat) {operators : List Operator} (some_operators : operators ≠ [])
    (powers : Powers operators) :
    Powers (pushSquares missing operators) ∧
      (pushSquares missing operators).length = operators.length + missing := by
  induction missing generalizing operators with
  | zero => exact ⟨powers, rfl⟩
  | succ missing ih =>
    have length_pos : 0 < operators.length := List.length_pos_iff.mpr some_operators
    have last : operators[operators.length - 1]? = some (operators.getLastD []) := by
      rw [← List.getLast?_eq_getElem?, List.getLastD_eq_getLast?]
      cases isLast : operators.getLast? with
      | none => exact absurd (List.getLast?_eq_none_iff.mp isLast) some_operators
      | some last => rfl
    have grown : Powers (operators ++ [squared (operators.getLastD [])]) := by
      intro power operator here
      rcases Nat.lt_trichotomy power operators.length with before | same | after
      · rw [List.getElem?_append_left before] at here
        exact powers power operator here
      · subst same
        rw [List.getElem?_concat_length] at here
        cases here
        have represents := squared_power (powers _ _ last)
        rwa [Nat.sub_add_cancel length_pos] at represents
      · rw [List.getElem?_eq_none (by rw [List.length_append, List.length_singleton]; omega)] at here
        cases here
    obtain ⟨all_powers, length⟩ := ih (by simp) grown
    refine ⟨all_powers, ?_⟩
    rw [pushSquares, length, List.length_append, List.length_singleton]
    omega

theorem operatorForZeroBytesPower_spec {operators : List Operator} (powers : Powers operators) (power : Nat) :
    Represents (operatorForZeroBytesPower operators power).1 (zeroBytes ieeePolynomial.toBitVec (2 ^ power)) ∧
      Powers (operatorForZeroBytesPower operators power).2 := by
  let started := if operators.length = 0 then [firstOperator] else operators
  have started_some : started ≠ [] := by
    simp only [started]
    split
    · exact List.cons_ne_nil _ _
    next some_operators => exact fun empty => some_operators (List.length_eq_zero_iff.mpr empty)
  have started_powers : Powers started := by
    simp only [started]
    split
    · intro power operator here
      cases power with
      | zero => cases here; exact firstOperator_represents
      | succ power => cases here
    · exact powers
  obtain ⟨grown, length⟩ := pushSquares_spec (power + 1 - started.length) started_some started_powers
  have inside : power < (growOperators operators power).length := by
    rw [growOperators, length]
    omega
  refine ⟨?_, grown⟩
  have here := List.getElem?_eq_getElem inside
  rw [operatorForZeroBytesPower, List.getD, here]
  exact grown power _ here

theorem combineFrom_spec (operators : List Operator) (crc : UInt32) (rest power : Nat) (powers : Powers operators) :
    (combineFrom operators crc rest power).1.toBitVec =
        zeroBytes ieeePolynomial.toBitVec (rest * 2 ^ power) crc.toBitVec ∧
      Powers (combineFrom operators crc rest power).2 := by
  induction rest using Nat.strongRecOn generalizing operators crc power with
  | ind rest ih =>
    rw [combineFrom]
    by_cases more : rest > 0
    · have half : rest / 2 < rest := by omega
      rw [if_pos more]
      by_cases odd : rest % 2 = 1
      · obtain ⟨represents, grown⟩ := operatorForZeroBytesPower_spec powers power
        obtain ⟨later, kept⟩ := ih (rest / 2) half _ (timesVector (operatorForZeroBytesPower operators power).1 crc)
          (power + 1) grown
        rw [if_pos odd]
        refine ⟨?_, kept⟩
        have bytes : rest * 2 ^ power = rest / 2 * 2 ^ (power + 1) + 2 ^ power := by
          conv => lhs; rw [← Nat.div_add_mod rest 2, odd]
          rw [Nat.pow_succ, Nat.add_mul, Nat.one_mul, Nat.mul_comm 2, Nat.mul_assoc, Nat.mul_comm 2]
        rw [later, timesVector_spec represents, ← zeroBytes_add, ← bytes]
      · obtain ⟨later, kept⟩ := ih (rest / 2) half operators crc (power + 1) powers
        rw [if_neg odd]
        refine ⟨?_, kept⟩
        have bytes : rest * 2 ^ power = rest / 2 * 2 ^ (power + 1) := by
          conv => lhs; rw [← Nat.div_add_mod rest 2, show rest % 2 = 0 by omega]
          rw [Nat.add_zero, Nat.pow_succ, Nat.mul_comm 2, Nat.mul_assoc, Nat.mul_comm 2]
        rw [later, ← bytes]
    · obtain rfl : rest = 0 := by omega
      rw [if_neg more, Nat.zero_mul]
      exact ⟨rfl, powers⟩

theorem crcTableEntry_eq (index : UInt32) :
    (crcTableEntry index).toBitVec = (bitStep ieeePolynomial.toBitVec)^[8] index.toBitVec := by
  have step (crc : UInt32) : (if crc &&& 1 = 1 then (crc >>> 1) ^^^ ieeePolynomial else crc >>> 1).toBitVec =
      bitStep ieeePolynomial.toBitVec crc.toBitVec := by
    rw [bitStep]
    by_cases low : crc &&& 1 = 1
    · rw [if_pos low, if_pos ((low_bit crc).mp low), UInt32.toBitVec_xor, shiftRight_one]
    · rw [if_neg low, if_neg fun bit => low ((low_bit crc).mpr bit), shiftRight_one]
  have run (count : Nat) : ((List.range count).foldl
      (fun (crc : UInt32) _ => if crc &&& 1 = 1 then (crc >>> 1) ^^^ ieeePolynomial else crc >>> 1) index).toBitVec =
      (bitStep ieeePolynomial.toBitVec)^[count] index.toBitVec := by
    induction count with
    | zero => rfl
    | succ count ih =>
      rw [List.range_succ, List.foldl_append, List.foldl_cons, List.foldl_nil, step, ih, Function.iterate_succ_apply']
  exact run 8

theorem low_byte (x : BitVec 32) : x = (x &&& 255#32) ^^^ ((x >>> 8) <<< 8) := by
  apply BitVec.eq_of_getLsbD_eq
  intro i inside
  have mask : (255 : Nat).testBit i = decide (i < 8) := Nat.testBit_two_pow_sub_one 8 i
  rw [BitVec.getLsbD_xor, BitVec.getLsbD_and, BitVec.getLsbD_ofNat, mask, BitVec.getLsbD_shiftLeft,
    BitVec.getLsbD_ushiftRight]
  by_cases low : i < 8
  · simp [inside, low]
  · simp [inside, low, Nat.add_sub_cancel' (Nat.le_of_not_lt low)]

theorem high_shifted (x : BitVec 32) : ((x >>> 8) <<< 8) >>> 8 = x >>> 8 := by
  apply BitVec.eq_of_getLsbD_eq
  intro i inside
  rw [BitVec.getLsbD_ushiftRight, BitVec.getLsbD_shiftLeft, BitVec.getLsbD_ushiftRight, BitVec.getLsbD_ushiftRight]
  by_cases beyond : 8 + i < 32
  · simp [beyond]
  · simp [beyond, BitVec.getLsbD_of_ge x (8 + i) (by omega)]

theorem byte_shifted (byte : UInt8) : byte.toUInt32.toBitVec >>> 8 = 0#32 := by
  apply BitVec.eq_of_toNat_eq
  have bound := byte.toNat_lt
  rw [BitVec.toNat_ushiftRight, Nat.shiftRight_eq_div_pow]
  exact Nat.div_eq_of_lt bound

/-- The table has the eight steps of the low byte, and the other bits move down. -/
theorem crc32Step_eq (crc : UInt32) (byte : UInt8) :
    (crc32Step crc byte).toBitVec = byteStep ieeePolynomial.toBitVec crc.toBitVec byte.toUInt32.toBitVec := by
  have shifted : (crc >>> 8).toBitVec = crc.toBitVec >>> 8 := UInt32.toBitVec_shiftRight ..
  have high_clear (x : BitVec 32) : ∀ i < 8, ((x >>> 8) <<< 8).getLsbD i = false := fun i low => by
    rw [BitVec.getLsbD_shiftLeft]
    simp [low]
  rw [byteStep, low_byte (crc.toBitVec ^^^ byte.toUInt32.toBitVec), (bitStep_linear _).iterate 8,
    bitStep_iterate_high _ (high_clear _), high_shifted, BitVec.ushiftRight_xor_distrib, byte_shifted, BitVec.xor_zero,
    BitVec.xor_comm, crc32Step, UInt32.toBitVec_xor, crcTableEntry_eq, shifted]
  rfl

theorem crc32Update_eq (state : UInt32) (data : Bytes) : (crc32Update state data).toBitVec =
    update ieeePolynomial.toBitVec state.toBitVec (data.map fun byte => byte.toUInt32.toBitVec) := by
  induction data generalizing state with
  | nil => rfl
  | cons byte data ih =>
    rw [crc32Update, List.foldl_cons, ← crc32Update, ih, crc32Step_eq]
    rfl

/-- The state that comes in goes through as many zero bytes. -/
theorem crc32Update_xor (state other : UInt32) (data : Bytes) :
    (crc32Update (state ^^^ other) data).toBitVec =
      zeroBytes ieeePolynomial.toBitVec data.length state.toBitVec ^^^ (crc32Update other data).toBitVec := by
  rw [crc32Update_eq, UInt32.toBitVec_xor, update_xor, List.length_map, ← crc32Update_eq]

theorem crc32Update_append (state : UInt32) (first second : Bytes) :
    crc32Update state (first ++ second) = crc32Update (crc32Update state first) second := List.foldl_append

/-- Bytes that differ in a run no longer than the checksum have different checksums. -/
theorem crc32_burst {burst others : Bytes} (front back : Bytes) (same : burst.length = others.length)
    (short : burst.length ≤ 4) (equal : crc32 (front ++ (burst ++ back)) = crc32 (front ++ (others ++ back))) :
    burst = others := by
  have top : ieeePolynomial.toBitVec.getLsbD (32 - 1) = true := by decide
  have isBytes (data : Bytes) : IsBytes (data.map fun byte => byte.toUInt32.toBitVec) := by
    rintro _ here i above
    obtain ⟨byte, -, rfl⟩ := List.mem_map.mp here
    exact Nat.testBit_lt_two_pow (Nat.lt_of_lt_of_le byte.toNat_lt (Nat.pow_le_pow_right (by decide) above))
  rw [crc32, crc32, crc32Final, crc32Final] at equal
  have states := UInt32.toBitVec_inj.mpr ((UInt32.xor_left_inj _).mp (UInt32.toNat_inj.mp equal))
  rw [crc32Update_append, crc32Update_append, crc32Update_append, crc32Update_append, crc32Update_eq,
    crc32Update_eq _ back] at states
  -- What comes behind the run keeps the states apart.
  have behind := update_injective _ top _ states
  rw [crc32Update_eq, crc32Update_eq _ others] at behind
  have run := update_burst _ top (by rw [List.length_map, List.length_map, same]) (isBytes burst) (isBytes others)
    (by rw [List.length_map]; omega) _ behind
  refine List.map_injective_iff.mpr (fun byte other equal => ?_) run
  exact UInt8.toNat_inj.mp (congrArg UInt32.toNat (UInt32.toBitVec_inj.mp equal))

/-- Other bytes stand in one run of at most four. -/
def Damaged (original found : Bytes) : Prop := ∃ front burst others back, original = front ++ (burst ++ back) ∧
  found = front ++ (others ++ back) ∧ burst.length = others.length ∧ burst.length ≤ 4

theorem Damaged.same {original found : Bytes} (damaged : Damaged original found) (equal : crc32 found = crc32 original) :
    found = original := by
  obtain ⟨front, burst, others, back, rfl, rfl, same, short⟩ := damaged
  rw [crc32_burst front back same short equal.symm]

/-- A checksum over chunks, one after the other. -/
def crc32OfChunks (chunks : List Bytes) : Nat := crc32Final (chunks.foldl crc32Update crc32Init)

theorem crc32OfChunks_eq (chunks : List Bytes) : crc32OfChunks chunks = crc32 chunks.flatten := by
  have run (state : UInt32) : chunks.foldl crc32Update state = crc32Update state chunks.flatten := by
    induction chunks generalizing state with
    | nil => rfl
    | cons chunk chunks ih => rw [List.foldl_cons, ih, List.flatten_cons, crc32Update_append]
  rw [crc32OfChunks, run, crc32]

theorem crc32Combine_spec {operators : List Operator} (powers : Powers operators) (first second : Bytes) :
    (crc32Combine operators (crc32 first) (crc32 second) second.length).1 = crc32 (first ++ second) := by
  have given (data : Bytes) : UInt32.ofNat (crc32 data) = crc32Update crc32Init data ^^^ allBits := UInt32.ofNat_toNat
  obtain ⟨combined, -⟩ := combineFrom_spec operators (UInt32.ofNat (crc32 first)) second.length 0 powers
  rw [Nat.pow_zero, Nat.mul_one, given] at combined
  rw [crc32Combine, given, given, crc32, crc32Final]
  refine congrArg UInt32.toNat (UInt32.toBitVec_inj.mp ?_)
  -- The first state differs from the start by the first checksum.
  have state : crc32Update crc32Init first = (crc32Update crc32Init first ^^^ allBits) ^^^ crc32Init := by
    rw [crc32Init, UInt32.xor_assoc, UInt32.xor_self, UInt32.xor_zero]
  have joined := crc32Update_xor (crc32Update crc32Init first ^^^ allBits) crc32Init second
  rw [← state] at joined
  rw [crc32Update_append, UInt32.toBitVec_xor, UInt32.toBitVec_xor, UInt32.toBitVec_xor, joined, combined,
    BitVec.xor_assoc]

/-- The operators that earlier calls leave. -/
def operatorsAfter (operators : List Operator) : List (Nat × Nat × Nat) → List Operator
  | [] => operators
  | (first, second, length) :: later => operatorsAfter (crc32Combine operators first second length).2 later

theorem operatorsAfter_powers (calls : List (Nat × Nat × Nat)) {operators : List Operator} (powers : Powers operators) :
    Powers (operatorsAfter operators calls) := by
  induction calls generalizing operators with
  | nil => exact powers
  | cons call later ih => exact ih (combineFrom_spec operators _ _ 0 powers).2

/-- Whatever was combined before and however the parts are cut into chunks, the checksums of two
parts make that of both. -/
theorem crc32Combine_parts (calls : List (Nat × Nat × Nat)) (first second : List Bytes) :
    (crc32Combine (operatorsAfter [] calls) (crc32OfChunks first) (crc32OfChunks second) second.flatten.length).1 =
        crc32 (first.flatten ++ second.flatten) ∧
      ∀ chunks : List Bytes, crc32OfChunks chunks = crc32 chunks.flatten := by
  have none_kept : Powers [] := fun power operator here => nomatch here
  refine ⟨?_, crc32OfChunks_eq⟩
  rw [crc32OfChunks_eq, crc32OfChunks_eq]
  exact crc32Combine_spec (operatorsAfter_powers calls none_kept) _ _

end Narsil.Serialization
