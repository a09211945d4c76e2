import Mathlib.Data.List.Basic
import Mathlib.Tactic.Ring

/-!
# The MessagePack format

The bytes of a value by the format's tables: a head, the bytes of its body, and the values it
holds. No value begins another, so a value is known by where it starts.
-/
namespace MessagePack

def bigEndian : Nat → Nat → List UInt8
  | 0, _ => []
  | width + 1, value => (value / 256 ^ width).toUInt8 :: bigEndian width value

def ofBigEndian (bytes : List UInt8) : Nat := bytes.foldl (fun value byte => value * 256 + byte.toNat) 0

theorem bigEndian_length (width value : Nat) : (bigEndian width value).length = width := by
  induction width with
  | zero => rfl
  | succ width ih => rw [bigEndian, List.length_cons, ih]

theorem foldl_bigEndian (bytes : List UInt8) (start : Nat) :
    bytes.foldl (fun value byte => value * 256 + byte.toNat) start =
      start * 256 ^ bytes.length + ofBigEndian bytes := by
  induction bytes generalizing start with
  | nil => simp [ofBigEndian]
  | cons byte bytes ih =>
    rw [ofBigEndian, List.foldl_cons, List.foldl_cons, ih, ih, List.length_cons, Nat.pow_succ]
    ring

theorem ofBigEndian_cons (byte : UInt8) (bytes : List UInt8) :
    ofBigEndian (byte :: bytes) = byte.toNat * 256 ^ bytes.length + ofBigEndian bytes := by
  rw [ofBigEndian, List.foldl_cons, foldl_bigEndian, Nat.zero_mul, Nat.zero_add]

theorem ofBigEndian_lt (bytes : List UInt8) : ofBigEndian bytes < 256 ^ bytes.length := by
  induction bytes with
  | nil => exact Nat.one_pos
  | cons byte bytes ih =>
    have bound := byte.toNat_lt
    have scaled : (byte.toNat + 1) * 256 ^ bytes.length ≤ 256 * 256 ^ bytes.length :=
      Nat.mul_le_mul_right _ (by omega)
    rw [ofBigEndian_cons, List.length_cons, Nat.pow_succ]
    rw [Nat.add_mul, Nat.one_mul] at scaled
    omega

theorem ofBigEndian_bigEndian (width value : Nat) : ofBigEndian (bigEndian width value) = value % 256 ^ width := by
  induction width with
  | zero => rw [Nat.pow_zero, Nat.mod_one]; rfl
  | succ width ih =>
    rw [bigEndian, ofBigEndian_cons, ih, bigEndian_length, Nat.pow_succ, Nat.mod_mul, Nat.toUInt8_eq,
      UInt8.toNat_ofNat']
    ring

theorem bigEndian_add (width high value : Nat) : bigEndian width (high * 256 ^ width + value) = bigEndian width value := by
  induction width generalizing high with
  | zero => rfl
  | succ width ih =>
    have positive : 0 < 256 ^ width := Nat.pow_pos (by decide)
    have shifted : high * 256 ^ (width + 1) + value = high * 256 * 256 ^ width + value := by ring
    rw [bigEndian, bigEndian, shifted, ih, Nat.add_comm, Nat.add_mul_div_right _ _ positive, Nat.toUInt8_eq, Nat.toUInt8_eq]
    congr 1
    rw [← UInt8.toNat_inj, UInt8.toNat_ofNat', UInt8.toNat_ofNat']
    omega

theorem bigEndian_ofBigEndian (bytes : List UInt8) : bigEndian bytes.length (ofBigEndian bytes) = bytes := by
  induction bytes with
  | nil => rfl
  | cons byte bytes ih =>
    have bound := byte.toNat_lt
    have below := ofBigEndian_lt bytes
    have positive : 0 < 256 ^ bytes.length := Nat.pow_pos (by decide)
    have lead : ofBigEndian (byte :: bytes) / 256 ^ bytes.length = byte.toNat := by
      rw [ofBigEndian_cons, Nat.add_comm, Nat.add_mul_div_right _ _ positive, Nat.div_eq_of_lt below, Nat.zero_add]
    have others : bigEndian bytes.length (ofBigEndian (byte :: bytes)) = bytes := by
      rw [ofBigEndian_cons, bigEndian_add, ih]
    rw [List.length_cons, bigEndian, lead, others, Nat.toUInt8_eq, UInt8.ofNat_toNat]

/-- Tags with the width of the length behind them. -/
def strForms : List (UInt8 × Nat) := [(0xd9, 1), (0xda, 2), (0xdb, 4)]
def binForms : List (UInt8 × Nat) := [(0xc4, 1), (0xc5, 2), (0xc6, 4)]
def extForms : List (UInt8 × Nat) := [(0xc7, 1), (0xc8, 2), (0xc9, 4)]
def arrayForms : List (UInt8 × Nat) := [(0xdc, 2), (0xdd, 4)]
def mapForms : List (UInt8 × Nat) := [(0xde, 2), (0xdf, 4)]

/-- Tags with the number of bytes of their value: floats, unsigned and signed integers. -/
def numberForms : List (UInt8 × Nat) :=
  [(0xca, 4), (0xcb, 8), (0xcc, 1), (0xcd, 2), (0xce, 4), (0xcf, 8), (0xd0, 1), (0xd1, 2), (0xd2, 4), (0xd3, 8)]

/-- Tags with the number of bytes behind the type. -/
def fixextForms : List (UInt8 × Nat) := [(0xd4, 1), (0xd5, 2), (0xd6, 4), (0xd7, 8), (0xd8, 16)]

/-- nil, false and true. -/
def constants : List UInt8 := [0xc0, 0xc2, 0xc3]

inductive MapHead : List UInt8 → Nat → Prop
  | fix {count : Nat} (small : count < 16) : MapHead [(0x80 + count).toUInt8] count
  | long {tag : UInt8} {width count : Nat} (form : (tag, width) ∈ mapForms) (fits : count < 256 ^ width) :
      MapHead (tag :: bigEndian width count) count

inductive StrHead : List UInt8 → Nat → Prop
  | fix {length : Nat} (small : length < 32) : StrHead [(0xa0 + length).toUInt8] length
  | long {tag : UInt8} {width length : Nat} (form : (tag, width) ∈ strForms) (fits : length < 256 ^ width) :
      StrHead (tag :: bigEndian width length) length

/-- A head, the number of bytes of its body and that of the values in it. -/
inductive Head : List UInt8 → Nat → Nat → Prop
  | fixint {tag : UInt8} (form : tag ≤ 0x7f ∨ 0xe0 ≤ tag) : Head [tag] 0 0
  | constant {tag : UInt8} (form : tag ∈ constants) : Head [tag] 0 0
  | number {tag : UInt8} {size : Nat} (form : (tag, size) ∈ numberForms) : Head [tag] size 0
  | str {head : List UInt8} {length : Nat} (form : StrHead head length) : Head head length 0
  | bin {tag : UInt8} {width length : Nat} (form : (tag, width) ∈ binForms) (fits : length < 256 ^ width) :
      Head (tag :: bigEndian width length) length 0
  | fixext {tag : UInt8} {size : Nat} (form : (tag, size) ∈ fixextForms) : Head [tag] (1 + size) 0
  | ext {tag : UInt8} {width length : Nat} (form : (tag, width) ∈ extForms) (fits : length < 256 ^ width) :
      Head (tag :: bigEndian width length) (1 + length) 0
  | fixarray {count : Nat} (small : count < 16) : Head [(0x90 + count).toUInt8] 0 count
  | array {tag : UInt8} {width count : Nat} (form : (tag, width) ∈ arrayForms) (fits : count < 256 ^ width) :
      Head (tag :: bigEndian width count) 0 count
  | map {head : List UInt8} {count : Nat} (form : MapHead head count) : Head head 0 (2 * count)

mutual

/-- The bytes of one value. -/
inductive Whole : List UInt8 → Prop
  | value {head body held : List UInt8} {count : Nat} (isHead : Head head body.length count)
      (values : Wholes count held) : Whole (head ++ body ++ held)

/-- The bytes of as many values, one behind the other. -/
inductive Wholes : Nat → List UInt8 → Prop
  | none : Wholes 0 []
  | more {first rest : List UInt8} {count : Nat} (isValue : Whole first) (values : Wholes count rest) :
      Wholes (count + 1) (first ++ rest)

end

theorem Wholes.append {first second : Nat} {left right : List UInt8} (values : Wholes first left)
    (others : Wholes second right) : Wholes (first + second) (left ++ right) := by
  induction first generalizing left with
  | zero =>
    cases values
    rwa [Nat.zero_add, List.nil_append]
  | succ first ih =>
    cases values with
    | more isValue values =>
      rw [List.append_assoc, Nat.add_right_comm]
      exact .more isValue (ih values)

theorem Wholes.split {first second : Nat} {bytes : List UInt8} (values : Wholes (first + second) bytes) :
    ∃ left right, bytes = left ++ right ∧ Wholes first left ∧ Wholes second right := by
  induction first generalizing bytes with
  | zero => exact ⟨[], bytes, rfl, .none, by rwa [Nat.zero_add] at values⟩
  | succ first ih =>
    rw [Nat.succ_add] at values
    cases values with
    | more isValue values =>
      obtain ⟨left, right, rfl, front, back⟩ := ih values
      exact ⟨_, right, (List.append_assoc _ _ _).symm, .more isValue front, back⟩

theorem Head.ne_nil {head : List UInt8} {body count : Nat} (isHead : Head head body count) : head ≠ [] := by
  cases isHead with
  | str form => cases form <;> exact List.cons_ne_nil _ _
  | map form => cases form <;> exact List.cons_ne_nil _ _
  | _ => exact List.cons_ne_nil _ _

end MessagePack
