import Narsil.Ordering.Strings

/-!
# Padded base64

`serialization/base64.ts`: three bytes are four characters, and the bytes left over at the
end are padded. The decoder takes exactly what the encoder writes.
-/
namespace Narsil.Serialization

open Narsil.Ordering (JsString ascii)

def ALPHABET : JsString := ascii "ABCDEFGHIJKLMNOPQRSTUVWXYZabcdefghijklmnopqrstuvwxyz0123456789+/"
def PAD : UInt16 := 0x3d
def BYTES_PER_GROUP : Nat := 3
def CHARACTERS_PER_GROUP : Nat := 4

/-- `ENCODE`. -/
def characterOf (sextet : Nat) : UInt16 := ALPHABET.getD sextet 0

/-- `DECODE`, with nothing for the entries of -1 and the characters past the table. -/
def sextetAt (code : UInt16) : Option Nat := ALPHABET.findIdx? (· = code)

def encodeBase64 : List UInt8 → JsString
  | a :: b :: c :: rest =>
    let group := a.toNat * 65536 + b.toNat * 256 + c.toNat
    characterOf (group / 262144) :: characterOf (group / 4096 % 64) :: characterOf (group / 64 % 64) ::
      characterOf (group % 64) :: encodeBase64 rest
  | [a, b] =>
    let group := a.toNat * 65536 + b.toNat * 256
    [characterOf (group / 262144), characterOf (group / 4096 % 64), characterOf (group / 64 % 64), PAD]
  | [a] =>
    let group := a.toNat * 65536
    [characterOf (group / 262144), characterOf (group / 4096 % 64), PAD, PAD]
  | [] => []

/-- The loop over the full groups. -/
def decodeGroups : JsString → Option (List UInt8)
  | a :: b :: c :: d :: rest => do
    let a ← sextetAt a
    let b ← sextetAt b
    let c ← sextetAt c
    let d ← sextetAt d
    let group := a * 262144 + b * 4096 + c * 64 + d
    return .ofNat (group / 65536) :: .ofNat (group / 256 % 256) :: .ofNat (group % 256) :: (← decodeGroups rest)
  | _ => some []

/-- The padded group at the end. -/
def decodeLast (padding : Nat) : JsString → Option (List UInt8)
  | a :: b :: c :: _ => do
    let a ← sextetAt a
    let b ← sextetAt b
    let c ← if padding = 1 then sextetAt c else some 0
    -- The bits that no byte takes are zero in what the encoder writes.
    if padding = 2 ∧ b % 16 ≠ 0 then none
    else if padding = 1 ∧ c % 4 ≠ 0 then none
    else if padding = 1 then some [.ofNat (a * 4 + b / 16), .ofNat (b % 16 * 16 + c / 4)]
    else some [.ofNat (a * 4 + b / 16)]
  | _ => none

def paddingOf (text : JsString) : Nat := if [PAD, PAD] <:+ text then 2 else if [PAD] <:+ text then 1 else 0

def decodeExactBase64 (text : JsString) : Option (List UInt8) :=
  if text.length % CHARACTERS_PER_GROUP ≠ 0 then none
  else
    let padding := paddingOf text
    let fullEnd := if padding = 0 then text.length else text.length - CHARACTERS_PER_GROUP
    do
      let full ← decodeGroups (text.take fullEnd)
      if padding = 0 then return full
      return full ++ (← decodeLast padding (text.drop fullEnd))

set_option maxRecDepth 100000 in
theorem characterOf_table : ∀ sextet < 64, sextetAt (characterOf sextet) = some sextet ∧
    characterOf sextet ≠ PAD ∧ characterOf sextet ∈ ALPHABET := by
  decide

theorem sextetAt_characterOf {sextet : Nat} (small : sextet < 64) : sextetAt (characterOf sextet) = some sextet :=
  (characterOf_table sextet small).1

theorem characterOf_ne_pad {sextet : Nat} (small : sextet < 64) : characterOf sextet ≠ PAD :=
  (characterOf_table sextet small).2.1

theorem characterOf_mem {sextet : Nat} (small : sextet < 64) : characterOf sextet ∈ ALPHABET :=
  (characterOf_table sextet small).2.2

theorem encodeBase64_mem (bytes : List UInt8) : ∀ unit ∈ encodeBase64 bytes, unit ∈ PAD :: ALPHABET := by
  have letter {sextet : Nat} (small : sextet < 64) : characterOf sextet ∈ PAD :: ALPHABET :=
    List.mem_cons_of_mem _ (characterOf_mem small)
  have pad : PAD ∈ PAD :: ALPHABET := List.mem_cons_self ..
  fun_induction encodeBase64 bytes with
  | case1 a b c rest group ih =>
    have := a.toNat_lt
    have := b.toNat_lt
    have := c.toNat_lt
    rw [List.forall_mem_cons, List.forall_mem_cons, List.forall_mem_cons, List.forall_mem_cons]
    exact ⟨letter (by omega), letter (by omega), letter (by omega), letter (by omega), ih⟩
  | case2 a b group =>
    have := a.toNat_lt
    have := b.toNat_lt
    rw [List.forall_mem_cons, List.forall_mem_cons, List.forall_mem_cons, List.forall_mem_singleton]
    exact ⟨letter (by omega), letter (by omega), letter (by omega), pad⟩
  | case3 a group =>
    have := a.toNat_lt
    rw [List.forall_mem_cons, List.forall_mem_cons, List.forall_mem_cons, List.forall_mem_singleton]
    exact ⟨letter (by omega), letter (by omega), pad, pad⟩
  | case4 => exact fun unit member => absurd member List.not_mem_nil

theorem encodeBase64_length (bytes : List UInt8) : (encodeBase64 bytes).length % 4 = 0 := by
  fun_induction encodeBase64 bytes with
  | case1 a b c rest group ih =>
    simp only [List.length_cons]
    omega
  | case2 a b group => simp
  | case3 a group => simp
  | case4 => rfl

theorem paddingOf_group (a b c d : UInt16) {rest : JsString} (goes_on : 2 ≤ rest.length) :
    paddingOf (a :: b :: c :: d :: rest) = paddingOf rest := by
  have past (suffix : JsString) (short : suffix.length ≤ 2) :
      suffix <:+ a :: b :: c :: d :: rest ↔ suffix <:+ rest := by
    constructor
    · intro found
      have whole : rest <:+ a :: b :: c :: d :: rest := ⟨[a, b, c, d], rfl⟩
      exact List.suffix_of_suffix_length_le found whole (by omega)
    · exact fun found => found.trans ⟨[a, b, c, d], rfl⟩
  rw [paddingOf, paddingOf]
  simp only [past [PAD, PAD] (by simp), past [PAD] (by simp)]

theorem decodeExactBase64_group {a b c d : Nat} (ha : a < 64) (hb : b < 64) (hc : c < 64) (hd : d < 64)
    {rest : JsString} (whole : rest.length % 4 = 0) :
    decodeExactBase64 (characterOf a :: characterOf b :: characterOf c :: characterOf d :: rest) = do
      let group := a * 262144 + b * 4096 + c * 64 + d
      return .ofNat (group / 65536) :: .ofNat (group / 256 % 256) :: .ofNat (group % 256) ::
        (← decodeExactBase64 rest) := by
  rcases Nat.lt_or_ge rest.length 4 with short | long
  · have nothing : rest = [] := List.length_eq_zero_iff.mp (by omega)
    subst nothing
    have no_padding : paddingOf [characterOf a, characterOf b, characterOf c, characterOf d] = 0 := by
      simp [paddingOf, List.suffix_cons_iff, (characterOf_ne_pad hd).symm]
    have empty : decodeExactBase64 [] = some [] := by decide
    rw [decodeExactBase64, no_padding, empty]
    simp [CHARACTERS_PER_GROUP, decodeGroups, sextetAt_characterOf, ha, hb, hc, hd]
  · rw [decodeExactBase64, decodeExactBase64, paddingOf_group _ _ _ _ (by omega)]
    have length : (rest.length + 1 + 1 + 1 + 1) % 4 = 0 := by omega
    simp only [List.length_cons, CHARACTERS_PER_GROUP, length, whole, ne_eq, not_true_eq_false, if_false]
    rcases Nat.eq_zero_or_pos (paddingOf rest) with none_padded | padded
    · simp only [none_padded, if_true, ← List.length_cons, List.take_length]
      simp [decodeGroups, sextetAt_characterOf, ha, hb, hc, hd]
    · have split : rest.length + 1 + 1 + 1 + 1 - 4 = rest.length - 4 + 4 := by omega
      simp only [Nat.pos_iff_ne_zero.mp padded, if_false, split, List.take_succ_cons, List.drop_succ_cons]
      simp [decodeGroups, sextetAt_characterOf, ha, hb, hc, hd, Option.bind_assoc]

theorem decodeExactBase64_one {x y : UInt16} {a b : Nat} (first : sextetAt x = some a) (second : sextetAt y = some b)
    (unused : b % 16 = 0) : decodeExactBase64 [x, y, PAD, PAD] = some [.ofNat (a * 4 + b / 16)] := by
  have padding : paddingOf [x, y, PAD, PAD] = 2 := by simp [paddingOf, List.suffix_cons_iff]
  rw [decodeExactBase64, padding]
  simp [CHARACTERS_PER_GROUP, decodeGroups, decodeLast, first, second, unused, -UInt8.ofNat_add, -UInt8.ofNat_mul]

theorem decodeExactBase64_two {x y z : UInt16} {a b c : Nat} (first : sextetAt x = some a)
    (second : sextetAt y = some b) (third : sextetAt z = some c) (other : z ≠ PAD) (unused : c % 4 = 0) :
    decodeExactBase64 [x, y, z, PAD] = some [.ofNat (a * 4 + b / 16), .ofNat (b % 16 * 16 + c / 4)] := by
  have padding : paddingOf [x, y, z, PAD] = 1 := by simp [paddingOf, List.suffix_cons_iff, other.symm]
  rw [decodeExactBase64, padding]
  simp [CHARACTERS_PER_GROUP, decodeGroups, decodeLast, first, second, third, unused, -UInt8.ofNat_add,
    -UInt8.ofNat_mul]

theorem decodeExactBase64_encodeBase64 (bytes : List UInt8) :
    decodeExactBase64 (encodeBase64 bytes) = some bytes := by
  fun_induction encodeBase64 bytes with
  | case1 a b c rest group ih =>
    have := a.toNat_lt
    have := b.toNat_lt
    have := c.toNat_lt
    have bound : group < 16777216 := by omega
    rw [decodeExactBase64_group (by omega) (by omega) (by omega) (by omega) (encodeBase64_length rest), ih]
    have joined : group / 262144 * 262144 + group / 4096 % 64 * 4096 + group / 64 % 64 * 64 + group % 64 = group := by
      omega
    have first : group / 65536 = a.toNat := by omega
    have second : group / 256 % 256 = b.toNat := by omega
    have third : group % 256 = c.toNat := by omega
    simp [joined, first, second, third]
  | case2 a b group =>
    have := a.toNat_lt
    have := b.toNat_lt
    have first : group / 262144 * 4 + group / 4096 % 64 / 16 = a.toNat := by omega
    have second : group / 4096 % 64 % 16 * 16 + group / 64 % 64 / 4 = b.toNat := by omega
    rw [decodeExactBase64_two (sextetAt_characterOf (by omega)) (sextetAt_characterOf (by omega))
      (sextetAt_characterOf (by omega)) (characterOf_ne_pad (by omega)) (by omega), first, second,
      UInt8.ofNat_toNat, UInt8.ofNat_toNat]
  | case3 a group =>
    have := a.toNat_lt
    have first : group / 262144 * 4 + group / 4096 % 64 / 16 = a.toNat := by omega
    rw [decodeExactBase64_one (sextetAt_characterOf (by omega)) (sextetAt_characterOf (by omega)) (by omega), first,
      UInt8.ofNat_toNat]
  | case4 => decide

end Narsil.Serialization
