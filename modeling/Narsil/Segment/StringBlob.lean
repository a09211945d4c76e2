import Mathlib.Algebra.GroupWithZero.Nat
import Narsil.Ordering.Utf8

/-!
# Strings as bytes

The strings of a frozen table stand in one blob of UTF-8, with the offset where each begins.
-/
namespace Narsil.Segment

open Narsil.Cursor Narsil.Ordering

structure StringBlob where
  blob : Cursor.Bytes
  offsets : List Nat

/-- The bytes between two offsets. -/
def bytesAt (blob : Cursor.Bytes) (start finish : Nat) : Cursor.Bytes := (blob.drop start).take (finish - start)

def StringBlob.stringBytes (stored : StringBlob) (at_row : Nat) : Cursor.Bytes :=
  bytesAt stored.blob (stored.offsets.getD at_row 0) (stored.offsets.getD (at_row + 1) 0)

/-- The bytes between the offsets of a row are those of its string. -/
structure Stores (stored : StringBlob) (strings : List JsString) : Prop where
  length : stored.offsets.length = strings.length + 1
  rows : ∀ at_row value, strings[at_row]? = some value → stored.stringBytes at_row = encodeUtf8 value

/-- The offsets of words that stand one behind the other. -/
def offsetsOf (start : Nat) : List Nat → List Nat
  | [] => [start]
  | length :: lengths => start :: offsetsOf (start + length) lengths

def encodeOneByOne (strings : List JsString) : StringBlob :=
  let encoded := strings.map encodeUtf8
  ⟨encoded.flatten, offsetsOf 0 (encoded.map List.length)⟩

def basicPlaneUtf8Bytes (text : JsString) : Nat :=
  text.foldl (fun bytes unit => if 0x80 ≤ unit then bytes + if unit < 0x800 then 1 else 2 else bytes) text.length

def isSurrogateUnit (unit : UInt16) : Bool := 0xd800 ≤ unit && unit ≤ 0xdfff

def encodeStringBlob (strings : List JsString) : StringBlob :=
  let joined := strings.flatten
  if joined.any isSurrogateUnit then encodeOneByOne strings
  else
    let blob := encodeUtf8 joined
    let offsets := offsetsOf 0 (strings.map basicPlaneUtf8Bytes)
    if offsets.getLast? = some blob.length then ⟨blob, offsets⟩ else encodeOneByOne strings

theorem offsetsOf_length (start : Nat) (lengths : List Nat) :
    (offsetsOf start lengths).length = lengths.length + 1 := by
  induction lengths generalizing start with
  | nil => rfl
  | cons length lengths ih => rw [offsetsOf, List.length_cons, ih, List.length_cons]

theorem offsetsOf_getD (start : Nat) (lengths : List Nat) {at_row : Nat} (inside : at_row ≤ lengths.length) :
    (offsetsOf start lengths).getD at_row 0 = start + (lengths.take at_row).sum := by
  induction lengths generalizing start at_row with
  | nil =>
    obtain rfl : at_row = 0 := by simpa using inside
    rfl
  | cons length lengths ih =>
    cases at_row with
    | zero => rfl
    | succ at_row =>
      rw [offsetsOf, List.getD_cons_succ, ih _ (by simpa using inside), List.take_succ_cons, List.sum_cons]
      omega

theorem bytesAt_flatten (words : List Cursor.Bytes) {at_row : Nat} {word : Cursor.Bytes} (here : words[at_row]? = some word) :
    bytesAt words.flatten ((words.map List.length).take at_row).sum
      ((words.map List.length).take (at_row + 1)).sum = word := by
  obtain ⟨inside, rfl⟩ := List.getElem?_eq_some_iff.mp here
  have split : words.flatten =
      (words.take at_row).flatten ++ (words[at_row] ++ (words.drop (at_row + 1)).flatten) := by
    rw [← List.flatten_cons, ← List.drop_eq_getElem_cons inside, ← List.flatten_append, List.take_append_drop]
  have before : ((words.map List.length).take at_row).sum = (words.take at_row).flatten.length := by
    rw [List.length_flatten, ← List.map_take]
  have next : ((words.map List.length).take (at_row + 1)).sum =
      ((words.map List.length).take at_row).sum + words[at_row].length := by
    rw [List.take_add_one, List.sum_append, List.getElem?_map, List.getElem?_eq_getElem inside]
    simp
  rw [bytesAt, next, before, split, List.drop_left, Nat.add_sub_cancel_left, List.take_left]

theorem encodeOneByOne_stores (strings : List JsString) : Stores (encodeOneByOne strings) strings where
  length := by rw [encodeOneByOne, offsetsOf_length, List.length_map, List.length_map]
  rows at_row value here := by
    have inside : at_row < strings.length := (List.getElem?_eq_some_iff.mp here).1
    rw [StringBlob.stringBytes, encodeOneByOne, offsetsOf_getD _ _ (by simpa using Nat.le_of_lt inside),
      offsetsOf_getD _ _ (by simpa using Nat.succ_le_of_lt inside), Nat.zero_add, Nat.zero_add]
    exact bytesAt_flatten _ (by rw [List.getElem?_map, here]; rfl)

theorem utf8Bytes_basic {point : Nat} (basic : point < 0x10000) :
    (utf8Bytes point).length = if point < 0x80 then 1 else if point < 0x800 then 2 else 3 := by
  rw [utf8Bytes]
  split
  · rfl
  · split
    · rfl
    · split
      · rfl
      · rfl

section BasicPlane
variable {text : JsString} (basic : ∀ unit ∈ text, isSurrogateUnit unit = false)

theorem not_pair {unit : UInt16} (single : isSurrogateUnit unit = false) (low : UInt16) :
    ¬ (isHighSurrogate unit && isLowSurrogate low) = true := by
  intro pair
  have bounds := pair_bounds pair
  have surrogate : isSurrogateUnit unit = true := by
    simp only [isSurrogateUnit, Bool.and_eq_true, decide_eq_true_eq, UInt16.le_iff_toNat_le, UInt16.reduceToNat]
    omega
  rw [single] at surrogate
  cases surrogate

include basic

theorem codePoints_basic : codePoints text = text.map UInt16.toNat := by
  induction text using codePoints.induct with
  | case1 => rfl
  | case2 unit => rfl
  | case3 unit low rest pair => exact absurd pair (not_pair (basic unit List.mem_cons_self) low)
  | case4 unit low rest single ih =>
    rw [codePoints, if_neg single, ih fun other isIn => basic other (List.mem_cons_of_mem _ isIn)]
    rfl

theorem basicPlaneUtf8Bytes_eq : basicPlaneUtf8Bytes text = (encodeUtf8 text).length := by
  rw [encodeUtf8, codePoints_basic basic, basicPlaneUtf8Bytes]
  suffices run : ∀ bytes, text.foldl
      (fun bytes unit => if 0x80 ≤ unit then bytes + if unit < 0x800 then 1 else 2 else bytes) (bytes + text.length) =
      bytes + ((text.map UInt16.toNat).flatMap utf8Bytes).length by simpa using run 0
  induction text with
  | nil => exact fun _ => rfl
  | cons unit rest ih =>
    intro bytes
    have unit_bytes : (utf8Bytes unit.toNat).length =
        1 + if 0x80 ≤ unit then if unit < 0x800 then 1 else 2 else 0 := by
      rw [utf8Bytes_basic unit.toNat_lt]
      simp only [UInt16.le_iff_toNat_le, UInt16.lt_iff_toNat_lt, UInt16.reduceToNat]
      split_ifs <;> omega
    have later := ih (fun other isIn => basic other (List.mem_cons_of_mem _ isIn))
      (bytes + (utf8Bytes unit.toNat).length)
    rw [List.map_cons, List.flatMap_cons, List.length_append, List.foldl_cons, List.length_cons,
      ← Nat.add_assoc bytes, ← Nat.add_assoc bytes, ← later]
    refine congrArg (fun start => rest.foldl _ start) ?_
    rw [unit_bytes]
    split <;> omega

end BasicPlane

theorem encodeUtf8_flatten {strings : List JsString}
    (basic : ∀ unit ∈ strings.flatten, isSurrogateUnit unit = false) :
    encodeUtf8 strings.flatten = (strings.map encodeUtf8).flatten := by
  induction strings with
  | nil => rfl
  | cons first rest ih =>
    have first_basic : ∀ unit ∈ first, isSurrogateUnit unit = false := fun unit isIn =>
      basic unit (List.mem_append_left _ isIn)
    have rest_basic : ∀ unit ∈ rest.flatten, isSurrogateUnit unit = false := fun unit isIn =>
      basic unit (List.mem_append_right _ isIn)
    rw [List.map_cons, List.flatten_cons, List.flatten_cons, ← ih rest_basic, encodeUtf8, encodeUtf8, encodeUtf8,
      ← List.flatten_cons, codePoints_basic basic, codePoints_basic first_basic, codePoints_basic rest_basic,
      List.flatten_cons, List.map_append, List.flatMap_append]

theorem encodeStringBlob_stores (strings : List JsString) : Stores (encodeStringBlob strings) strings := by
  rw [encodeStringBlob]
  simp only
  split
  · exact encodeOneByOne_stores strings
  next basic =>
    split
    · have units_basic : ∀ unit ∈ strings.flatten, isSurrogateUnit unit = false := fun unit isIn =>
        Bool.not_eq_true _ ▸ fun surrogate => basic (List.any_eq_true.mpr ⟨unit, isIn, surrogate⟩)
      have lengths : strings.map basicPlaneUtf8Bytes = (strings.map encodeUtf8).map List.length := by
        rw [List.map_map]
        exact List.map_congr_left fun text isIn =>
          basicPlaneUtf8Bytes_eq fun unit isUnit => units_basic unit (List.mem_flatten.mpr ⟨text, isIn, isUnit⟩)
      rw [encodeUtf8_flatten units_basic, lengths]
      exact encodeOneByOne_stores strings
    · exact encodeOneByOne_stores strings

def LOOKUP_KEY_SCRATCH_BYTES : Nat := 4096

def UTF8_BYTES_PER_UTF16_UNIT : Nat := 3

/-- The code points that fit into the bytes of the destination, and no further. -/
def encodeInto (room : Nat) : List Nat → Cursor.Bytes
  | [] => []
  | point :: points =>
    if (utf8Bytes point).length ≤ room then utf8Bytes point ++ encodeInto (room - (utf8Bytes point).length) points
    else []

def encodeLookupKey (text : JsString) : Cursor.Bytes :=
  if text.length * UTF8_BYTES_PER_UTF16_UNIT > LOOKUP_KEY_SCRATCH_BYTES then encodeUtf8 text
  else encodeInto LOOKUP_KEY_SCRATCH_BYTES (codePoints text)

theorem encodeInto_eq {room : Nat} {points : List Nat} (fits : (points.flatMap utf8Bytes).length ≤ room) :
    encodeInto room points = points.flatMap utf8Bytes := by
  induction points generalizing room with
  | nil => rfl
  | cons point points ih =>
    rw [List.flatMap_cons, List.length_append] at fits
    rw [encodeInto, if_pos (by omega), ih (by omega), List.flatMap_cons]

theorem utf8Bytes_length (point : Nat) :
    (utf8Bytes point).length ≤ UTF8_BYTES_PER_UTF16_UNIT ∨ 0x10000 ≤ point ∧ (utf8Bytes point).length = 4 := by
  rw [utf8Bytes, UTF8_BYTES_PER_UTF16_UNIT]
  repeat' split
  all_goals first | exact .inl (by decide) | exact .inr ⟨by omega, rfl⟩ | simp

theorem unit_bytes (unit : UInt16) : (utf8Bytes unit.toNat).length ≤ UTF8_BYTES_PER_UTF16_UNIT := by
  have bound := unit.toNat_lt
  rcases utf8Bytes_length unit.toNat with few | ⟨beyond, -⟩
  · exact few
  · omega

theorem encodeUtf8_length (text : JsString) :
    (encodeUtf8 text).length ≤ text.length * UTF8_BYTES_PER_UTF16_UNIT := by
  rw [encodeUtf8]
  induction text using codePoints.induct with
  | case1 => exact Nat.zero_le _
  | case2 unit =>
    rw [codePoints, List.flatMap_singleton, List.length_singleton, Nat.one_mul]
    exact unit_bytes unit
  | case3 unit low rest pair ih =>
    have bound (point : Nat) : (utf8Bytes point).length ≤ 4 := by
      rcases utf8Bytes_length point with few | ⟨-, four⟩
      · exact Nat.le_trans few (by decide)
      · exact Nat.le_of_eq four
    rw [codePoints, if_pos pair, List.flatMap_cons, List.length_append, List.length_cons, List.length_cons]
    have first := bound (0x10000 + (unit.toNat - 0xd800) * 0x400 + (low.toNat - 0xdc00))
    rw [UTF8_BYTES_PER_UTF16_UNIT] at ih ⊢
    omega
  | case4 unit low rest single ih =>
    rw [codePoints, if_neg single, List.flatMap_cons, List.length_append, List.length_cons, Nat.add_mul, Nat.one_mul,
      Nat.add_comm]
    exact Nat.add_le_add ih (unit_bytes unit)

theorem encodeLookupKey_eq (text : JsString) : encodeLookupKey text = encodeUtf8 text := by
  rw [encodeLookupKey]
  split
  next => rfl
  next fits => exact encodeInto_eq (Nat.le_trans (encodeUtf8_length text) (Nat.le_of_not_lt fits))

end Narsil.Segment
