import Narsil.Durability.CommitMarker
import Narsil.Durability.FrameFormat

/-!
# The bytes of the commit marker

Two slots of 36 bytes: four big-endian numbers and their checksum. Decoding the
slots of a file gives the two-slot marker the rest of the development works on,
and writing a slot's bytes is writing that slot.
-/
namespace Narsil.Durability.Marker

open Serialization

abbrev commitMarkerSlotSize : Nat := 36
abbrev commitMarkerSlotCount : Nat := 2
abbrev crcOffset : Nat := 32
abbrev maxSafeInteger : Nat := 9007199254740991

def setBigUint64 (n : Nat) : Bytes :=
  [(n / 2 ^ 56).toUInt8, (n / 2 ^ 48).toUInt8, (n / 2 ^ 40).toUInt8, (n / 2 ^ 32).toUInt8,
    (n / 2 ^ 24).toUInt8, (n / 2 ^ 16).toUInt8, (n / 2 ^ 8).toUInt8, n.toUInt8]

def getBigUint64 (data : Bytes) (offset : Nat) : Nat :=
  ((data.drop offset).take 8).foldl (fun acc byte => acc * 256 + byte.toNat) 0

/-- The four numbers of a slot, in the order they are stored. -/
def markerFields (state : CommitMarkerState) : Bytes :=
  setBigUint64 state.writeSeq ++ setBigUint64 state.activeSegmentSeqNo
    ++ setBigUint64 state.durableByteLength ++ setBigUint64 state.highestDurableSeqNo

def encodeMarkerSlot (state : CommitMarkerState) : Bytes :=
  markerFields state ++ setUint32 (crc32 (markerFields state))

def markerSlotOffset (slotIndex : Nat) : Nat := slotIndex * commitMarkerSlotSize

/-- What a slot's 36 bytes say, if their checksum holds and every number is a safe integer. -/
def decodeSlotBytes (slot : Bytes) : Option CommitMarkerState :=
  if crc32 (slot.take crcOffset) ≠ getUint32 slot crcOffset then none
  else
    let writeSeq := getBigUint64 slot 0
    let activeSegmentSeqNo := getBigUint64 slot 8
    let durableByteLength := getBigUint64 slot 16
    let highestDurableSeqNo := getBigUint64 slot 24
    if writeSeq > maxSafeInteger ∨ activeSegmentSeqNo > maxSafeInteger
        ∨ durableByteLength > maxSafeInteger ∨ highestDurableSeqNo > maxSafeInteger then none
    else some ⟨writeSeq, activeSegmentSeqNo, durableByteLength, highestDurableSeqNo⟩

def slotBytes (data : Bytes) (slotIndex : Nat) : Bytes :=
  (data.drop (markerSlotOffset slotIndex)).take commitMarkerSlotSize

def decodeSlot (data : Bytes) (slotIndex : Nat) : Option CommitMarkerState :=
  if markerSlotOffset slotIndex + commitMarkerSlotSize > data.length then none
  else decodeSlotBytes (slotBytes data slotIndex)

/-- One slot of the loop of `readCommitMarker`. -/
def betterSlot (data : Bytes) (best : Option (CommitMarkerState × Nat)) (slotIndex : Nat) :
    Option (CommitMarkerState × Nat) :=
  match decodeSlot data slotIndex, best with
  | none, best => best
  | some state, none => some (state, slotIndex)
  | some state, some (bestState, bestIndex) =>
    if state.writeSeq > bestState.writeSeq then some (state, slotIndex)
    else some (bestState, bestIndex)

def readCommitMarker (data : Bytes) : Option (CommitMarkerState × Nat) :=
  (List.range commitMarkerSlotCount).foldl (betterSlot data) none

/-- The marker the rest of the log works on: each slot by what decoding it answers. -/
def slots (data : Bytes) : MarkerFile := ⟨decodeSlot data 0, decodeSlot data 1⟩

theorem readCommitMarker_slots (data : Bytes) :
    readCommitMarker data = Durability.readCommitMarker (slots data) := by
  simp only [readCommitMarker, Durability.readCommitMarker, slots, commitMarkerSlotCount,
    List.range_succ, List.range_zero, List.nil_append, List.cons_append, List.foldl_cons,
    List.foldl_nil, betterSlot]
  cases decodeSlot data 0 <;> cases decodeSlot data 1 <;> rfl

/-- Bytes put into a file at an offset; a gap before it is filled with zeros. -/
def overwrite (data : Bytes) (offset : Nat) (bytes : Bytes) : Bytes :=
  data.takeD offset 0 ++ bytes ++ data.drop (offset + bytes.length)

@[simp] theorem setBigUint64_length (n : Nat) : (setBigUint64 n).length = 8 := rfl

@[simp] theorem markerFields_length (state : CommitMarkerState) :
    (markerFields state).length = crcOffset := rfl

@[simp] theorem encodeMarkerSlot_length (state : CommitMarkerState) :
    (encodeMarkerSlot state).length = commitMarkerSlotSize := rfl

private theorem uint64_bytes (n : Nat) (small : n < 2 ^ 64) :
    (((((((n / 2 ^ 56 % 256) * 256 + n / 2 ^ 48 % 256) * 256 + n / 2 ^ 40 % 256) * 256
      + n / 2 ^ 32 % 256) * 256 + n / 2 ^ 24 % 256) * 256 + n / 2 ^ 16 % 256) * 256
      + n / 2 ^ 8 % 256) * 256 + n % 256 = n := by
  omega

theorem getBigUint64_setBigUint64 (pre post : Bytes) (n : Nat) (safe : n ≤ maxSafeInteger) :
    getBigUint64 (pre ++ (setBigUint64 n ++ post)) pre.length = n := by
  have value := uint64_bytes n (by simp only [maxSafeInteger] at safe; omega)
  simpa [getBigUint64, setBigUint64, List.drop_left] using value

/-- Every number of a marker is a safe integer. -/
structure SafeMarker (state : CommitMarkerState) : Prop where
  writeSeq : state.writeSeq ≤ maxSafeInteger
  activeSegmentSeqNo : state.activeSegmentSeqNo ≤ maxSafeInteger
  durableByteLength : state.durableByteLength ≤ maxSafeInteger
  highestDurableSeqNo : state.highestDurableSeqNo ≤ maxSafeInteger

instance (state : CommitMarkerState) : Decidable (SafeMarker state) :=
  decidable_of_iff
    (state.writeSeq ≤ maxSafeInteger ∧ state.activeSegmentSeqNo ≤ maxSafeInteger
      ∧ state.durableByteLength ≤ maxSafeInteger ∧ state.highestDurableSeqNo ≤ maxSafeInteger)
    ⟨fun ⟨a, b, c, d⟩ => ⟨a, b, c, d⟩, fun ⟨a, b, c, d⟩ => ⟨a, b, c, d⟩⟩

theorem decodeSlotBytes_encode {state : CommitMarkerState} (safe : SafeMarker state) :
    decodeSlotBytes (encodeMarkerSlot state) = some state := by
  obtain ⟨writeSeq, activeSegmentSeqNo, durableByteLength, highestDurableSeqNo⟩ := state
  obtain ⟨safeSeq, safeSegment, safeLength, safeHighest⟩ := safe
  simp only at safeSeq safeSegment safeLength safeHighest
  generalize slotIs : encodeMarkerSlot ⟨writeSeq, activeSegmentSeqNo, durableByteLength,
    highestDurableSeqNo⟩ = slot
  -- Each number stands at its own offset, and the checksum behind the four of them.
  have layout : slot = setBigUint64 writeSeq ++ (setBigUint64 activeSegmentSeqNo
      ++ (setBigUint64 durableByteLength ++ (setBigUint64 highestDurableSeqNo
        ++ setUint32 (crc32 (slot.take crcOffset))))) := by
    rw [← slotIs]
    rfl
  have first : getBigUint64 slot 0 = writeSeq := by
    rw [layout]
    exact getBigUint64_setBigUint64 [] _ writeSeq safeSeq
  have second : getBigUint64 slot 8 = activeSegmentSeqNo := by
    rw [layout]
    exact getBigUint64_setBigUint64 (setBigUint64 writeSeq) _ activeSegmentSeqNo safeSegment
  have third : getBigUint64 slot 16 = durableByteLength := by
    rw [layout, ← List.append_assoc]
    exact getBigUint64_setBigUint64 (setBigUint64 writeSeq ++ setBigUint64 activeSegmentSeqNo) _
      durableByteLength safeLength
  have fourth : getBigUint64 slot 24 = highestDurableSeqNo := by
    rw [layout, ← List.append_assoc, ← List.append_assoc]
    exact getBigUint64_setBigUint64 (setBigUint64 writeSeq ++ setBigUint64 activeSegmentSeqNo
      ++ setBigUint64 durableByteLength) _ highestDurableSeqNo safeHighest
  have checksum : getUint32 slot crcOffset = crc32 (slot.take crcOffset) := by
    rw [← slotIs]
    have field := getUint32_setUint32
      (markerFields ⟨writeSeq, activeSegmentSeqNo, durableByteLength, highestDurableSeqNo⟩) [] _
      (crc32_lt (markerFields ⟨writeSeq, activeSegmentSeqNo, durableByteLength,
        highestDurableSeqNo⟩))
    rw [List.append_nil] at field
    exact field
  simp only [decodeSlotBytes, first, second, third, fourth, checksum]
  rw [if_neg (by simp), if_neg (by omega)]

theorem decodeSlot_eq (data : Bytes) (slotIndex : Nat) :
    decodeSlot data slotIndex = if (slotBytes data slotIndex).length = commitMarkerSlotSize then
      decodeSlotBytes (slotBytes data slotIndex) else none := by
  have size : (slotBytes data slotIndex).length
      = min commitMarkerSlotSize (data.length - markerSlotOffset slotIndex) := by
    simp [slotBytes]
  rw [decodeSlot, size]
  by_cases short : markerSlotOffset slotIndex + commitMarkerSlotSize > data.length
  · rw [if_pos short, if_neg (by simp only [commitMarkerSlotSize] at short ⊢; omega)]
  · rw [if_neg short, if_pos (by omega)]

theorem decodeSlot_congr {data data' : Bytes} {slotIndex : Nat}
    (same : slotBytes data slotIndex = slotBytes data' slotIndex) :
    decodeSlot data slotIndex = decodeSlot data' slotIndex := by
  rw [decodeSlot_eq, decodeSlot_eq, same]

theorem length_of_decodeSlot {data : Bytes} {slotIndex : Nat} {state : CommitMarkerState}
    (h : decodeSlot data slotIndex = some state) :
    markerSlotOffset slotIndex + commitMarkerSlotSize ≤ data.length := by
  by_contra short
  rw [decodeSlot, if_pos (by omega)] at h
  cases h

theorem slotBytes_overwrite (data : Bytes) (slotIndex : Nat) (slot : Bytes)
    (whole : slot.length = commitMarkerSlotSize) :
    slotBytes (overwrite data (markerSlotOffset slotIndex) slot) slotIndex = slot := by
  rw [slotBytes, overwrite, List.append_assoc, List.drop_left' (List.takeD_length _ _ _), ← whole,
    List.take_left]

@[simp] theorem markerSlotOffset_zero : markerSlotOffset 0 = 0 := rfl

@[simp] theorem markerSlotOffset_one : markerSlotOffset 1 = commitMarkerSlotSize := rfl

theorem slotBytes_overwrite_first (data left : Bytes) (fits : left.length ≤ commitMarkerSlotSize) :
    slotBytes (overwrite data (markerSlotOffset 0) left) 1 = slotBytes data 1 := by
  have whole : overwrite data (markerSlotOffset 0) left = left ++ data.drop left.length := by
    simp [overwrite]
  rw [slotBytes, whole, markerSlotOffset_one, List.drop_append, List.drop_eq_nil_of_le fits,
    List.nil_append, List.drop_drop, Nat.add_sub_cancel' fits]
  rfl

theorem slotBytes_overwrite_second (data left : Bytes)
    (reaches : markerSlotOffset 1 ≤ data.length) :
    slotBytes (overwrite data (markerSlotOffset 1) left) 0 = slotBytes data 0 := by
  have front : data.takeD (markerSlotOffset 1) 0 = data.take commitMarkerSlotSize :=
    List.takeD_eq_take _ reaches
  have size : (data.take commitMarkerSlotSize).length = commitMarkerSlotSize := by
    rw [List.length_take]
    exact Nat.min_eq_left reaches
  rw [slotBytes, overwrite, front, markerSlotOffset_zero, List.drop_zero, List.append_assoc,
    List.take_left' size]
  rfl

end Narsil.Durability.Marker
