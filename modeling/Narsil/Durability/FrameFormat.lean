import Narsil.Durability.WalFraming
import Mathlib.Data.List.TakeDrop

/-!
# The bytes of a frame

What one frame is, stated over its bytes alone, and that reading a frame accepts
exactly that.
-/
namespace Narsil.Durability

open Serialization

@[simp] theorem setUint32_length (n : Nat) : (setUint32 n).length = 4 := rfl

private theorem uint32_bytes (n : Nat) (small : n < 2 ^ 32) :
    (((n / 2 ^ 24 % 256) * 256 + n / 2 ^ 16 % 256) * 256 + n / 2 ^ 8 % 256) * 256 + n % 256 = n := by
  omega

theorem getUint32_setUint32 (pre post : Bytes) (n : Nat) (small : n < 2 ^ 32) :
    getUint32 (pre ++ (setUint32 n ++ post)) pre.length = n := by
  have value := uint32_bytes n small
  simpa [getUint32, setUint32, List.drop_left] using value

private theorem byte_of_word {a b c d : Nat} (ha : a < 256) (hb : b < 256) (hc : c < 256)
    (hd : d < 256) :
    (((a * 256 + b) * 256 + c) * 256 + d) / 2 ^ 24 % 256 = a ∧
      (((a * 256 + b) * 256 + c) * 256 + d) / 2 ^ 16 % 256 = b ∧
      (((a * 256 + b) * 256 + c) * 256 + d) / 2 ^ 8 % 256 = c ∧
      (((a * 256 + b) * 256 + c) * 256 + d) % 256 = d := by
  omega

theorem setUint32_getUint32 (data : Bytes) (offset : Nat) (inside : offset + 4 ≤ data.length) :
    setUint32 (getUint32 data offset) = (data.drop offset).take 4 := by
  have size : ((data.drop offset).take 4).length = 4 := by
    simp only [List.length_take, List.length_drop]
    omega
  simp only [getUint32]
  match (data.drop offset).take 4, size with
  | [a, b, c, d], _ =>
    obtain ⟨ha, hb, hc, -⟩ := byte_of_word a.toNat_lt b.toNat_lt c.toNat_lt d.toNat_lt
    simp only [List.foldl_cons, List.foldl_nil, Nat.zero_mul, Nat.zero_add, setUint32,
      List.cons.injEq, and_true]
    exact ⟨UInt8.toNat_inj.mp (by simpa using ha), UInt8.toNat_inj.mp (by simpa using hb),
      UInt8.toNat_inj.mp (by simpa using hc), UInt8.toNat_inj.mp (by simp)⟩

/-- A frame holding `entry`: a length from one to the maximum, as many bytes that
decode to the entry, and their checksum. -/
inductive Frame (codec : EntryCodec) : ReplicationLogEntry → Bytes → Prop where
  | around (payload : Bytes) {entry : ReplicationLogEntry} (nonempty : 0 < payload.length)
      (fits : payload.length ≤ maxWalRecordBytes)
      (decodes : decodeWalEntry codec payload = some entry) :
      Frame codec entry (setUint32 payload.length ++ payload ++ setUint32 (crc32 payload))

variable {codec : EntryCodec} {entry : ReplicationLogEntry} {frame : Bytes}

theorem Frame.ne_nil (h : Frame codec entry frame) : frame ≠ [] := by
  obtain ⟨payload, nonempty, fits, decodes⟩ := h
  simp [setUint32]

private theorem payload_at (pre payload post : Bytes) (n : Nat) :
    ((pre ++ (setUint32 n ++ (payload ++ post))).drop (pre.length + 4)).take payload.length
      = payload := by
  have split : pre ++ (setUint32 n ++ (payload ++ post))
      = (pre ++ setUint32 n) ++ (payload ++ post) := by simp
  rw [split, List.drop_left' (by simp), List.take_left' rfl]

theorem Frame.read (h : Frame codec entry frame) (pre post : Bytes) (limit : Nat)
    (within : pre.length + frame.length ≤ limit) :
    readFrame codec (pre ++ (frame ++ post)) pre.length limit
      = .ok (entry, pre.length + frame.length) := by
  obtain ⟨payload, nonempty, fits, decodes⟩ := h
  simp only [List.length_append, setUint32_length] at within
  have small : payload.length < 2 ^ 32 := by
    simp only [maxWalRecordBytes] at fits
    omega
  have length := getUint32_setUint32 pre (payload ++ (setUint32 (crc32 payload) ++ post))
    payload.length small
  have body := payload_at pre payload (setUint32 (crc32 payload) ++ post) payload.length
  have checksum := getUint32_setUint32 (pre ++ (setUint32 payload.length ++ payload)) post
    (crc32 payload) (crc32_lt _)
  have crcStart : (pre ++ (setUint32 payload.length ++ payload)).length
      = pre.length + 4 + payload.length := by
    simp
    omega
  rw [crcStart] at checksum
  simp only [List.append_assoc] at checksum
  simp only [readFrame, recordLengthSize, frameCrcSize, List.append_assoc, length, body, checksum,
    decodes]
  rw [if_neg (by omega), if_neg (by omega), if_neg (by omega), if_neg (by simp)]
  simp only [Except.ok.injEq, Prod.mk.injEq, true_and, List.length_append, setUint32_length]
  omega

theorem frame_of_read {data : Bytes} {offset limit frameEnd : Nat} (inside : limit ≤ data.length)
    (h : readFrame codec data offset limit = .ok (entry, frameEnd)) :
    ∃ frame, Frame codec entry frame ∧ frameEnd = offset + frame.length ∧
      data.drop offset = frame ++ data.drop frameEnd := by
  simp only [readFrame, recordLengthSize, frameCrcSize] at h
  split_ifs at h with overruns range record checksum
  split at h
  · cases h
  next decoded decodes =>
    simp only [Except.ok.injEq, Prod.mk.injEq] at h
    obtain ⟨rfl, rfl⟩ := h
    have length : ((data.drop (offset + 4)).take (getUint32 data offset)).length
        = getUint32 data offset := by
      simp only [List.length_take, List.length_drop]
      omega
    have field := setUint32_getUint32 data offset (by omega)
    have sum := setUint32_getUint32 data (offset + 4 + getUint32 data offset) (by omega)
    refine ⟨_, .around ((data.drop (offset + 4)).take (getUint32 data offset)) (by omega)
      (by omega) decodes, ?_, ?_⟩
    · simp only [List.length_append, setUint32_length, length]
      omega
    · -- The three parts of the frame and what is left are the bytes from the offset on.
      rw [length, field, not_not.mp checksum, sum, List.append_assoc, List.append_assoc]
      have afterSum := List.take_append_drop 4 (data.drop (offset + 4 + getUint32 data offset))
      have afterPayload := List.take_append_drop (getUint32 data offset) (data.drop (offset + 4))
      have afterField := List.take_append_drop 4 (data.drop offset)
      simp only [List.drop_drop] at afterSum afterPayload afterField
      rw [afterSum, afterPayload, afterField]

end Narsil.Durability
