import Narsil.Assoc.Entries
import Narsil.MessagePack.Format
import Narsil.Serialization.ValueCodec

/-!
# The queue log of a device

The log is a list of frames, each with the length and the checksum of its record. A record
is of a write, of removed writes, or of the sequence number that comes next.
-/
namespace Narsil.DeviceQueue

open Serialization MessagePack

def STORE_FRAME_LIMIT_BYTES : Nat := 256 * 1024 * 1024
def FRAME_HEADER_BYTES : Nat := 8

def frameOf (payload : Bytes) : Bytes :=
  bigEndian 4 payload.length ++ (bigEndian 4 (crc32 payload) ++ payload)

/-- The payload of the first frame, and what is behind it. -/
def nextFrame (bytes : Bytes) : Option (Bytes × Bytes) :=
  if bytes.length < FRAME_HEADER_BYTES then none
  else
    let length := ofBigEndian (bytes.take 4)
    let checksum := ofBigEndian ((bytes.drop 4).take 4)
    let payload := (bytes.drop FRAME_HEADER_BYTES).take length
    if STORE_FRAME_LIMIT_BYTES < length ∨ bytes.length < FRAME_HEADER_BYTES + length then none
    else if crc32 payload ≠ checksum then none
    else some (payload, bytes.drop (FRAME_HEADER_BYTES + length))

theorem nextFrame_shortens {bytes payload rest : Bytes} (found : nextFrame bytes = some (payload, rest)) :
    rest.length < bytes.length := by
  rw [nextFrame, Option.ite_none_left_eq_some] at found
  dsimp only at found
  rw [Option.ite_none_left_eq_some, Option.ite_none_left_eq_some] at found
  obtain ⟨header, _, _, found⟩ := found
  obtain ⟨_, rfl⟩ := Prod.mk.inj (Option.some.inj found)
  rw [FRAME_HEADER_BYTES] at header ⊢
  rw [List.length_drop]
  omega

/-- The payloads of the frames, and the length they take up. -/
def readFrames (bytes : Bytes) : List Bytes × Nat :=
  match _found : nextFrame bytes with
  | none => ([], 0)
  | some (payload, rest) =>
    (payload :: (readFrames rest).1, FRAME_HEADER_BYTES + payload.length + (readFrames rest).2)
termination_by bytes.length
decreasing_by all_goals exact nextFrame_shortens _found

section Frames
variable {payload : Bytes}

theorem frameOf_length (payload : Bytes) : (frameOf payload).length = FRAME_HEADER_BYTES + payload.length := by
  rw [frameOf, List.length_append, List.length_append, bigEndian_length, bigEndian_length, FRAME_HEADER_BYTES]
  omega

theorem length_read (small : payload.length < 2 ^ 32) (behind : Bytes) :
    ofBigEndian ((frameOf payload ++ behind).take 4) = payload.length := by
  rw [frameOf, List.append_assoc, List.take_left' (bigEndian_length 4 _), ofBigEndian_bigEndian]
  exact Nat.mod_eq_of_lt small

theorem checksum_read (payload behind : Bytes) :
    ofBigEndian (((frameOf payload ++ behind).drop 4).take 4) = crc32 payload := by
  rw [frameOf, List.append_assoc, List.drop_left' (bigEndian_length 4 _), List.append_assoc,
    List.take_left' (bigEndian_length 4 _), ofBigEndian_bigEndian]
  exact Nat.mod_eq_of_lt (crc32_lt payload)

theorem behind_header (payload behind : Bytes) :
    (frameOf payload ++ behind).drop FRAME_HEADER_BYTES = payload ++ behind := by
  rw [frameOf, ← List.append_assoc, List.append_assoc, List.drop_left']
  rw [List.length_append, bigEndian_length, bigEndian_length, FRAME_HEADER_BYTES]

theorem small_of_short (short : payload.length ≤ STORE_FRAME_LIMIT_BYTES) : payload.length < 2 ^ 32 := by
  rw [STORE_FRAME_LIMIT_BYTES] at short
  omega

theorem nextFrame_frameOf (short : payload.length ≤ STORE_FRAME_LIMIT_BYTES) (behind : Bytes) :
    nextFrame (frameOf payload ++ behind) = some (payload, behind) := by
  have total : (frameOf payload ++ behind).length = FRAME_HEADER_BYTES + payload.length + behind.length := by
    rw [List.length_append, frameOf_length]
  rw [nextFrame, if_neg (by omega)]
  dsimp only
  rw [length_read (small_of_short short), checksum_read, behind_header, List.take_left, if_neg (by omega),
    if_neg (fun differs => differs rfl), List.drop_left' (frameOf_length payload)]

theorem nextFrame_torn (short : payload.length ≤ STORE_FRAME_LIMIT_BYTES) {cut : Nat}
    (torn : cut < (frameOf payload).length) : nextFrame ((frameOf payload).take cut) = none := by
  rw [frameOf_length] at torn
  have length : ((frameOf payload).take cut).length = cut := by
    rw [List.length_take, frameOf_length]
    omega
  rw [nextFrame]
  by_cases header : cut < FRAME_HEADER_BYTES
  · rw [if_pos (by omega)]
  · rw [if_neg (by omega)]
    dsimp only
    have stated : ofBigEndian (((frameOf payload).take cut).take 4) = payload.length := by
      rw [FRAME_HEADER_BYTES] at header
      rw [List.take_take, Nat.min_eq_left (by omega), ← List.append_nil (frameOf payload)]
      exact length_read (small_of_short short) []
    rw [stated, if_pos (by omega)]

theorem nextFrame_long (long : STORE_FRAME_LIMIT_BYTES < payload.length) (small : payload.length < 2 ^ 32)
    (behind : Bytes) : nextFrame (frameOf payload ++ behind) = none := by
  rw [nextFrame, if_neg (by rw [List.length_append, frameOf_length]; omega)]
  dsimp only
  rw [length_read small, if_pos (Or.inl long)]

theorem readFrames_none {bytes : Bytes} (none_left : nextFrame bytes = none) : readFrames bytes = ([], 0) := by
  rw [readFrames]
  split
  · rfl
  · next found => rw [none_left] at found; exact absurd found (by simp)

theorem readFrames_cons {bytes rest : Bytes} (found : nextFrame bytes = some (payload, rest)) : readFrames bytes =
    (payload :: (readFrames rest).1, FRAME_HEADER_BYTES + payload.length + (readFrames rest).2) := by
  rw [readFrames]
  split
  · next none_left => rw [found] at none_left; exact absurd none_left (by simp)
  · next again =>
    rw [found] at again
    obtain ⟨rfl, rfl⟩ := Prod.mk.inj (Option.some.inj again)
    rfl

def framesOf (payloads : List Bytes) : Bytes := (payloads.map frameOf).flatten

theorem framesOf_append (payloads others : List Bytes) :
    framesOf (payloads ++ others) = framesOf payloads ++ framesOf others := by
  rw [framesOf, List.map_append, List.flatten_append]
  rfl

theorem readFrames_framesOf {payloads : List Bytes}
    (short : ∀ payload ∈ payloads, payload.length ≤ STORE_FRAME_LIMIT_BYTES) {torn : Bytes}
    (none_left : nextFrame torn = none) :
    readFrames (framesOf payloads ++ torn) = (payloads, (framesOf payloads).length) := by
  induction payloads with
  | nil => exact readFrames_none none_left
  | cons payload rest ih =>
    obtain ⟨first, others⟩ := List.forall_mem_cons.mp short
    have whole : framesOf (payload :: rest) ++ torn = frameOf payload ++ (framesOf rest ++ torn) := by
      rw [framesOf, List.map_cons, List.flatten_cons, List.append_assoc]
      rfl
    rw [whole, readFrames_cons (nextFrame_frameOf first _), ih others, ← frameOf_length, ← List.length_append]
    rfl

theorem nextFrame_nil : nextFrame [] = none := rfl

end Frames

/-- A write that waits to be uploaded; no document is a removal. -/
structure QueuedWrite where
  sequence : Nat
  documentId : String
  document : Option Fields

inductive QueueRecord
  | write (write : QueuedWrite)
  | removed (sequences : List Nat)
  | next (sequence : Nat)

def countValue (value : Nat) : Decoded := .number (.integer value)

def QueuedWrite.value (write : QueuedWrite) : Decoded :=
  .object [("sequence", countValue write.sequence), ("documentId", .string write.documentId),
    ("document", write.document.elim .null .object)]

def QueueRecord.value : QueueRecord → Decoded
  | .write queued => .object [("type", .string "write"), ("write", queued.value)]
  | .removed sequences => .object [("type", .string "removed"), ("sequences", .array (sequences.map countValue))]
  | .next sequence => .object [("type", .string "next"), ("sequence", countValue sequence)]

def encodeQueueRecord (codec : ValueCodec) (record : QueueRecord) : Option Bytes := codec.encode record.value

def isCount : Decoded → Option Nat
  | .number value => value.safe
  | _ => none

def readWrite (write : Fields) : Option QueuedWrite :=
  match (Assoc.lookup write "sequence").bind isCount, Assoc.lookup write "documentId" with
  | some sequence, some (.string documentId) =>
    match Assoc.lookup write "document" with
    | none | some .null => some ⟨sequence, documentId, none⟩
    | some (.object document) => some ⟨sequence, documentId, some document⟩
    | some _ => none
  | _, _ => none

def readRecord (raw : Fields) : Option QueueRecord :=
  match Assoc.lookup raw "type" with
  | some (.string "next") => ((Assoc.lookup raw "sequence").bind isCount).map .next
  | some (.string "removed") =>
    match Assoc.lookup raw "sequences" with
    | some (.array sequences) => (sequences.mapM isCount).map .removed
    | _ => none
  | some (.string "write") =>
    match Assoc.lookup raw "write" with
    | some (.object write) => (readWrite write).map .write
    | _ => none
  | _ => none

def damaged (detail : String) : String := s!"The device sync store is damaged: {detail}"

def decodeQueueRecord (codec : ValueCodec) (bytes : Bytes) : Except String QueueRecord :=
  match codec.decode bytes with
  | .error message => .error message
  | .ok (.object raw) =>
    match readRecord raw with
    | some record => .ok record
    | none => .error (damaged "a queue record is invalid")
  | .ok _ => .error (damaged "a queue record is not a map")

/-- The sequence numbers are ones the language counts exactly. -/
def QueueRecord.Safe : QueueRecord → Prop
  | .write queued => queued.sequence ≤ maxSafeInteger
  | .removed sequences => ∀ sequence ∈ sequences, sequence ≤ maxSafeInteger
  | .next sequence => sequence ≤ maxSafeInteger

theorem isCount_countValue {value : Nat} (safe : value ≤ maxSafeInteger) : isCount (countValue value) = some value := by
  rw [countValue, isCount, Number.safe, if_pos (by omega), Int.toNat_natCast]

theorem mapM_isCount {sequences : List Nat} (safe : ∀ sequence ∈ sequences, sequence ≤ maxSafeInteger) :
    (sequences.map countValue).mapM isCount = some sequences := by
  induction sequences with
  | nil => rfl
  | cons sequence rest ih =>
    obtain ⟨first, others⟩ := List.forall_mem_cons.mp safe
    rw [List.map_cons, List.mapM_cons, isCount_countValue first, ih others]
    rfl

theorem decodeQueueRecord_value {codec : ValueCodec} {record : QueueRecord} {bytes : Bytes} (safe : record.Safe)
    (decoded : codec.decode bytes = .ok record.value) : decodeQueueRecord codec bytes = .ok record := by
  have from_read : ∀ raw, record.value = .object raw → readRecord raw = some record →
      decodeQueueRecord codec bytes = .ok record := by
    intro raw value_is read
    rw [decodeQueueRecord, decoded, value_is]
    dsimp only
    rw [read]
  cases record with
  | next sequence =>
    have count : isCount (countValue sequence) = some sequence := isCount_countValue safe
    refine from_read _ rfl ?_
    show ((some (countValue sequence)).bind isCount).map QueueRecord.next = _
    rw [Option.bind_some, count]
    rfl
  | removed sequences =>
    have counts : (sequences.map countValue).mapM isCount = some sequences := mapM_isCount safe
    refine from_read _ rfl ?_
    show ((sequences.map countValue).mapM isCount).map QueueRecord.removed = _
    rw [counts]
    rfl
  | write queued =>
    obtain ⟨sequence, documentId, document⟩ := queued
    have count : (Assoc.lookup [("sequence", countValue sequence), ("documentId", .string documentId),
        ("document", document.elim .null .object)] "sequence").bind isCount = some sequence := isCount_countValue safe
    have read : readWrite [("sequence", countValue sequence), ("documentId", .string documentId),
        ("document", document.elim .null .object)] = some ⟨sequence, documentId, document⟩ := by
      rw [readWrite, count]
      cases document <;> rfl
    refine from_read _ rfl ?_
    show (readWrite _).map QueueRecord.write = _
    rw [read]
    rfl

end Narsil.DeviceQueue
