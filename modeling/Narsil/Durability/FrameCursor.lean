import Narsil.Durability.FrameReading

/-!
# The frame cursor

A segment is read in chunks: bytes that the buffer holds are taken from it, others are loaded first.
What is read are the bytes of the file, whatever the buffer held before.
-/
namespace Narsil.Durability

open Serialization

abbrev LOG_READ_CHUNK_BYTES : Nat := 1048576

structure LogFrame where
  seqNo : Nat
  payload : Bytes
  frameBytes : Nat
  deriving DecidableEq

inductive ReadError
  | segmentFileMissing
  /-- A range that ends behind the file, as the directory refuses it. -/
  | loadFailed
  | walCorrupt (message : String)
  /-- The loop ran out of the steps the model allows it. -/
  | outOfSteps
  deriving DecidableEq

/-- A segment file, how much of it may be read, and whether the directory reads ranges. -/
structure CursorFile where
  file : Option Bytes
  limit : Nat
  readsRanges : Bool

structure CursorState where
  buffer : Bytes
  bufferStart : Nat
  whole : Option Bytes

abbrev CursorM : Type → Type := StateT CursorState (Except ReadError)

def CursorState.fresh : CursorState := ⟨[], 0, none⟩

section Cursor
variable (codec : EntryCodec) (source : CursorFile)

def readRange (file : Bytes) (offset length : Nat) : Except ReadError Bytes :=
  if offset + length > file.length then .error .loadFailed else .ok ((file.drop offset).take length)

def load (offset length : Nat) : CursorM Unit := fun state =>
  if source.readsRanges then
    let wanted := min (max length LOG_READ_CHUNK_BYTES) (source.limit - offset)
    match source.file with
    | none => .error .segmentFileMissing
    | some file =>
      match readRange file offset wanted with
      | .error thrown => .error thrown
      | .ok buffer => .ok ((), { state with buffer := buffer, bufferStart := offset })
  else
    match state.whole.or source.file with
    | none => .error .segmentFileMissing
    | some bytes => .ok ((), ⟨bytes, 0, some bytes⟩)

def bytesAt (offset length : Nat) : CursorM Bytes := fun state =>
  let finish := offset + length
  if finish > source.limit then .error (.walCorrupt "A log frame overruns the readable region")
  else
    let loaded :=
      if offset < state.bufferStart ∨ finish > state.bufferStart + state.buffer.length then load source offset length state
      else .ok ((), state)
    match loaded with
    | .error thrown => .error thrown
    | .ok ((), state) => .ok ((state.buffer.drop (offset - state.bufferStart)).take (finish - offset), state)

def checkHeader : CursorM Unit := do
  if source.limit < segmentHeaderSize then throw (.walCorrupt "A log segment is shorter than its header")
  match checkSegmentHeader (← bytesAt source 0 segmentHeaderSize) with
  | .ok () => return ()
  | .error reason => throw (.walCorrupt ("A log segment header is invalid: " ++ reason.message))

def frameLengthAt (offset : Nat) : CursorM Nat := do
  let recordLength := getUint32 (← bytesAt source offset recordLengthSize) 0
  if recordLength = 0 ∨ recordLength > maxWalRecordBytes then
    throw (.walCorrupt "A log record length is zero or above the largest record")
  return recordLengthSize + recordLength + frameCrcSize

def frameAt (offset frameBytes : Nat) : CursorM LogFrame := do
  let recordLength := frameBytes - recordLengthSize - frameCrcSize
  let body ← bytesAt source (offset + recordLengthSize) (recordLength + frameCrcSize)
  let payload := body.take recordLength
  if crc32 payload ≠ getUint32 body recordLength then throw (.walCorrupt "A log record fails its frame checksum")
  match decodeWalEntry codec payload with
  | none => throw (.walCorrupt "A log record fails to decode")
  | some entry => return ⟨entry.seqNo, payload, frameBytes⟩

end Cursor

/-- The step succeeds with this result, and leaves the cursor with a part of the file. -/
structure Follows (file : Bytes) (state : CursorState) : Prop where
  holds : state.buffer = (file.drop state.bufferStart).take state.buffer.length
  within : state.bufferStart + state.buffer.length ≤ file.length
  whole : ∀ bytes, state.whole = some bytes → bytes = file

def Yields {α : Type} (file : Bytes) (step : CursorM α) (result : α) : Prop :=
  ∀ state, Follows file state → ∃ after, step state = .ok (result, after) ∧ Follows file after

theorem Follows.fresh (file : Bytes) : Follows file CursorState.fresh := ⟨by simp [CursorState.fresh], by simp [CursorState.fresh], nofun⟩

section Yields
variable {file : Bytes} {α β : Type}

theorem Yields.pure (result : α) : Yields file (pure result) result := fun state follows => ⟨state, rfl, follows⟩

theorem Yields.bind {step : CursorM α} {next : α → CursorM β} {value : α} {result : β} (first : Yields file step value)
    (second : Yields file (next value) result) : Yields file (step >>= next) result := by
  intro state follows
  obtain ⟨middle, done, follows⟩ := first state follows
  obtain ⟨after, finished, follows⟩ := second middle follows
  refine ⟨after, ?_, follows⟩
  change (step >>= next).run state = _
  rw [StateT.run_bind]
  change (step state >>= fun p => next p.1 p.2) = _
  rw [done]
  exact finished

variable {codec : EntryCodec} {source : CursorFile}

/-- The readable part of a file that is there. -/
structure Readable (source : CursorFile) (file : Bytes) : Prop where
  present : source.file = some file
  within : source.limit ≤ file.length

theorem take_drop_within {start offset size length : Nat} (after : start ≤ offset) (inside : offset + length ≤ start + size) :
    (((file.drop start).take size).drop (offset - start)).take length = (file.drop offset).take length := by
  rw [List.drop_take, List.drop_drop, Nat.add_sub_cancel' after, List.take_take, Nat.min_eq_left (by omega)]

theorem load_follows (readable : Readable source file) {offset length : Nat} (inside : offset + length ≤ source.limit)
    {state : CursorState} (follows : Follows file state) :
    ∃ after, load source offset length state = .ok ((), after) ∧ Follows file after ∧ after.bufferStart ≤ offset ∧
      offset + length ≤ after.bufferStart + after.buffer.length := by
  have fits := readable.within
  rw [load]
  by_cases ranges : source.readsRanges = true
  · rw [if_pos ranges, readable.present]
    have enough : offset + min (max length LOG_READ_CHUNK_BYTES) (source.limit - offset) ≤ file.length := by omega
    have size : ((file.drop offset).take (min (max length LOG_READ_CHUNK_BYTES) (source.limit - offset))).length =
        min (max length LOG_READ_CHUNK_BYTES) (source.limit - offset) := by
      rw [List.length_take, List.length_drop]
      omega
    simp only [readRange]
    rw [if_neg (by omega)]
    refine ⟨_, rfl, ⟨?_, ?_, follows.whole⟩, Nat.le_refl _, ?_⟩
    · simp only [size]
    · simp only [size]
      exact enough
    · simp only [size]
      omega
  · rw [if_neg ranges]
    have found : state.whole.or source.file = some file := by
      cases held : state.whole with
      | none => rw [Option.none_or, readable.present]
      | some bytes => rw [Option.some_or, follows.whole bytes held]
    simp only [found]
    refine ⟨_, rfl, ⟨?_, ?_, ?_⟩, Nat.zero_le _, ?_⟩
    · simp
    · simp
    · rintro bytes ⟨⟩
      rfl
    · simp only
      omega

theorem bytesAt_yields (readable : Readable source file) {offset length : Nat} (inside : offset + length ≤ source.limit) :
    Yields file (bytesAt source offset length) ((file.drop offset).take length) := by
  intro state follows
  have taken : ∀ after : CursorState, Follows file after → after.bufferStart ≤ offset →
      offset + length ≤ after.bufferStart + after.buffer.length →
      (after.buffer.drop (offset - after.bufferStart)).take (offset + length - offset) = (file.drop offset).take length := by
    intro after follows start finish
    rw [follows.holds, Nat.add_sub_cancel_left]
    exact take_drop_within start finish
  rw [bytesAt, if_neg (by omega)]
  by_cases missing : offset < state.bufferStart ∨ offset + length > state.bufferStart + state.buffer.length
  · obtain ⟨after, loads, follows, start, finish⟩ := load_follows readable inside follows
    simp only [if_pos missing, loads, taken after follows start finish]
    exact ⟨after, rfl, follows⟩
  · simp only [if_neg missing, taken state follows (by omega) (by omega)]
    exact ⟨state, rfl, follows⟩

theorem checkHeader_yields (readable : Readable source file) (long : segmentHeaderSize ≤ source.limit)
    (header : checkSegmentHeader (file.take segmentHeaderSize) = .ok ()) : Yields file (checkHeader source) () := by
  have bytes := bytesAt_yields readable (show 0 + segmentHeaderSize ≤ source.limit by omega)
  rw [List.drop_zero] at bytes
  rw [checkHeader, if_neg (by omega)]
  refine bytes.bind ?_
  rw [header]
  exact .pure ()

/-- A record as it stands in a segment. -/
structure LogRecord (codec : EntryCodec) where
  payload : Bytes
  entry : ReplicationLogEntry
  nonempty : 0 < payload.length
  fits : payload.length ≤ maxWalRecordBytes
  decodes : decodeWalEntry codec payload = some entry

def LogRecord.bytes (record : LogRecord codec) : Bytes :=
  setUint32 record.payload.length ++ record.payload ++ setUint32 (crc32 record.payload)

def LogRecord.frame (record : LogRecord codec) : LogFrame :=
  ⟨record.entry.seqNo, record.payload, record.bytes.length⟩

theorem LogRecord.bytes_length (record : LogRecord codec) : record.bytes.length = record.payload.length + 8 := by
  simp only [bytes, List.length_append, setUint32_length]
  omega

theorem LogRecord.small (record : LogRecord codec) : record.payload.length < 2 ^ 32 :=
  Nat.lt_of_le_of_lt record.fits (by decide)

theorem frameLengthAt_yields (readable : Readable source file) {offset : Nat} {record : LogRecord codec} {more : Bytes}
    (here : file.drop offset = record.bytes ++ more) (inside : offset + record.bytes.length ≤ source.limit) :
    Yields file (frameLengthAt source offset) record.bytes.length := by
  have size := record.bytes_length
  have bytes := bytesAt_yields readable (show offset + recordLengthSize ≤ source.limit by simp only [recordLengthSize]; omega)
  have length : getUint32 ((file.drop offset).take recordLengthSize) 0 = record.payload.length := by
    have read := getUint32_setUint32 [] [] record.payload.length record.small
    rw [here, LogRecord.bytes, List.append_assoc, List.append_assoc, List.take_append_of_le_length (by simp),
      List.take_of_length_le (by simp)]
    simpa using read
  refine bytes.bind ?_
  simp only [length]
  rw [if_neg (by have := record.nonempty; have := record.fits; omega)]
  rw [size, show recordLengthSize + record.payload.length + frameCrcSize = record.payload.length + 8 by
    simp only [recordLengthSize, frameCrcSize]; omega]
  exact .pure _

theorem frameAt_yields (readable : Readable source file) {offset : Nat} {record : LogRecord codec} {more : Bytes}
    (here : file.drop offset = record.bytes ++ more) (inside : offset + record.bytes.length ≤ source.limit) :
    Yields file (frameAt codec source offset record.bytes.length) record.frame := by
  have size := record.bytes_length
  have recordLength : record.bytes.length - recordLengthSize - frameCrcSize = record.payload.length := by
    simp only [recordLengthSize, frameCrcSize]
    omega
  have bytes := bytesAt_yields readable
    (show offset + recordLengthSize + (record.payload.length + frameCrcSize) ≤ source.limit by
      simp only [recordLengthSize, frameCrcSize]; omega)
  have body : (file.drop (offset + recordLengthSize)).take (record.payload.length + frameCrcSize) =
      record.payload ++ setUint32 (crc32 record.payload) := by
    rw [← List.drop_drop, here, LogRecord.bytes, List.append_assoc, List.append_assoc, List.drop_left' (by simp),
      ← List.append_assoc, List.take_left' (by simp)]
  rw [body] at bytes
  have checksum : getUint32 (record.payload ++ setUint32 (crc32 record.payload)) record.payload.length =
      crc32 record.payload := by
    have read := getUint32_setUint32 record.payload [] (crc32 record.payload) (crc32_lt _)
    rwa [List.append_nil] at read
  rw [frameAt, recordLength]
  refine bytes.bind ?_
  simp only [List.take_left, checksum, ne_eq, not_true_eq_false, if_false, record.decodes]
  exact .pure _

end Yields

end Narsil.Durability
