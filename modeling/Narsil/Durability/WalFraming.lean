import Narsil.Serialization.Crc32

/-!
# Framing of the write-ahead log

A segment is an eight byte header followed by frames: a big-endian length, the
encoded entry and its CRC. The durable region of a segment must parse to its
end; beyond it, reading stops at the first frame that does not parse.
-/
namespace Narsil.Durability

open Serialization

def walMagic : Bytes := [0x4e, 0x52, 0x53, 0x57]
def walFormatVersion : UInt8 := 1
abbrev segmentHeaderSize : Nat := 8
abbrev recordLengthSize : Nat := 4
abbrev frameCrcSize : Nat := 4
abbrev maxWalRecordBytes : Nat := 268435456

def setUint32 (n : Nat) : Bytes :=
  [(n / 2 ^ 24).toUInt8, (n / 2 ^ 16).toUInt8, (n / 2 ^ 8).toUInt8, n.toUInt8]

def getUint32 (data : Bytes) (offset : Nat) : Nat :=
  ((data.drop offset).take 4).foldl (fun acc byte => acc * 256 + byte.toNat) 0

def writeSegmentHeader : Bytes := walMagic ++ [walFormatVersion &&& 0xff, 0, 0, 0]

def frameRecord (codec : EntryCodec) (entry : ReplicationLogEntry) : Bytes :=
  let payload := codec.encode entry
  setUint32 payload.length ++ payload ++ setUint32 (crc32 payload)

inductive ErrorCode where
  | persistenceWalCorrupt
  | envelopeVersionMismatch
  | persistenceSaveFailed
  deriving DecidableEq, Repr

structure NarsilError where
  code : ErrorCode
  message : String
  deriving DecidableEq, Repr

def checkSegmentHeader (data : Bytes) : Except NarsilError Unit :=
  if data.length < segmentHeaderSize then
    .error ⟨.persistenceWalCorrupt, "segment shorter than the 8-byte header"⟩
  else if data.take walMagic.length ≠ walMagic then
    .error ⟨.persistenceWalCorrupt, "missing NRSW magic"⟩
  else if (data.getD 4 0) > walFormatVersion then
    .error ⟨.envelopeVersionMismatch, "WAL format version is newer than supported version"⟩
  else .ok ()

def computeEntryChecksum (codec : EntryCodec) (entry : ReplicationLogEntry) : Nat :=
  crc32 (codec.encodeFields entry)

def decodeWalEntry (codec : EntryCodec) (payload : Bytes) : Option ReplicationLogEntry := do
  let entry ← codec.decode payload
  if computeEntryChecksum codec entry ≠ entry.checksum then none else some entry

/-- Why a frame does not parse, in the order the source tests it. -/
inductive FrameFault where
  | lengthOverruns
  | lengthOutOfRange
  | recordOverruns
  | checksumMismatch
  | undecodable
  deriving DecidableEq, Repr

def FrameFault.message : FrameFault → String
  | lengthOverruns => "WAL record length field overruns the durable region"
  | lengthOutOfRange => "WAL record length is zero or exceeds the maximum record size"
  | recordOverruns => "WAL record overruns the durable region"
  | checksumMismatch => "WAL record failed its frame checksum inside the durable region"
  | undecodable => "WAL record payload failed to decode inside the durable region"

/-- The frame at `offset`, read no further than `limit`, with the offset behind it. -/
def readFrame (codec : EntryCodec) (data : Bytes) (offset limit : Nat) :
    Except FrameFault (ReplicationLogEntry × Nat) :=
  if offset + recordLengthSize > limit then .error .lengthOverruns
  else
    let recordLength := getUint32 data offset
    if recordLength = 0 ∨ recordLength > maxWalRecordBytes then .error .lengthOutOfRange
    else
      let payloadStart := offset + recordLengthSize
      let crcStart := payloadStart + recordLength
      let frameEnd := crcStart + frameCrcSize
      if frameEnd > limit then .error .recordOverruns
      else
        let payload := (data.drop payloadStart).take recordLength
        if crc32 payload ≠ getUint32 data crcStart then .error .checksumMismatch
        else
          match decodeWalEntry codec payload with
          | none => .error .undecodable
          | some entry => .ok (entry, frameEnd)

theorem readFrame_advances {codec : EntryCodec} {data : Bytes} {offset limit frameEnd : Nat}
    {entry : ReplicationLogEntry} (h : readFrame codec data offset limit = .ok (entry, frameEnd)) :
    offset < frameEnd ∧ frameEnd ≤ limit := by
  simp only [readFrame] at h
  split_ifs at h
  split at h
  · simp at h
  · simp only [Except.ok.injEq, Prod.mk.injEq, recordLengthSize, frameCrcSize] at h
    simp only [recordLengthSize, frameCrcSize] at *
    omega

def corrupt (message : String) : NarsilError := ⟨.persistenceWalCorrupt, message⟩

/-- The loop of `readDurableRegion`: every frame up to the durable byte length
must parse, and sequence numbers strictly increase. -/
def readDurableFrames (codec : EntryCodec) (data : Bytes) (durableByteLength offset : Nat)
    (entries : List ReplicationLogEntry) : Except NarsilError (List ReplicationLogEntry) :=
  if offset < durableByteLength then
    match _parsed : readFrame codec data offset durableByteLength with
    | .error fault => .error (corrupt fault.message)
    | .ok (entry, frameEnd) =>
      if entries.getLast?.any (fun previous => entry.seqNo ≤ previous.seqNo) then
        .error (corrupt "WAL sequence numbers are not strictly increasing")
      else readDurableFrames codec data durableByteLength frameEnd (entries ++ [entry])
  else .ok entries
termination_by durableByteLength - offset
decreasing_by
  have := readFrame_advances _parsed
  omega

def readDurableRegion (codec : EntryCodec) (data : Bytes) (durableByteLength : Nat) :
    Except NarsilError (List ReplicationLogEntry) :=
  match checkSegmentHeader data with
  | .error header =>
    .error ⟨header.code, "WAL segment header invalid in durable region: " ++ header.message⟩
  | .ok () =>
    if durableByteLength < segmentHeaderSize ∨ durableByteLength > data.length then
      .error (corrupt "Commit marker durable byte length is outside the segment")
    else readDurableFrames codec data durableByteLength segmentHeaderSize []

structure TailReadResult where
  entries : List ReplicationLogEntry
  cleanEnd : Nat
  deriving DecidableEq, Repr

/-- The loop of `readTailBeyondFrontier`: stop at the first frame that does not
parse or does not ascend. -/
def readTailFrames (codec : EntryCodec) (data : Bytes) (offset previousSeqNo : Nat)
    (entries : List ReplicationLogEntry) : TailReadResult :=
  if offset < data.length then
    match _parsed : readFrame codec data offset data.length with
    | .error _ => ⟨entries, offset⟩
    | .ok (entry, frameEnd) =>
      if entry.seqNo ≤ previousSeqNo then ⟨entries, offset⟩
      else readTailFrames codec data frameEnd entry.seqNo (entries ++ [entry])
  else ⟨entries, offset⟩
termination_by data.length - offset
decreasing_by
  have := readFrame_advances _parsed
  omega

def readTailBeyondFrontier (codec : EntryCodec) (data : Bytes)
    (durableByteLength lastDurableSeqNo : Nat) : TailReadResult :=
  let start := max durableByteLength segmentHeaderSize
  if start ≥ data.length then ⟨[], start⟩
  else readTailFrames codec data start lastDurableSeqNo []

end Narsil.Durability
