import Narsil.Serialization.Decoded

/-!
# The snapshot stream assembler

A snapshot arrives as frames: a start with its header and size, chunks in order, an
end. Each chunk is written to a spool file as it comes. The first failure of a
stream stays, and the spool file is removed with it.
-/
namespace Narsil.Replication

open Serialization (Number Decoded Fields crc32Init crc32Update crc32Final)

abbrev snapshotChunkSize : Nat := 65536

inductive SnapshotErrorCode where
  | restoreFailed
  | primaryError
  | headerInvalid
  | headerMismatch
  | frameInvalid
  | chunkOutOfOrder
  | chunkSizeExceeded
  | chunkOverflow
  | chunkMissing
  | checksumMismatch
  | decodeFailed
  | endMissing
  | aborted
  deriving DecidableEq, Repr

structure SnapshotStreamFailure where
  code : SnapshotErrorCode
  message : String
  deriving DecidableEq, Repr

/-- The partition is null where any partition of the index will do. -/
structure SnapshotStreamExpectation where
  indexName : String
  partitionId : Option Nat
  deriving DecidableEq, Repr

structure ReplicationSnapshotHeader where
  lastSeqNo : Nat
  primaryTerm : Nat
  partitionId : Nat
  indexName : String
  checksum : Nat
  deriving DecidableEq, Repr

structure SnapshotChunkPayload where
  partitionId : Number
  indexName : String
  offset : Number
  data : Bytes
  deriving DecidableEq, Repr

structure SnapshotEndPayload where
  partitionId : Number
  indexName : String
  totalBytes : Number
  checksum : Number
  deriving DecidableEq, Repr

structure SnapshotSpoolWriter where
  checksumState : UInt32
  totalBytes : Nat
  deriving DecidableEq, Repr

structure SnapshotStreamState where
  expectation : SnapshotStreamExpectation
  header : Option ReplicationSnapshotHeader
  totalBytes : Option Nat
  spool : Option SnapshotSpoolWriter
  accumulatedBytes : Nat
  expectedNextOffset : Nat
  endPayload : Option SnapshotEndPayload
  failure : Option SnapshotStreamFailure
  firstFrameSeen : Bool
  /-- The spool file, where it exists, and how many bytes were ever written to it. -/
  file : Option Bytes
  written : Nat
  deriving DecidableEq, Repr

/-- What the disk does while a frame is handled: the open fails, or a write fails
after some of its bytes. -/
structure SpoolEvents where
  openFails : Option String
  writeFails : Option (String × Nat)
  deriving DecidableEq, Repr

def createSnapshotStreamState (expectation : SnapshotStreamExpectation) : SnapshotStreamState :=
  ⟨expectation, none, none, none, 0, 0, none, none, false, none, 0⟩

def nonEmptyString (value : Option Decoded) (default : String) : String :=
  match Decoded.asString value with
  | some text => if text.length > 0 then text else default
  | none => default

/-- The fields of a start, where all have their types. -/
def startFields (record : Fields) : Option (String × Number × Number × Number × Number × Number) := do
  let totalBytes ← Decoded.asNumber (record.lookup "totalBytes")
  let header ← Decoded.asObject (record.lookup "header")
  let indexName ← Decoded.asString (header.lookup "indexName")
  let checksum ← Decoded.asNumber (header.lookup "checksum")
  let partitionId ← Decoded.asNumber (header.lookup "partitionId")
  let lastSeqNo ← Decoded.asNumber (header.lookup "lastSeqNo")
  let primaryTerm ← Decoded.asNumber (header.lookup "primaryTerm")
  some (indexName, checksum, partitionId, lastSeqNo, primaryTerm, totalBytes)

/-- The checks of a start, in their order. -/
def readStart (expectation : SnapshotStreamExpectation) (record : Fields) :
    Except SnapshotStreamFailure (ReplicationSnapshotHeader × Nat) :=
  match startFields record with
  | none => .error ⟨.headerInvalid, "expected SNAPSHOT_START as first frame"⟩
  | some (indexName, checksum, partitionId, lastSeqNo, primaryTerm, totalBytes) =>
    if indexName ≠ expectation.indexName then
      .error ⟨.headerMismatch, "snapshot header indexName mismatch"⟩
    else if expectation.partitionId.any fun expected => partitionId ≠ .integer expected then
      .error ⟨.headerMismatch, "snapshot header partitionId mismatch"⟩
    else
      match checksum.safe with
      | none => .error ⟨.headerInvalid, "header.checksum must be a non-negative integer"⟩
      | some checksum =>
      match partitionId.safe with
      | none => .error ⟨.headerInvalid, "header.partitionId must be a non-negative integer"⟩
      | some partitionId =>
      match lastSeqNo.safe with
      | none => .error ⟨.headerInvalid, "header.lastSeqNo must be a non-negative integer"⟩
      | some lastSeqNo =>
      match primaryTerm.safe with
      | none => .error ⟨.headerInvalid, "header.primaryTerm must be a non-negative integer"⟩
      | some primaryTerm =>
      match totalBytes.safe with
      | none => .error ⟨.headerInvalid, "totalBytes must be a non-negative integer"⟩
      | some totalBytes => .ok (⟨lastSeqNo, primaryTerm, partitionId, indexName, checksum⟩, totalBytes)

namespace SnapshotStreamState

def releaseSpool (state : SnapshotStreamState) : SnapshotStreamState :=
  match state.spool with
  | none => state
  | some _ => { state with spool := none, file := none }

def fail (state : SnapshotStreamState) (code : SnapshotErrorCode) (message : String) :
    SnapshotStreamState :=
  match state.failure with
  | some _ => state
  | none => { state with failure := some ⟨code, message⟩ }.releaseSpool

def spoolFailure (state : SnapshotStreamState) (cause : String) : SnapshotStreamState :=
  state.fail .restoreFailed ("the snapshot could not be written to local storage: " ++ cause)

def applyErrorEnvelope (state : SnapshotStreamState) (record : Fields) : SnapshotStreamState :=
  state.fail .primaryError ("primary error: "
    ++ nonEmptyString (record.lookup "message") "primary returned error envelope")

def applyStartPayload (events : SpoolEvents) (state : SnapshotStreamState) (record : Fields) :
    SnapshotStreamState :=
  match readStart state.expectation record with
  | .error failure => state.fail failure.code failure.message
  | .ok (header, totalBytes) =>
    match events.openFails with
    | some cause => state.spoolFailure cause
    | none =>
      { state with spool := some ⟨crc32Init, 0⟩, file := some [], header := some header
                   totalBytes := some totalBytes }

/-- The writer's `write`: all bytes, or those before a failing call. -/
def spoolWrite (events : SpoolEvents) (state : SnapshotStreamState) (spool : SnapshotSpoolWriter)
    (data : Bytes) : SnapshotStreamState × Option String :=
  let wrote (state : SnapshotStreamState) (bytes : Bytes) :=
    { state with file := state.file.map (· ++ bytes), written := state.written + bytes.length }
  match events.writeFails with
  | some (cause, reached) =>
    if data = [] then ({ state with spool := some spool }, none)
    else (wrote state (data.take reached), some cause)
  | none =>
    (wrote { state with spool := some ⟨crc32Update spool.checksumState data,
                                       spool.totalBytes + data.length⟩ } data, none)

def applyChunkPayload (events : SpoolEvents) (state : SnapshotStreamState)
    (payload : SnapshotChunkPayload) : SnapshotStreamState :=
  match state.totalBytes, state.header with
  | some totalBytes, some header =>
    match payload.offset.safe with
    | none => state.fail .chunkOutOfOrder "chunk offset must be a non-negative integer"
    | some offset =>
    match payload.partitionId.safe with
    | none => state.fail .headerMismatch "chunk partitionId must be a non-negative integer"
    | some partitionId =>
      if payload.indexName ≠ header.indexName then
        state.fail .headerMismatch "chunk indexName does not match header"
      else if partitionId ≠ header.partitionId then
        state.fail .headerMismatch "chunk partitionId does not match header"
      else if offset ≠ state.expectedNextOffset then
        state.fail .chunkOutOfOrder "chunk arrived out of order"
      else if payload.data.length > min snapshotChunkSize (totalBytes - state.accumulatedBytes) then
        state.fail .chunkSizeExceeded "chunk exceeds the per-chunk size limit"
      else if state.accumulatedBytes + payload.data.length > totalBytes then
        state.fail .chunkOverflow "chunk overflow beyond declared totalBytes"
      else
        match state.spool with
        | none => state.fail .frameInvalid "received chunk after the snapshot stream closed"
        | some spool =>
          match state.spoolWrite events spool payload.data with
          | (state, some cause) => state.spoolFailure cause
          | (written, none) =>
            { written with accumulatedBytes := state.accumulatedBytes + payload.data.length
                           expectedNextOffset := offset + payload.data.length }
  | _, _ => state.fail .frameInvalid "received chunk before SNAPSHOT_START"

def applyEndPayload (state : SnapshotStreamState) (payload : SnapshotEndPayload) :
    SnapshotStreamState :=
  match state.header, state.totalBytes with
  | some header, some totalBytes =>
    if payload.indexName ≠ header.indexName then
      state.fail .headerMismatch "end indexName does not match header"
    else if payload.partitionId ≠ .integer header.partitionId then
      state.fail .headerMismatch "end partitionId does not match header"
    else if payload.totalBytes.safe ≠ some totalBytes then
      state.fail .headerMismatch "end totalBytes does not match SNAPSHOT_START"
    else if payload.checksum.safe ≠ some header.checksum then
      state.fail .checksumMismatch "end checksum does not match header"
    else { state with endPayload := some payload }
  | _, _ => state.fail .frameInvalid "received SNAPSHOT_END before SNAPSHOT_START"

end SnapshotStreamState

inductive FrameShape where
  | chunk (payload : SnapshotChunkPayload)
  | end_ (payload : SnapshotEndPayload)
  | unknown
  deriving DecidableEq, Repr

def classifyFrameShape (record : Fields) : FrameShape :=
  match Decoded.asNumber (record.lookup "partitionId"), Decoded.asString (record.lookup "indexName") with
  | some partitionId, some indexName =>
    match Decoded.asNumber (record.lookup "offset"), Decoded.asBinary (record.lookup "data"),
      Decoded.asNumber (record.lookup "checksum"), Decoded.asNumber (record.lookup "totalBytes") with
    | some offset, some data, none, none => .chunk ⟨partitionId, indexName, offset, data⟩
    | none, none, some checksum, some totalBytes => .end_ ⟨partitionId, indexName, totalBytes, checksum⟩
    | _, _, _, _ => .unknown
  | _, _ => .unknown

def isErrorEnvelope (record : Fields) : Bool :=
  match record.lookup "error" with
  | some (.boolean true) => true
  | _ => false

def handleIncomingSnapshotRecord (events : SpoolEvents) (state : SnapshotStreamState) (record : Fields) :
    SnapshotStreamState :=
  if state.failure.isSome then state
  else if isErrorEnvelope record then state.applyErrorEnvelope record
  else if ¬ state.firstFrameSeen then
    { state with firstFrameSeen := true }.applyStartPayload events record
  else
    match classifyFrameShape record with
    | .chunk payload => state.applyChunkPayload events payload
    | .end_ payload => state.applyEndPayload payload
    | .unknown => state.fail .frameInvalid "unrecognised snapshot frame shape"

/-- `decode` is the MessagePack package: a value, or the text of the error it throws. -/
def handleIncomingSnapshotFrame (decode : Bytes → Except String Decoded) (events : SpoolEvents)
    (state : SnapshotStreamState) (frame : Bytes) : SnapshotStreamState :=
  if state.failure.isSome then state
  else
    match decode frame with
    | .error _ => state.fail .decodeFailed "failed to decode snapshot frame"
    | .ok (.object record) => handleIncomingSnapshotRecord events state record
    | .ok _ => state.fail .frameInvalid "snapshot frame is not an object"

def abandonSnapshotStream (state : SnapshotStreamState) : SnapshotStreamState :=
  (state.fail .aborted "the snapshot stream was abandoned before it finished").releaseSpool

/-- A finished spool file with its size and checksum. -/
structure SpooledSnapshot where
  contents : Bytes
  totalBytes : Nat
  checksum : Nat
  deriving DecidableEq, Repr

structure SnapshotStreamSuccess where
  snapshot : SpooledSnapshot
  header : ReplicationSnapshotHeader
  endPayload : SnapshotEndPayload
  deriving DecidableEq, Repr

/-- The spool file of a settled stream is the caller's. -/
def settleSnapshotStream (state : SnapshotStreamState) :
    SnapshotStreamState × Except SnapshotStreamFailure SnapshotStreamSuccess :=
  match state.failure with
  | some failure => (state, .error failure)
  | none =>
  match state.header, state.totalBytes with
  | some header, some totalBytes =>
    match state.endPayload with
    | none => (state, .error ⟨.endMissing, "stream ended without SNAPSHOT_END"⟩)
    | some endPayload =>
      if state.accumulatedBytes ≠ totalBytes then
        (state, .error ⟨.chunkMissing, "stream ended with byte count mismatch"⟩)
      else
        match state.spool with
        | none => (state, .error ⟨.frameInvalid, "the snapshot stream was already settled"⟩)
        | some spool =>
          if crc32Final spool.checksumState ≠ header.checksum then
            (state, .error ⟨.checksumMismatch, "computed checksum does not match header checksum"⟩)
          else
            ({ state with spool := none }, .ok ⟨⟨state.file.getD [], spool.totalBytes,
              crc32Final spool.checksumState⟩, header, endPayload⟩)
  | _, _ => (state, .error ⟨.chunkMissing, "stream ended before SNAPSHOT_START was received"⟩)

def finalizeSnapshotStream (state : SnapshotStreamState) :
    SnapshotStreamState × Except SnapshotStreamFailure SnapshotStreamSuccess :=
  match settleSnapshotStream state with
  | (state, .ok success) => (state, .ok success)
  | (state, .error failure) => (state.releaseSpool, .error failure)

end Narsil.Replication
