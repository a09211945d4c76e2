import Narsil.Assoc.Entries
import Narsil.Durability.CommitMarker
import Narsil.Durability.FrameCursor
import Mathlib.Data.List.Sort

/-!
# Reading a partition's log

The log is read over the segments that were moved to the history and those of the write-ahead log.
A position is found by counting frames as if the numbers followed one another, and the segment is
read from its start where they do not.
-/
namespace Narsil.Durability

/-- The key of a segment by its parts. -/
inductive SegmentKey
  | wal (startSeqNo : Nat)
  | history (startSeqNo movedAtMs : Nat)
  deriving DecidableEq

/-- The files of one partition: the commit marker, the segments of the log, and those in the history. -/
structure PartitionDirectory where
  readsRanges : Bool
  marker : MarkerFile
  wal : List (Nat × Bytes)
  history : List ((Nat × Nat) × Bytes)

def PartitionDirectory.file (directory : PartitionDirectory) : SegmentKey → Option Bytes
  | .wal startSeqNo => Assoc.lookup directory.wal startSeqNo
  | .history startSeqNo movedAtMs => Assoc.lookup directory.history (startSeqNo, movedAtMs)

structure LogSource where
  key : SegmentKey
  startSeqNo : Nat
  readableBytes : Nat
  inHistory : Bool
  deriving DecidableEq

structure PartitionLog where
  sources : List LogSource
  head : Nat
  oldestSeqNo : Nat

structure LogRead where
  frames : List LogFrame
  bytes : Nat
  gone : Bool
  deriving DecidableEq

section Open
variable (directory : PartitionDirectory)

/-- The segments up to the active one, which is read as far as it is durable. -/
def walSources : List LogSource × Nat :=
  match readCommitMarker directory.marker with
  | none => ([], 0)
  | some (state, _) =>
    (directory.wal.filterMap fun (startSeqNo, bytes) =>
      if startSeqNo > state.activeSegmentSeqNo then none
      else
        let readableBytes := if startSeqNo = state.activeSegmentSeqNo then state.durableByteLength else bytes.length
        some ⟨.wal startSeqNo, startSeqNo, readableBytes, false⟩, state.highestDurableSeqNo)

def listHistorySegments : List ((Nat × Nat) × Bytes) :=
  directory.history.mergeSort fun left right => decide (left.1.1 ≤ right.1.1)

def historySource (segment : (Nat × Nat) × Bytes) : LogSource :=
  ⟨.history segment.1.1 segment.1.2, segment.1.1, segment.2.length, true⟩

def addMissing (byStart : List (Nat × LogSource)) (source : LogSource) : List (Nat × LogSource) :=
  if (Assoc.lookup byStart source.startSeqNo).isSome then byStart else Assoc.set byStart source.startSeqNo source

def openPartitionLog : PartitionLog :=
  let (sources, head) := walSources directory
  let history := (listHistorySegments directory).foldl
    (fun byStart segment => Assoc.set byStart segment.1.1 (historySource segment)) []
  let byStart := sources.foldl addMissing history
  let ordered := (byStart.map Prod.snd).mergeSort fun left right => decide (left.startSeqNo ≤ right.startSeqNo)
  ⟨ordered, head, match ordered with | [] => head + 1 | first :: _ => first.startSeqNo⟩

/-- The sources from the last one on that starts at the number or before it. -/
def sourceHolding (seqNo : Nat) : List LogSource → Option (List LogSource)
  | [] => none
  | source :: rest =>
    if source.startSeqNo > seqNo then none else some ((sourceHolding seqNo rest).getD (source :: rest))

end Open

section Read
variable (codec : EntryCodec) (directory : PartitionDirectory)

def LogSource.cursor (source : LogSource) : CursorFile :=
  ⟨directory.file source.key, source.readableBytes, directory.readsRanges⟩

/-- The offset behind so many frames, or the end of what may be read. -/
def offsetAfter (cursor : CursorFile) : Nat → Nat → CursorM Nat
  | 0, offset => return offset
  | skip + 1, offset =>
    if offset < cursor.limit then do
      let frameBytes ← frameLengthAt cursor offset
      offsetAfter cursor skip (offset + frameBytes)
    else return offset

def LogRead.push (read : LogRead) (frame : LogFrame) : LogRead :=
  { read with frames := read.frames ++ [frame], bytes := read.bytes + frame.payload.length }

/-- The loop over the frames from an offset; the first one is compared with the number that was counted to. -/
def readFrames (cursor : CursorFile) (startSeqNo afterSeqNo upToSeqNo maxBytes : Nat) :
    Nat → Nat → Bool → LogRead → CursorM (Bool × LogRead)
  | 0, _, _, _ => throw .outOfSteps
  | steps + 1, offset, checksNumbering, read =>
    if offset < cursor.limit then do
      let frame ← frameAt codec cursor offset (← frameLengthAt cursor offset)
      if checksNumbering = true ∧ frame.seqNo ≠ max (afterSeqNo + 1) startSeqNo ∧ frame.seqNo > afterSeqNo then
        readFrames cursor startSeqNo afterSeqNo upToSeqNo maxBytes steps segmentHeaderSize false read
      else
        let next := offset + frame.frameBytes
        if frame.seqNo ≤ afterSeqNo then
          readFrames cursor startSeqNo afterSeqNo upToSeqNo maxBytes steps next false read
        else if frame.seqNo > upToSeqNo then return (true, read)
        else if read.frames.length > 0 ∧ read.bytes + frame.payload.length > maxBytes then return (true, read)
        else if frame.seqNo = upToSeqNo then return (true, read.push frame)
        else readFrames cursor startSeqNo afterSeqNo upToSeqNo maxBytes steps next false (read.push frame)
    else return (false, read)

def readSource (source : LogSource) (afterSeqNo upToSeqNo maxBytes : Nat) (read : LogRead) :
    Except ReadError (Bool × LogRead) :=
  let cursor := source.cursor directory
  let reads : CursorM (Bool × LogRead) := do
    checkHeader cursor
    let offset ← offsetAfter cursor (afterSeqNo + 1 - source.startSeqNo) segmentHeaderSize
    readFrames codec cursor source.startSeqNo afterSeqNo upToSeqNo maxBytes (2 * source.readableBytes + 2) offset true read
  (reads CursorState.fresh).map Prod.fst

/-- The sources one behind the other, each from the last number that was read. -/
def readSources (afterSeqNo upToSeqNo maxBytes : Nat) : List LogSource → LogRead → Except ReadError LogRead
  | [], read => .ok read
  | source :: rest, read => do
    let from_ := max afterSeqNo ((read.frames.getLast?.map LogFrame.seqNo).getD afterSeqNo)
    let (done, read) ← readSource codec directory source from_ upToSeqNo maxBytes read
    if done then return read else readSources afterSeqNo upToSeqNo maxBytes rest read

def readAttempt (afterSeqNo upToSeqNo maxBytes : Nat) : Except ReadError LogRead :=
  let log := openPartitionLog directory
  match sourceHolding (afterSeqNo + 1) log.sources with
  | none => .ok ⟨[], 0, decide (log.sources.length > 0 ∨ afterSeqNo + 1 ≤ log.head)⟩
  | some sources => readSources codec directory afterSeqNo upToSeqNo maxBytes sources ⟨[], 0, false⟩

/-- A segment that is missing when it is read was moved meanwhile, so the log is opened once more. -/
def readPartitionLog (afterSeqNo upToSeqNo maxBytes : Nat) : Except ReadError LogRead :=
  if afterSeqNo ≥ upToSeqNo then .ok ⟨[], 0, false⟩
  else
    match readAttempt codec directory afterSeqNo upToSeqNo maxBytes with
    | .error .segmentFileMissing => readAttempt codec directory afterSeqNo upToSeqNo maxBytes
    | answer => answer

end Read

end Narsil.Durability
