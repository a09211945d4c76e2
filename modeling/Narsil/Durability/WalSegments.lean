import Narsil.Durability.CommitMarker
import Narsil.Durability.WalFraming

/-!
# Segments on disk and how recovery reads them

One partition's log directory: its segments in ascending order of their first
sequence number, the segment prepared for the next checkpoint, and the commit
marker. Directory syncs are left out: a file is taken to exist once created.
-/
namespace Narsil.Durability

/-- A log segment. A crash may drop any of its bytes past the first `synced`. -/
structure SegmentFile where
  startSeqNo : Nat
  bytes : Bytes
  synced : Nat
  deriving DecidableEq, Repr

/-- The file under the `next` key, which a checkpoint roll moves into place. -/
structure PreparedFile where
  bytes : Bytes
  synced : Nat
  deriving DecidableEq, Repr

structure Disk where
  segments : List SegmentFile
  next : Option PreparedFile
  marker : MarkerFile
  /-- The slot write that has been issued and has not returned. -/
  markerWrite : Option (Nat × CommitMarkerState)
  deriving DecidableEq, Repr

def Disk.empty : Disk := ⟨[], none, .empty, none⟩

def SegmentFile.append (f : SegmentFile) (more : Bytes) : SegmentFile :=
  { f with bytes := f.bytes ++ more }

/-- A sync covers the bytes written before it was issued. -/
def SegmentFile.sync (f : SegmentFile) (byteLength : Nat) : SegmentFile :=
  { f with synced := max f.synced (min byteLength f.bytes.length) }

def SegmentFile.truncate (f : SegmentFile) (byteLength : Nat) : SegmentFile :=
  { f with bytes := f.bytes.take byteLength, synced := (f.bytes.take byteLength).length }

def SegmentFile.cut (f : SegmentFile) (kept : Nat) : SegmentFile :=
  { f with bytes := f.bytes.take (max f.synced kept) }

def findSegment (segments : List SegmentFile) (startSeqNo : Nat) : Option SegmentFile :=
  segments.find? fun f => f.startSeqNo = startSeqNo

def updateSegment (segments : List SegmentFile) (startSeqNo : Nat)
    (change : SegmentFile → SegmentFile) : List SegmentFile :=
  segments.map fun f => if f.startSeqNo = startSeqNo then change f else f

/-- Put a file under its key, replacing a file that has the key already. -/
def placeSegment (segments : List SegmentFile) (f : SegmentFile) : List SegmentFile :=
  segments.filter (fun g => g.startSeqNo < f.startSeqNo) ++
    f :: segments.filter (fun g => f.startSeqNo < g.startSeqNo)

def removeSegment (segments : List SegmentFile) (startSeqNo : Nat) : List SegmentFile :=
  segments.filter fun f => f.startSeqNo ≠ startSeqNo

/-- Each file keeps its synced bytes and, of the rest, as many as `kept` tells
for its start; a file `kept` does not list keeps all. -/
def cutSegments (segments : List SegmentFile) (kept : List (Nat × Nat)) : List SegmentFile :=
  segments.map fun f => f.cut ((kept.lookup f.startSeqNo).getD f.bytes.length)

/-- `MarkerWriter.commit` up to its await: the slot write is issued. -/
def issueMarker (disk : Disk) (w : MarkerWriter) (frontier : Frontier) : Disk × MarkerWriter :=
  ({ disk with
      markerWrite := some (nextMarkerSlot w.lastSlot, frontier.withWriteSeq (w.writeSeq + 1)) },
   { w with writeSeq := w.writeSeq + 1 })

/-- The slot write returns. -/
def finishMarker (disk : Disk) (w : MarkerWriter) : Disk × MarkerWriter :=
  match disk.markerWrite with
  | none => (disk, w)
  | some (slotIndex, state) =>
    ({ disk with marker := disk.marker.setSlot slotIndex (some state), markerWrite := none },
     { w with lastSlot := some slotIndex })

/-- The disk after a crash: each file cut, and the slot write settled. -/
def crashDisk (disk : Disk) (kept : List (Nat × Nat)) (outcome : SlotOutcome) : Disk :=
  { disk with
    segments := cutSegments disk.segments kept
    marker := disk.marker.afterCrash disk.markerWrite outcome
    markerWrite := none }

structure ActiveTail where
  key : Nat
  entries : List ReplicationLogEntry
  cleanEnd : Nat
  segmentLength : Nat
  deriving DecidableEq, Repr

structure SegmentRead where
  durableEntries : List ReplicationLogEntry
  activeTail : Option ActiveTail
  deriving DecidableEq, Repr

structure WalReadResult where
  marker : CommitMarkerState
  segments : List Nat
  durableEntries : List ReplicationLogEntry
  activeTail : Option ActiveTail
  highestReadFromWal : Nat
  deriving DecidableEq, Repr

/-- The segments up to the one the marker names: all of a sealed one, and the
durable region and the tail of the active one. -/
def readSegmentsInOrder (codec : EntryCodec) (marker : CommitMarkerState) :
    List SegmentFile → Nat → Except NarsilError (List SegmentRead)
  | [], _ => .ok []
  | f :: rest, highestRead =>
    if f.startSeqNo > marker.activeSegmentSeqNo then
      readSegmentsInOrder codec marker rest highestRead
    else if f.startSeqNo < marker.activeSegmentSeqNo then
      match checkSegmentHeader f.bytes with
      | .error header =>
        .error ⟨header.code, "Sealed WAL segment header invalid: " ++ header.message⟩
      | .ok () => do
        let durableEntries ← readDurableRegion codec f.bytes f.bytes.length
        let more ← readSegmentsInOrder codec marker rest
          (max highestRead (highestSeqNo durableEntries))
        .ok (⟨durableEntries, none⟩ :: more)
    else do
      let durableEntries ← readDurableRegion codec f.bytes marker.durableByteLength
      let highestRead := max highestRead (highestSeqNo durableEntries)
      let tail := readTailBeyondFrontier codec f.bytes marker.durableByteLength
        (max highestRead marker.highestDurableSeqNo)
      let more ← readSegmentsInOrder codec marker rest highestRead
      .ok (⟨durableEntries, some ⟨f.startSeqNo, tail.entries, tail.cleanEnd, f.bytes.length⟩⟩ :: more)

def readWalSegments (codec : EntryCodec) (disk : Disk) :
    Except NarsilError (Option WalReadResult) :=
  match readCommitMarker disk.marker with
  | none => .ok none
  | some (marker, _) => do
    let reads ← readSegmentsInOrder codec marker disk.segments 0
    let durableEntries := reads.flatMap SegmentRead.durableEntries
    .ok (some
      { marker := marker
        segments := disk.segments.map SegmentFile.startSeqNo
        durableEntries := durableEntries
        activeTail := reads.foldl (fun tail segment => segment.activeTail <|> tail) none
        highestReadFromWal := highestSeqNo durableEntries })

/-- How far a replay has come. -/
structure ReplayPosition where
  applied : List ReplicationLogEntry
  highestSeqNo : Nat
  highestPrimaryTerm : Nat
  deriving DecidableEq, Repr

def replayEntry (position : ReplayPosition) (entry : ReplicationLogEntry) : ReplayPosition :=
  if entry.seqNo ≤ position.highestSeqNo then position
  else
    { applied := position.applied ++ [entry]
      highestSeqNo := entry.seqNo
      highestPrimaryTerm := max position.highestPrimaryTerm entry.primaryTerm }

structure Replay where
  position : ReplayPosition
  read : Option WalReadResult
  deriving DecidableEq, Repr

def durableRecordMissing : NarsilError :=
  ⟨.persistenceWalCorrupt,
    "A durable WAL record is missing: the highest recovered seqNo is below the commit marker"⟩

/-- The reading half of `replayWal`: what is applied, and what was read. -/
def replayWal (codec : EntryCodec) (disk : Disk) (fromSeqNoExclusive : Nat) :
    Except NarsilError Replay := do
  match ← readWalSegments codec disk with
  | none => .ok ⟨⟨[], fromSeqNoExclusive, 0⟩, none⟩
  | some read =>
    if max fromSeqNoExclusive read.highestReadFromWal < read.marker.highestDurableSeqNo then
      .error durableRecordMissing
    else
      let tail := read.activeTail.elim [] ActiveTail.entries
      .ok ⟨(read.durableEntries ++ tail).foldl replayEntry ⟨[], fromSeqNoExclusive, 0⟩, some read⟩

/-- Every entry a replay read, those the checkpoint covers included. -/
def Replay.entries (r : Replay) : List ReplicationLogEntry :=
  r.read.elim [] fun read => read.durableEntries ++ read.activeTail.elim [] ActiveTail.entries

end Narsil.Durability
