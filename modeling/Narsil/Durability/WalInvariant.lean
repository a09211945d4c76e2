import Narsil.Durability.WalWriter
import Narsil.Durability.WalRecovery

/-!
# The invariant of the log writer

The disk invariant together with what the writer's memory, the caller's task
and the lock holder's job know about the disk at each await.
-/
namespace Narsil.Durability

/-- What must survive a crash: entries whose commit resolved and entries an
earlier recovery returned. -/
def owedOf (s : LogState) : List ReplicationLogEntry := s.acknowledged ++ s.recovered

/-- The part of the state that the lock holder's facts speak of. -/
structure LogView where
  disk : Disk
  writer : WalWriter
  truncated : List ReplicationLogEntry
  appended : List ReplicationLogEntry
  settled : List ReplicationLogEntry
  owed : List ReplicationLogEntry

def LogState.view (s : LogState) : LogView :=
  ⟨s.disk, s.writer, s.truncated, s.appended, s.settled, owedOf s⟩

/-- Entries written whose append has not returned. -/
def pendingOf : CallerTask → List ReplicationLogEntry
  | .settleGroup group _ => group
  | _ => []

/-- Entries the caller's task has still to write. -/
def entriesOf : CallerTask → List ReplicationLogEntry
  | .ensureSegment entries | .maybeRoll entries | .appendGroup entries => entries
  | .settleGroup _ rest => rest
  | .queued _ after | .holding after => entriesOf after
  | .idle => []

/-- The tasks that wait behind the lock. -/
def Resumable : CallerTask → Prop
  | .idle | .maybeRoll _ | .appendGroup _ => True
  | _ => False

/-- The marker writer's memory, given the marker file and the write in flight. -/
def expectedWriter (disk : Disk) : MarkerWriter :=
  let current := createMarkerWriter disk.marker
  match disk.markerWrite with
  | none => current
  | some _ => { current with writeSeq := current.writeSeq + 1 }

/-- What the writer's counters say about the entries whose append returned. -/
structure Counted (v : LogView) : Prop where
  highestAppended : v.writer.highestAppendedSeqNo ≤ highestSeqNo v.settled
  tight : v.writer.highestAppendedSeqNo = 0 ∨
    ∀ e ∈ v.settled, e.seqNo ≤ v.writer.highestAppendedSeqNo
  highestDurable : v.writer.highestDurableSeqNo ≤ highestSeqNo v.settled
  marked : ∀ m i, readCommitMarker v.disk.marker = some (m, i) →
    m.highestDurableSeqNo ≤ highestSeqNo v.settled
  tracks : ∀ w, v.writer.markerWriter = some w → w = expectedWriter v.disk

/-- What holds of disk and memory whoever runs. -/
structure Common (codec : EntryCodec) (v : LogView) (segs : List Segment) (nextSeqNo : Nat)
    (pending : List ReplicationLogEntry) : Prop where
  disk : DiskInv codec v.truncated v.appended v.owed v.disk segs
  whole : ∀ p ∈ segs, Whole codec p
  starts : ∀ p ∈ segs, 0 < p.1.startSeqNo ∧ p.1.startSeqNo ≤ nextSeqNo
  next : 0 < nextSeqNo
  below : ∀ e ∈ v.appended, e.seqNo < nextSeqNo
  settled : v.appended = v.settled ++ pending
  owed : ∀ e ∈ v.owed, e ∈ v.settled
  counted : Counted v

def startsOf (segs : List Segment) : List Nat := segs.map fun p => p.1.startSeqNo

/-- A new entry may be written: it is numbered behind all that was written. -/
structure Ahead (codec : EntryCodec) (appended : List ReplicationLogEntry) (starts : List Nat)
    (nextSeqNo : Nat) (e : ReplicationLogEntry) : Prop where
  entries : ∀ a ∈ appended, a.seqNo < e.seqNo
  segments : ∀ start ∈ starts, start ≤ e.seqNo
  positive : 0 < e.seqNo
  next : e.seqNo < nextSeqNo
  recordable : Recordable codec e

/-- A segment may be opened at `start`: it lies behind all that was written and
not behind what the caller's task has still to write. -/
structure RollStart (appended : List ReplicationLogEntry) (starts : List Nat) (nextSeqNo : Nat)
    (rest : List ReplicationLogEntry) (start : Nat) : Prop where
  entries : ∀ e ∈ appended, e.seqNo < start
  segments : ∀ other ∈ starts, other ≤ start
  positive : 0 < start
  next : start ≤ nextSeqNo
  ahead : ∀ e ∈ rest, start ≤ e.seqNo

/-- No segment is open: everything on disk is durable and named by the marker. -/
structure Closed (codec : EntryCodec) (v : LogView) (segs : List Segment) : Prop where
  handle : v.writer.handle = none
  isSealed : ∀ p ∈ segs, Sealed codec p
  marked : ∀ m i, readCommitMarker v.disk.marker = some (m, i) →
    (∀ q ∈ segs, q.1.startSeqNo ≤ m.activeSegmentSeqNo) ∧
    MarkerHolds codec v.truncated v.settled segs m.frontier
  unmarked : readCommitMarker v.disk.marker = none → v.settled = []

/-- Segment `p`, the last one, is open for appending. -/
structure Opened (codec : EntryCodec) (writer : WalWriter) (segs : List Segment)
    (pending : List ReplicationLogEntry) (p : Segment) : Prop where
  handle : writer.handle = some p.1.startSeqNo
  active : writer.activeStartSeqNo = p.1.startSeqNo
  member : p ∈ segs
  last : ∀ q ∈ segs, q.1.startSeqNo ≤ p.1.startSeqNo
  isSealed : ∀ q ∈ segs, q.1.startSeqNo < p.1.startSeqNo → Sealed codec q
  bytes : ∃ noted, p.2 = noted ++ pending ∧ writer.activeBytes = (segmentBytes codec noted).length

/-- The marker, old or half written, names segment `key`. -/
def MarkersName (disk : Disk) (key : Nat) : Prop :=
  (∀ m i, readCommitMarker disk.marker = some (m, i) → m.activeSegmentSeqNo = key) ∧
  ∀ i m, disk.markerWrite = some (i, m) → m.activeSegmentSeqNo = key

/-- A captured frontier covers what is owed and the `extra` its sync is for. -/
structure Captured (codec : EntryCodec) (v : LogView) (segs : List Segment)
    (extra : List ReplicationLogEntry) (p : Segment) (f : Frontier) : Prop where
  active : f.activeSegmentSeqNo = p.1.startSeqNo
  covers : ∃ j, MarkerCovers codec v.truncated segs f p j ∧
    ∀ e ∈ v.owed ++ extra, e ∈ coveredBy v.truncated segs f p j
  highest : f.highestDurableSeqNo ≤ highestSeqNo v.settled

/-- Between calls, and while only the group commit holds the lock, the caller may
append to the open segment: the marker names it. -/
def Ready (codec : EntryCodec) (v : LogView) (segs : List Segment)
    (pending : List ReplicationLogEntry) : Prop :=
  (Closed codec v segs ∧ pending = []) ∨
  ∃ p, Opened codec v.writer segs pending p ∧ MarkersName v.disk p.1.startSeqNo

/-- What a flush knows of the open segment `p` at each await. `own` holds when
the caller itself waits for it, so that nothing is appended meanwhile. -/
def FlushStage.Knows (codec : EntryCodec) (v : LogView) (segs : List Segment) (own : Prop)
    (extra : List ReplicationLogEntry) (p : Segment) : FlushStage → Prop
  | .start => v.disk.markerWrite = none
  | .capture => v.disk.markerWrite = none ∧ v.writer.markerWriter.isSome = true
  | .sync f => (v.disk.markerWrite = none ∧ v.writer.markerWriter.isSome = true) ∧
      Captured codec v segs extra p f ∧
      (own → f.durableByteLength = (segmentBytes codec p.2).length)
  | .mark f => (v.disk.markerWrite = none ∧ v.writer.markerWriter.isSome = true) ∧
      Captured codec v segs extra p f ∧ f.durableByteLength ≤ p.1.synced ∧ (own → Sealed codec p)
  | .marking f => ((∃ i m, v.disk.markerWrite = some (i, m) ∧ m.frontier = f) ∧
        v.writer.markerWriter.isSome = true) ∧
      Captured codec v segs extra p f ∧ f.durableByteLength ≤ p.1.synced ∧ (own → Sealed codec p)

/-- A flush finds the log closed, and has nothing to do, or a segment open. -/
def FlushInv (codec : EntryCodec) (v : LogView) (segs : List Segment)
    (pending : List ReplicationLogEntry) (own : Prop) (extra : List ReplicationLogEntry)
    (stage : FlushStage) : Prop :=
  (stage = .start ∧ v.disk.markerWrite = none ∧ Closed codec v segs ∧ pending = []) ∨
  ∃ p, Opened codec v.writer segs pending p ∧ (¬ own → MarkersName v.disk p.1.startSeqNo) ∧
    stage.Knows codec v segs own extra p

/-- The swap to the prepared segment: everything is settled and the open segment
is not empty. -/
structure SwapReady (codec : EntryCodec) (v : LogView) (old : List Segment) (p : Segment) :
    Prop where
  quiet : v.disk.markerWrite = none
  numbers : ∀ e ∈ v.appended, e.seqNo ≤ v.writer.highestAppendedSeqNo
  opened : Opened codec v.writer old [] p
  start : p.1.startSeqNo ≤ v.writer.highestAppendedSeqNo
  named : MarkersName v.disk p.1.startSeqNo
  unprepared : v.writer.nextSegmentPrepared = false

def preparedSegment : PreparedFile := ⟨writeSegmentHeader, segmentHeaderSize⟩

/-- The swap before the marker is written. -/
structure SwapInv (codec : EntryCodec) (v : LogView) (segs : List Segment)
    (synced moved : Bool) (old : List Segment) (p : Segment) : Prop where
  ready : SwapReady codec v old p
  writer : v.writer.markerWriter.isSome = true
  isSealed : synced = true → Sealed codec p
  waiting : moved = false → segs = old ∧ v.disk.next = some preparedSegment
  arrived : moved = true → segs = old ++
    [(⟨v.writer.highestAppendedSeqNo + 1, writeSegmentHeader, segmentHeaderSize⟩, [])]

/-- What the caller's own job may rely on while it holds the lock. -/
def JobInv (codec : EntryCodec) (v : LogView) (segs : List Segment) (nextSeqNo : Nat)
    (after : CallerTask) : LockJob → Prop
  | .flush stage thenOpens => FlushInv codec v segs [] True [] stage ∧
      ∀ start, thenOpens = some start →
        RollStart v.appended (startsOf segs) nextSeqNo (entriesOf after) start
  | .openSegment start => v.disk.markerWrite = none ∧ (∀ p ∈ segs, Sealed codec p) ∧
      RollStart v.appended (startsOf segs) nextSeqNo (entriesOf after) start ∧
      ∀ key, v.writer.handle = some key → ∀ p ∈ segs, p.1.startSeqNo ≤ key
  | .checkpointRoll => after = .idle ∧ v.disk.markerWrite = none ∧ Ready codec v segs []
  | .swapWriter => after = .idle ∧ v.disk.next = some preparedSegment ∧
      ∃ p, SwapReady codec v segs p
  | .swapSeal synced moved => after = .idle ∧ ∃ old p, SwapInv codec v segs synced moved old p
  | .swapMarking f => FlushInv codec v segs [] True [] (.marking f)

def LockInv (codec : EntryCodec) (v : LogView) (segs : List Segment) (nextSeqNo : Nat)
    (caller : CallerTask) (inFlight : Option (PendingBatch ReplicationLogEntry)) :
    Option (LockOwner × LockJob) → Prop
  | none => v.disk.markerWrite = none ∧ Ready codec v segs (pendingOf caller)
  | some (.coordinator, job) => ∃ stage batch, job = .flush stage none ∧ inFlight = some batch ∧
      FlushInv codec v segs (pendingOf caller) False batch.covers stage
  | some (.caller, job) => ∃ after, caller = .holding after ∧ Resumable after ∧
      JobInv codec v segs nextSeqNo after job

/-- What a queued job may be, and what it may rely on when it gets the lock. -/
def CallerInv (appended : List ReplicationLogEntry) (starts : List Nat) (nextSeqNo : Nat)
    (lock : Option (LockOwner × LockJob)) : CallerTask → Prop
  | .queued job after => Resumable after ∧
      match job with
      | .flush .start thenOpens => ∀ start, thenOpens = some start →
          RollStart appended starts nextSeqNo (entriesOf after) start
      | .checkpointRoll => after = .idle
      | _ => False
  | .holding _ => ∃ job, lock = some (.caller, job)
  | _ => True

/-- What holds between two steps while the engine runs. -/
structure RunningInv (codec : EntryCodec) (s : LogState) (segs : List Segment) : Prop where
  common : Common codec s.view segs s.nextSeqNo (pendingOf s.caller)
  prepared : s.preparing = false → s.writer.nextSegmentPrepared = true →
    s.disk.next = some preparedSegment
  preparing : s.preparing = true →
    ¬ s.caller.Rolls ∧ ∃ synced, s.disk.next = some ⟨writeSegmentHeader, synced⟩
  owes : s.coordinator.Owes (· ∈ s.settled)
  ascending : Ascending (entriesOf s.caller)
  ahead : ∀ e ∈ entriesOf s.caller, Ahead codec s.appended (startsOf segs) s.nextSeqNo e
  lock : LockInv codec s.view segs s.nextSeqNo s.caller s.coordinator.inFlight s.lock
  caller : CallerInv s.appended (startsOf segs) s.nextSeqNo s.lock s.caller

/-- The state a replay leaves recovery in, until the tail is repaired: marker `m`
covers `j` entries of segment `p`, and recovery read `k` of them. -/
structure Replayed (codec : EntryCodec) (v : LogView) (segs : List Segment)
    (fromSeqNoExclusive : Nat) (replay : Replay) (tail : ActiveTail) (m : CommitMarkerState)
    (p : Segment) (j k : Nat) : Prop where
  quiet : v.disk.markerWrite = none
  current : ∃ i, readCommitMarker v.disk.marker = some (m, i)
  covers : MarkerCovers codec v.truncated segs m.frontier p j
  synced : m.durableByteLength ≤ p.1.synced
  key : tail.key = p.1.startSeqNo
  found : tail.entries = (p.2.take k).drop j
  cleanEnd : tail.cleanEnd = (segmentBytes codec (p.2.take k)).length
  order : j ≤ k
  count : k ≤ p.2.length
  clean : segmentBytes codec (p.2.take k) <+: p.1.bytes
  entries : v.truncated ++ replay.entries = coveredBy v.truncated segs m.frontier p k
  recovers : Recovers v.truncated v.appended v.owed fromSeqNoExclusive replay

def RecoveryInv (codec : EntryCodec) (v : LogView) (segs : List Segment)
    (fromSeqNoExclusive : Nat) : RecoveryPhase → Prop
  | .removeNext | .replay => v.disk.markerWrite = none ∧
      (readCommitMarker v.disk.marker = none → ∀ f ∈ v.disk.segments,
        f.bytes = writeSegmentHeader ∧ f.synced = segmentHeaderSize)
  | .deleteOrphans replay read orphans => ∃ tail m p j k, read.marker = m ∧
      read.activeTail = some tail ∧
      Replayed codec v segs fromSeqNoExclusive replay tail m p j k ∧
      tail.segmentLength = p.1.bytes.length ∧
      (∀ q ∈ segs, m.activeSegmentSeqNo < q.1.startSeqNo → q.1.startSeqNo ∈ orphans) ∧
      ∀ o ∈ orphans, m.activeSegmentSeqNo < o
  | .repairTail replay read tail => ∃ m p j k, read.marker = m ∧
      Replayed codec v segs fromSeqNoExclusive replay tail m p j k ∧
      ∀ q ∈ segs, q.1.startSeqNo ≤ m.activeSegmentSeqNo
  | .writeMarker replay read tail => ∃ m p j k, read.marker = m ∧
      Replayed codec v segs fromSeqNoExclusive replay tail m p j k ∧
      (∀ q ∈ segs, q.1.startSeqNo ≤ m.activeSegmentSeqNo) ∧
      p.1.bytes = segmentBytes codec (p.2.take k) ∧ p.1.synced = p.1.bytes.length
  | .marking replay _ => ∃ i m p k, v.disk.markerWrite = some (i, m) ∧
      MarkerCovers codec v.truncated segs m.frontier p k ∧
      v.truncated ++ replay.entries = coveredBy v.truncated segs m.frontier p k ∧
      (∀ q ∈ segs, q.1.startSeqNo ≤ m.activeSegmentSeqNo) ∧
      p.1.bytes = segmentBytes codec (p.2.take k) ∧ p.1.synced = p.1.bytes.length ∧
      Recovers v.truncated v.appended v.owed fromSeqNoExclusive replay

/-- After a crash the process has nothing but the disk. -/
structure Restarted (s : LogState) : Prop where
  writer : s.writer = createWalWriter
  caller : s.caller = .idle
  lock : s.lock = none
  coordinator : s.coordinator = .idle
  preparing : s.preparing = false

/-- What holds between two steps of recovery. -/
structure RecoveringInv (codec : EntryCodec) (s : LogState) (segs : List Segment)
    (fromSeqNoExclusive : Nat) (phase : RecoveryPhase) : Prop where
  disk : DiskInv codec s.truncated s.appended (owedOf s) s.disk segs
  positive : ∀ p ∈ segs, 0 < p.1.startSeqNo
  below : ∀ e ∈ s.truncated, e.seqNo ≤ fromSeqNoExclusive
  restarted : Restarted s
  phase : RecoveryInv codec s.view segs fromSeqNoExclusive phase

/-- The invariant of every reachable state. -/
def LogInv (codec : EntryCodec) (s : LogState) : Prop :=
  match s.mode with
  | .running => ∃ segs, RunningInv codec s segs
  | .recovering fromSeqNoExclusive phase => ∃ segs,
      RecoveringInv codec s segs fromSeqNoExclusive phase
  | .failed _ => False

end Narsil.Durability
