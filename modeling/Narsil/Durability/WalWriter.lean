import Narsil.Durability.FrameReading
import Narsil.Durability.WalSegments
import Narsil.Transition.Run

/-!
# Group commit

Callers that commit while a sync is in flight share the next one. A batch is
generic in what it promises: `covers` collects what its waiters are owed when
the sync it starts with returns.
-/
namespace Narsil.Durability

structure PendingBatch (α : Type) where
  waiters : Nat
  covers : List α
  deriving DecidableEq, Repr

structure GroupCommit (α : Type) where
  inFlight : Option (PendingBatch α)
  next : Option (PendingBatch α)
  deriving DecidableEq, Repr

variable {α : Type}

def GroupCommit.idle : GroupCommit α := ⟨none, none⟩

def makeBatch : PendingBatch α := ⟨0, []⟩

/-- Start a sync for the waiting batch unless one is in flight. -/
def GroupCommit.drain (g : GroupCommit α) : GroupCommit α :=
  match g.inFlight, g.next with
  | none, some batch => ⟨some batch, none⟩
  | _, _ => g

/-- A call of `commit()`; `owed` is what the caller may rely on once it resolves. -/
def GroupCommit.commit (g : GroupCommit α) (owed : List α) : GroupCommit α :=
  let batch := g.next.getD makeBatch
  GroupCommit.drain
    { g with next := some ⟨batch.waiters + 1, batch.covers ++ owed⟩ }

/-- The sync in flight has returned: its batch resolves and the next one starts. -/
def GroupCommit.settle (g : GroupCommit α) : GroupCommit α :=
  GroupCommit.drain { g with inFlight := none }

def GroupCommit.pendingCount (g : GroupCommit α) : Nat :=
  match g.next with
  | none => 0
  | some batch => batch.waiters

/-- Everything owed to a waiter that has not resolved yet meets `p`. -/
def GroupCommit.Owes (g : GroupCommit α) (p : α → Prop) : Prop :=
  (∀ batch, g.inFlight = some batch → ∀ a ∈ batch.covers, p a) ∧
  (∀ batch, g.next = some batch → ∀ a ∈ batch.covers, p a)

@[simp] theorem owes_idle (p : α → Prop) : (GroupCommit.idle : GroupCommit α).Owes p := by
  simp [GroupCommit.idle, GroupCommit.Owes]

theorem GroupCommit.Owes.mono {g : GroupCommit α} {p q : α → Prop} (h : g.Owes p)
    (weaken : ∀ a, p a → q a) : g.Owes q :=
  ⟨fun batch hb a ha => weaken a (h.1 batch hb a ha),
   fun batch hb a ha => weaken a (h.2 batch hb a ha)⟩

theorem GroupCommit.Owes.drain {g : GroupCommit α} {p : α → Prop} (h : g.Owes p) :
    g.drain.Owes p := by
  unfold GroupCommit.drain
  split
  next batch _ waiting =>
    exact ⟨fun started same => h.2 started (same ▸ waiting), fun _ none => by cases none⟩
  · exact h

theorem GroupCommit.Owes.commit {g : GroupCommit α} {p : α → Prop} (h : g.Owes p) (owed : List α)
    (meets : ∀ a ∈ owed, p a) : (g.commit owed).Owes p := by
  apply GroupCommit.Owes.drain
  refine ⟨h.1, ?_⟩
  intro batch hb a ha
  simp only [Option.some.injEq] at hb
  subst hb
  rcases List.mem_append.mp ha with old | new
  · cases next : g.next with
    | none => simp [next, makeBatch] at old
    | some waiting => exact h.2 waiting next a (by simpa [next] using old)
  · exact meets a new

theorem GroupCommit.Owes.settle {g : GroupCommit α} {p : α → Prop} (h : g.Owes p) :
    g.settle.Owes p :=
  GroupCommit.Owes.drain ⟨fun _ hb => by simp at hb, h.2⟩

theorem inFlight_commit {g : GroupCommit α} {batch : PendingBatch α} (owed : List α)
    (h : g.inFlight = some batch) : (g.commit owed).inFlight = some batch := by
  simp [GroupCommit.commit, GroupCommit.drain, h]

end Narsil.Durability

/-!
## The log writer of one partition

The writer's memory, its tasks cut at every `await`, the crash and the steps of
recovery, as one executable transition system. Two tasks run at a time: the
caller's (appends and rolls, one call after another) and the group commit's
flush; the durability lock orders what they do to the active segment and the
marker.

The last five fields of the state are read by no step of the code. They record
what was promised: `appended` every entry whose bytes were written and that no
crash dropped, `settled` those whose append returned, `acknowledged` those whose
commit resolved, `recovered` what the last recovery read, and `truncated` the
entries of segments a checkpoint removed.
-/
namespace Narsil.Durability

def maxFileBytes : Nat := 2147483647

structure WalWriter where
  nextSegmentPrepared : Bool
  handle : Option Nat
  activeStartSeqNo : Nat
  activeBytes : Nat
  highestAppendedSeqNo : Nat
  highestDurableSeqNo : Nat
  markerWriter : Option MarkerWriter
  deriving DecidableEq, Repr

def createWalWriter : WalWriter := ⟨false, none, 0, 0, 0, 0, none⟩

/-- The stages of `flushActiveSegment` between two awaits. -/
inductive FlushStage where
  | start
  | capture
  | sync (frontier : Frontier)
  | mark (frontier : Frontier)
  | marking (frontier : Frontier)
  deriving DecidableEq, Repr

/-- What the holder of the durability lock still has to do. A flush that
`thenOpens` a segment is the first half of `rollUnderLock`. -/
inductive LockJob where
  | flush (stage : FlushStage) (thenOpens : Option Nat)
  | openSegment (startSeqNo : Nat)
  | checkpointRoll
  | swapWriter
  | swapSeal (synced moved : Bool)
  | swapMarking (frontier : Frontier)
  deriving DecidableEq, Repr

def flushActiveSegment : LockJob := .flush .start none
def rollUnderLock (startSeqNo : Nat) : LockJob := .flush .start (some startSeqNo)

/-- Where the caller's current call stands. -/
inductive CallerTask where
  | idle
  | ensureSegment (entries : List ReplicationLogEntry)
  | maybeRoll (entries : List ReplicationLogEntry)
  | appendGroup (entries : List ReplicationLogEntry)
  | settleGroup (group rest : List ReplicationLogEntry)
  | queued (job : LockJob) (after : CallerTask)
  | holding (after : CallerTask)
  deriving DecidableEq, Repr

inductive LockOwner where
  | caller
  | coordinator
  deriving DecidableEq, Repr

inductive RecoveryPhase where
  | removeNext
  | replay
  | deleteOrphans (replay : Replay) (read : WalReadResult) (orphans : List Nat)
  | repairTail (replay : Replay) (read : WalReadResult) (tail : ActiveTail)
  | writeMarker (replay : Replay) (read : WalReadResult) (tail : ActiveTail)
  | marking (replay : Replay) (writer : MarkerWriter)
  deriving DecidableEq, Repr

inductive Mode where
  | running
  | recovering (fromSeqNoExclusive : Nat) (phase : RecoveryPhase)
  | failed (error : NarsilError)
  deriving DecidableEq, Repr

structure LogState where
  disk : Disk
  mode : Mode
  writer : WalWriter
  caller : CallerTask
  lock : Option (LockOwner × LockJob)
  coordinator : GroupCommit ReplicationLogEntry
  /-- `prepareNextSegment` waits for its sync. -/
  preparing : Bool
  /-- The lowest sequence number the next entry may take. -/
  nextSeqNo : Nat
  /-- The highest sequence number the last `replayWal` returned. -/
  replayedSeqNo : Nat
  truncated : List ReplicationLogEntry
  appended : List ReplicationLogEntry
  settled : List ReplicationLogEntry
  acknowledged : List ReplicationLogEntry
  recovered : List ReplicationLogEntry
  deriving DecidableEq, Repr

def LogState.initial : LogState :=
  { disk := .empty, mode := .running, writer := createWalWriter, caller := .idle, lock := none
    coordinator := .idle, preparing := false, nextSeqNo := 1, replayedSeqNo := 0
    truncated := [], appended := [], settled := [], acknowledged := [], recovered := [] }

structure CrashOutcome where
  kept : List (Nat × Nat)
  marker : SlotOutcome
  fromSeqNoExclusive : Nat
  deriving DecidableEq, Repr

inductive Action where
  | appendAll (entries : List ReplicationLogEntry)
  | commit
  | rollToNewSegment (startSeqNo : Nat)
  | prepareCheckpointRoll
  | prepareStep
  | rollForCheckpoint
  | callerStep
  | takeLock (owner : LockOwner)
  | lockStep (moveFirst : Bool)
  | crash (outcome : CrashOutcome)
  | recoverStep
  deriving DecidableEq, Repr

def getMarkerWriter (disk : Disk) (w : WalWriter) : WalWriter :=
  match w.markerWriter with
  | some _ => w
  | none =>
    let existing := (readCommitMarker disk.marker).elim 0 fun m => m.1.highestDurableSeqNo
    { w with
      markerWriter := some (createMarkerWriter disk.marker)
      highestDurableSeqNo := max w.highestDurableSeqNo existing }

def capturedFrontier (w : WalWriter) : Frontier :=
  { activeSegmentSeqNo := w.activeStartSeqNo
    durableByteLength := w.activeBytes
    highestDurableSeqNo := max w.highestAppendedSeqNo w.highestDurableSeqNo }

/-- Open a segment for appending, writing the header when the file is new or
empty; the flag tells whether it was. -/
def openSegmentByKey (disk : Disk) (w : WalWriter) (key : Nat) : Disk × WalWriter × Bool :=
  match findSegment disk.segments key with
  | some f =>
    if f.bytes.length = 0 then
      ({ disk with segments := updateSegment disk.segments key (·.append writeSegmentHeader) },
        { w with handle := some key, activeStartSeqNo := key, activeBytes := segmentHeaderSize },
        true)
    else
      (disk, { w with handle := some key, activeStartSeqNo := key, activeBytes := f.bytes.length },
        false)
  | none =>
    ({ disk with segments := placeSegment disk.segments ⟨key, writeSegmentHeader, 0⟩ },
      { w with handle := some key, activeStartSeqNo := key, activeBytes := segmentHeaderSize },
      true)

def findActiveSegmentKey (disk : Disk) : Option Nat :=
  disk.segments.getLast?.map SegmentFile.startSeqNo

def activeSegmentHoldsRecords (w : WalWriter) : Bool :=
  w.handle.isSome && decide (w.activeBytes > segmentHeaderSize) &&
    decide (w.highestAppendedSeqNo ≥ w.activeStartSeqNo)

/-- How many of the entries behind the first still fit in the active segment. -/
def entriesThatFit (codec : EntryCodec) (segmentMaxBytes activeBytes : Nat) :
    Nat → List ReplicationLogEntry → Nat
  | _, [] => 0
  | bytes, entry :: rest =>
    let frame := (frameRecord codec entry).length
    if activeBytes + bytes + frame ≤ segmentMaxBytes then
      1 + entriesThatFit codec segmentMaxBytes activeBytes (bytes + frame) rest
    else 0

def framesThatFit (codec : EntryCodec) (segmentMaxBytes activeBytes : Nat) :
    List ReplicationLogEntry → Nat
  | [] => 0
  | entry :: rest =>
    1 + entriesThatFit codec segmentMaxBytes activeBytes (frameRecord codec entry).length rest

/-- The counters once the append of a group has returned. -/
def noteAppended (codec : EntryCodec) (w : WalWriter) (group : List ReplicationLogEntry) : WalWriter :=
  { w with
    activeBytes := w.activeBytes + (frames codec group).length
    highestAppendedSeqNo :=
      max w.highestAppendedSeqNo (group.getLast?.elim 0 ReplicationLogEntry.seqNo) }

def callerStep (codec : EntryCodec) (segmentMaxBytes : Nat) (s : LogState) : Option LogState :=
  match s.caller with
  | .ensureSegment entries =>
    match s.writer.handle, entries with
    | some _, _ => some { s with caller := .maybeRoll entries }
    | none, [] => some { s with caller := .idle }
    | none, entry :: _ =>
      let (disk, writer, createdNew) :=
        openSegmentByKey s.disk s.writer ((findActiveSegmentKey s.disk).getD entry.seqNo)
      some { s with
        disk := disk
        writer := writer
        caller := if createdNew then .queued flushActiveSegment (.maybeRoll entries)
          else .maybeRoll entries }
  | .maybeRoll entries =>
    match entries with
    | [] => some { s with caller := .idle }
    | entry :: _ =>
      if s.writer.handle = none ∨ s.writer.activeBytes ≤ segmentHeaderSize then
        some { s with caller := .appendGroup entries }
      else if s.writer.activeBytes ≥ segmentMaxBytes ∨
          s.writer.activeBytes + (frameRecord codec entry).length > segmentMaxBytes then
        some { s with caller := .queued (rollUnderLock entry.seqNo) (.appendGroup entries) }
      else some { s with caller := .appendGroup entries }
  | .appendGroup entries =>
    match s.writer.handle with
    | none => some { s with caller := .idle }
    | some key =>
      let count := framesThatFit codec segmentMaxBytes s.writer.activeBytes entries
      let group := entries.take count
      let joined := frames codec group
      if s.writer.activeBytes + joined.length > maxFileBytes then some { s with caller := .idle }
      else
        some { s with
          disk := { s.disk with segments := updateSegment s.disk.segments key (·.append joined) }
          caller := .settleGroup group (entries.drop count)
          appended := s.appended ++ group }
  | .settleGroup group rest =>
    some { s with
      writer := noteAppended codec s.writer group
      caller := .maybeRoll rest
      settled := s.appended }
  | .idle | .queued _ _ | .holding _ => none

def afterFlush : Option Nat → Option LockJob
  | none => none
  | some startSeqNo => some (.openSegment startSeqNo)

/-- `flushActiveSegment` from one await to the next; no stage left means that it
returns. -/
def flushStep (disk : Disk) (w : WalWriter) : FlushStage → Disk × WalWriter × Option FlushStage
  | .start =>
    match w.handle with
    | none => (disk, w, none)
    | some _ => (disk, getMarkerWriter disk w, some .capture)
  | .capture => (disk, w, some (.sync (capturedFrontier w)))
  | .sync frontier =>
    ({ disk with
        segments := updateSegment disk.segments frontier.activeSegmentSeqNo
          (·.sync frontier.durableByteLength) },
      w, some (.mark frontier))
  | .mark frontier =>
    let (disk, marker) := issueMarker disk (w.markerWriter.getD ⟨none, 0⟩) frontier
    (disk, { w with markerWriter := some marker }, some (.marking frontier))
  | .marking frontier =>
    let (disk, marker) := finishMarker disk (w.markerWriter.getD ⟨none, 0⟩)
    (disk,
      { w with
        markerWriter := some marker
        highestDurableSeqNo := max w.highestDurableSeqNo frontier.highestDurableSeqNo },
      none)

/-- One step of the lock holder's job; no job left means that it returns. The
sync of the old segment and the move of the prepared one run side by side. -/
def lockJobStep (moveFirst : Bool) (disk : Disk) (w : WalWriter) :
    LockJob → Disk × WalWriter × Option LockJob
  | .flush stage thenOpens =>
    match flushStep disk w stage with
    | (disk, w, some stage) => (disk, w, some (.flush stage thenOpens))
    | (disk, w, none) => (disk, w, afterFlush thenOpens)
  | .openSegment startSeqNo =>
    let (disk, w, _) := openSegmentByKey disk { w with handle := none } startSeqNo
    (disk, w, some flushActiveSegment)
  | .checkpointRoll =>
    let prepared := w.nextSegmentPrepared
    let w := { w with nextSegmentPrepared := false }
    if activeSegmentHoldsRecords w then
      if prepared then (disk, w, some .swapWriter)
      else (disk, w, some (rollUnderLock (w.highestAppendedSeqNo + 1)))
    else (disk, w, none)
  | .swapWriter => (disk, getMarkerWriter disk w, some (.swapSeal false false))
  | .swapSeal synced moved =>
    let startSeqNo := w.highestAppendedSeqNo + 1
    if !moved && (moveFirst || synced) then
      let segments := match disk.next with
        | none => disk.segments
        | some f => placeSegment disk.segments ⟨startSeqNo, f.bytes, f.synced⟩
      ({ disk with segments := segments, next := none }, w, some (.swapSeal synced true))
    else if !synced then
      ({ disk with
          segments := updateSegment disk.segments w.activeStartSeqNo (·.sync w.activeBytes) },
        w, some (.swapSeal true moved))
    else
      let frontier : Frontier :=
        ⟨startSeqNo, segmentHeaderSize, max w.highestAppendedSeqNo w.highestDurableSeqNo⟩
      let (disk, marker) := issueMarker disk (w.markerWriter.getD ⟨none, 0⟩) frontier
      (disk,
        { w with
          handle := some startSeqNo
          activeStartSeqNo := startSeqNo
          activeBytes := segmentHeaderSize
          markerWriter := some marker },
        some (.swapMarking frontier))
  | .swapMarking frontier =>
    let (disk, marker) := finishMarker disk (w.markerWriter.getD ⟨none, 0⟩)
    (disk,
      { w with markerWriter := some marker, highestDurableSeqNo := frontier.highestDurableSeqNo },
      none)

/-- The lock is free again: the caller goes on, or the batch of the sync resolves. -/
def releaseLock (s : LogState) : LockOwner → LogState
  | .caller =>
    { s with
      lock := none
      caller := match s.caller with
        | .holding after => after
        | task => task }
  | .coordinator =>
    { s with
      lock := none
      acknowledged := s.acknowledged ++ s.coordinator.inFlight.elim [] PendingBatch.covers
      coordinator := s.coordinator.settle }

def crash (s : LogState) (outcome : CrashOutcome) : LogState :=
  { s with
    disk := crashDisk s.disk outcome.kept outcome.marker
    mode := .recovering outcome.fromSeqNoExclusive .removeNext
    writer := createWalWriter
    caller := .idle
    lock := none
    coordinator := .idle
    preparing := false }

/-- Recovery is done: the engine numbers on from what it returned, in the newest
segment there is. -/
def finishRecovery (s : LogState) (replay : Replay) : LogState :=
  { s with
    mode := .running
    nextSeqNo := max (replay.position.highestSeqNo + 1) ((findActiveSegmentKey s.disk).getD 0)
    replayedSeqNo := replay.position.highestSeqNo
    appended := s.truncated ++ replay.entries
    settled := s.truncated ++ replay.entries
    recovered := s.truncated ++ replay.entries }

/-- Cut the file behind its last whole record, or sync it when it ends there. -/
def repairFile (cleanEnd size : Nat) (f : SegmentFile) : SegmentFile :=
  if cleanEnd < size then f.truncate cleanEnd else f.sync size

def recoverStep (codec : EntryCodec) (s : LogState) (fromSeqNoExclusive : Nat) :
    RecoveryPhase → LogState
  | .removeNext =>
    { s with
      disk := { s.disk with next := none }
      mode := .recovering fromSeqNoExclusive .replay }
  | .replay =>
    match replayWal codec s.disk fromSeqNoExclusive with
    | .error err => { s with mode := .failed err }
    | .ok replay =>
      match replay.read with
      | none => finishRecovery s replay
      | some read =>
        let orphans := read.segments.filter fun start => start > read.marker.activeSegmentSeqNo
        { s with mode := .recovering fromSeqNoExclusive (.deleteOrphans replay read orphans) }
  | .deleteOrphans replay read (orphan :: rest) =>
    { s with
      disk := { s.disk with segments := removeSegment s.disk.segments orphan }
      mode := .recovering fromSeqNoExclusive (.deleteOrphans replay read rest) }
  | .deleteOrphans replay read [] =>
    match read.activeTail with
    | none => finishRecovery s replay
    | some tail =>
      if tail.entries = [] ∧ tail.cleanEnd ≥ tail.segmentLength then finishRecovery s replay
      else { s with mode := .recovering fromSeqNoExclusive (.repairTail replay read tail) }
  | .repairTail replay read tail =>
    let size := (findSegment s.disk.segments tail.key).elim 0 fun f => f.bytes.length
    let repaired := { s with
      disk := { s.disk with
        segments := updateSegment s.disk.segments tail.key (repairFile tail.cleanEnd size) } }
    if tail.entries = [] then finishRecovery repaired replay
    else { repaired with mode := .recovering fromSeqNoExclusive (.writeMarker replay read tail) }
  | .writeMarker replay read tail =>
    let (disk, writer) := issueMarker s.disk (createMarkerWriter s.disk.marker)
      { activeSegmentSeqNo := read.marker.activeSegmentSeqNo
        durableByteLength := tail.cleanEnd
        highestDurableSeqNo := max read.marker.highestDurableSeqNo
          (tail.entries.getLast?.elim 0 ReplicationLogEntry.seqNo) }
    { s with
      disk := disk
      mode := .recovering fromSeqNoExclusive (.marking replay writer) }
  | .marking replay writer =>
    finishRecovery { s with disk := (finishMarker s.disk writer).1 } replay

/-- A batch the caller may append: numbered upwards from the next free number. -/
def Numbered (s : LogState) (entries : List ReplicationLogEntry) : Prop :=
  Ascending entries ∧ ∀ e ∈ entries, s.nextSeqNo ≤ e.seqNo

instance (s : LogState) (entries : List ReplicationLogEntry) : Decidable (Numbered s entries) :=
  inferInstanceAs (Decidable (_ ∧ _))

/-- The caller's call is a roll of its own: no append goes on behind it. -/
def CallerTask.Rolls : CallerTask → Prop
  | .queued _ after | .holding after => after = .idle
  | _ => False

instance : ∀ task : CallerTask, Decidable task.Rolls
  | .queued _ after | .holding after => inferInstanceAs (Decidable (after = .idle))
  | .idle | .ensureSegment _ | .maybeRoll _ | .appendGroup _ | .settleGroup _ _ => isFalse id

/-- One step of the log. The next segment is prepared beside an append, never
beside a roll of the caller's own. -/
def next (codec : EntryCodec) (segmentMaxBytes : Nat) (s : LogState) : Action → Option LogState
  | .appendAll entries =>
    if s.mode = .running ∧ s.caller = .idle ∧ Numbered s entries then
      some { s with
        caller := if entries = [] then .idle else .ensureSegment entries
        nextSeqNo := max s.nextSeqNo (entries.getLast?.elim 0 fun e => e.seqNo + 1) }
    else none
  | .commit =>
    if s.mode = .running then some { s with coordinator := s.coordinator.commit s.settled }
    else none
  | .rollToNewSegment startSeqNo =>
    if s.mode = .running ∧ s.caller = .idle ∧ s.preparing = false ∧ s.nextSeqNo ≤ startSeqNo then
      some { s with caller := .queued (rollUnderLock startSeqNo) .idle, nextSeqNo := startSeqNo }
    else none
  | .prepareCheckpointRoll =>
    if s.mode = .running ∧ ¬ s.caller.Rolls ∧ s.preparing = false then
      if activeSegmentHoldsRecords s.writer then
        some { s with
          disk := { s.disk with next := some ⟨writeSegmentHeader, 0⟩ }
          preparing := true }
      else some s
    else none
  | .prepareStep =>
    if s.mode = .running ∧ s.preparing = true then
      some { s with
        disk := { s.disk with next := s.disk.next.map fun f => { f with synced := f.bytes.length } }
        writer := { s.writer with nextSegmentPrepared := true }
        preparing := false }
    else none
  | .rollForCheckpoint =>
    if s.mode = .running ∧ s.caller = .idle ∧ s.preparing = false then
      some { s with caller := .queued .checkpointRoll .idle }
    else none
  | .callerStep => if s.mode = .running then callerStep codec segmentMaxBytes s else none
  | .takeLock .caller =>
    match s.lock, s.caller with
    | none, .queued job after =>
      if s.mode = .running then
        some { s with lock := some (.caller, job), caller := .holding after }
      else none
    | _, _ => none
  | .takeLock .coordinator =>
    match s.lock, s.coordinator.inFlight with
    | none, some _ =>
      if s.mode = .running then some { s with lock := some (.coordinator, flushActiveSegment) }
      else none
    | _, _ => none
  | .lockStep moveFirst =>
    match s.lock with
    | none => none
    | some (owner, job) =>
      if s.mode = .running then
        match lockJobStep moveFirst s.disk s.writer job with
        | (disk, writer, some job) =>
          some { s with disk := disk, writer := writer, lock := some (owner, job) }
        | (disk, writer, none) => some (releaseLock { s with disk := disk, writer := writer } owner)
      else none
  | .crash outcome => some (crash s outcome)
  | .recoverStep =>
    match s.mode with
    | .recovering fromSeqNoExclusive phase => some (recoverStep codec s fromSeqNoExclusive phase)
    | _ => none

end Narsil.Durability
