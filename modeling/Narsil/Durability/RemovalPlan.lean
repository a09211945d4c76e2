import Narsil.Durability.LogAdvance
import Narsil.Durability.LogTruncation

/-!
# The durable checkpoint of an index

The partitions of one index with their logs, the committed manifest, and the
checkpoint run between its awaits: it captures how far each partition has
applied, commits a manifest that says so, and then removes the log segments the
manifest covers. Appends, rolls and commits of the logs go on all the while; the
rolls and commits of the run itself are among them. What the segment files of
the checkpoint hold is left out: a manifest counts by its sequence numbers.
-/
namespace Narsil.Durability.CheckpointRun

structure PartitionCheckpoint where
  partitionId : Nat
  lastSeqNo : Nat
  deriving DecidableEq, Repr

def checkpointLastSeqNo (checkpoint : List PartitionCheckpoint) (partitionId : Nat) : Nat :=
  (checkpoint.find? fun c => c.partitionId = partitionId).elim 0 PartitionCheckpoint.lastSeqNo

structure SegmentManifest where
  checkpoint : List PartitionCheckpoint
  partitions : List Nat
  deriving DecidableEq, Repr

structure PartitionState where
  log : LogState
  appliedSeqNo : Nat
  /-- The last number of the batch on the append chain, between its `appendAll`
  and the moment the chain takes its outcome. -/
  batch : Option Nat
  failed : Bool
  deriving DecidableEq, Repr

/-- `truncateCoveredSegments` between its awaits, for the first target left. -/
inductive TruncateStage where
  | readMarker
  | list (activeSegmentSeqNo : Nat)
  | remove (startSeqNos : List Nat)
  deriving DecidableEq, Repr

inductive CheckpointPhase where
  | idle
  | capturing (prior : Option SegmentManifest) (fromMemory : Bool)
  | writing (prior : Option SegmentManifest) (targets : List PartitionCheckpoint)
  | truncating (targets : List PartitionCheckpoint) (stage : TruncateStage)
  deriving DecidableEq, Repr

structure IndexState where
  partitions : List PartitionState
  manifest : Option SegmentManifest
  phase : CheckpointPhase
  deriving DecidableEq, Repr

def PartitionState.initial : PartitionState := ⟨.initial, 0, none, false⟩

def IndexState.initial (partitionCount : Nat) : IndexState :=
  ⟨List.replicate partitionCount .initial, none, .idle⟩

/-- How far the committed manifest covers a partition's log. -/
def IndexState.covered (s : IndexState) (partitionId : Nat) : Nat :=
  checkpointLastSeqNo (s.manifest.elim [] SegmentManifest.checkpoint) partitionId

abbrev logRecordsPerCheckpoint : Nat := 100000

/-- A failed partition is left out; a run that reads the log takes a bounded
number of records, one that writes from memory takes all. -/
def captureTarget (prior : Option SegmentManifest) (fromMemory : Bool) :
    PartitionState × Nat → Option PartitionCheckpoint
  | (partition, partitionId) =>
    if partition.failed then none
    else if fromMemory then some ⟨partitionId, partition.appliedSeqNo⟩
    else
      let covered := checkpointLastSeqNo (prior.elim [] SegmentManifest.checkpoint) partitionId
      some ⟨partitionId, min partition.appliedSeqNo (covered + logRecordsPerCheckpoint)⟩

def captureCheckpoint (prior : Option SegmentManifest) (fromMemory : Bool)
    (partitions : List PartitionState) : List PartitionCheckpoint :=
  partitions.zipIdx.filterMap (captureTarget prior fromMemory)

def aTargetFailed (partitions : List PartitionState) (targets : List PartitionCheckpoint) : Bool :=
  targets.any fun target => (partitions[target.partitionId]?).elim false PartitionState.failed

/-- `makeEveryAppliedMutationDurable` has come to its end for this partition. -/
def targetIsDurable (partitions : List PartitionState) (target : PartitionCheckpoint) : Bool :=
  (partitions[target.partitionId]?).elim true fun partition =>
    partition.log.settled.all fun e => decide (target.lastSeqNo < e.seqNo) ||
      decide (e ∈ owedOf partition.log)

/-- One partition of the prior manifest that the run does not target. -/
def carryForward (prior written : SegmentManifest) (partitionId : Nat) : SegmentManifest :=
  { checkpoint :=
      match prior.checkpoint.find? fun c => c.partitionId = partitionId with
      | none => written.checkpoint
      | some c =>
        if written.checkpoint.any fun c => c.partitionId = partitionId then written.checkpoint
        else written.checkpoint ++ [c]
    partitions := written.partitions ++ [partitionId] }

def carryForwardUncheckpointedPartitions (prior : Option SegmentManifest)
    (targets : List PartitionCheckpoint) : SegmentManifest :=
  let covered := targets.map PartitionCheckpoint.partitionId
  match prior with
  | none => ⟨targets, covered⟩
  | some prior =>
    (prior.partitions.filter fun partitionId => partitionId ∉ covered).foldl (carryForward prior)
      ⟨targets, covered⟩

/-- The segments the loop removes, oldest first: it stops at the active segment,
at the last one, and at the first that may hold a record beyond the checkpoint. -/
def coveredSegments (activeSegmentSeqNo lastSeqNo : Nat) : List Nat → List Nat
  | start :: nextStart :: rest =>
    if start ≥ activeSegmentSeqNo then []
    else if nextStart > lastSeqNo + 1 then []
    else start :: coveredSegments activeSegmentSeqNo lastSeqNo (nextStart :: rest)
  | [_] => []
  | [] => []

/-- The records of a segment file as recovery reads a sealed one. -/
def segmentEntries (codec : EntryCodec) (f : SegmentFile) : List ReplicationLogEntry :=
  (readDurableRegion codec f.bytes f.bytes.length).toOption.getD []

def removeLogSegment (codec : EntryCodec) (log : LogState) (startSeqNo : Nat) : LogState :=
  { log with
    disk := { log.disk with segments := removeSegment log.disk.segments startSeqNo }
    truncated := log.truncated ++
      (findSegment log.disk.segments startSeqNo).elim [] (segmentEntries codec) }

def truncateStep (codec : EntryCodec) (s : IndexState) :
    List PartitionCheckpoint → TruncateStage → IndexState
  | [], _ => { s with phase := .idle }
  | target :: rest, stage =>
    match s.partitions[target.partitionId]? with
    | none => { s with phase := .truncating rest .readMarker }
    | some partition =>
      match stage with
      | .readMarker =>
        match readCommitMarker partition.log.disk.marker with
        | none => { s with phase := .truncating rest .readMarker }
        | some (marker, _) =>
          { s with phase := .truncating (target :: rest) (.list marker.activeSegmentSeqNo) }
      | .list activeSegmentSeqNo =>
        let startSeqNos := coveredSegments activeSegmentSeqNo target.lastSeqNo
          (segmentStarts partition.log.disk)
        { s with phase := .truncating (target :: rest) (.remove startSeqNos) }
      | .remove [] => { s with phase := .truncating rest .readMarker }
      | .remove (start :: startSeqNos) =>
        { s with
          partitions := s.partitions.set target.partitionId
            { partition with log := removeLogSegment codec partition.log start }
          phase := .truncating (target :: rest) (.remove startSeqNos) }

/-- What a crash leaves of each partition's files. -/
abbrev Outcomes := List (List (Nat × Nat) × SlotOutcome)

/-- The next process recovers each partition from where the manifest ends. -/
def crashOutcome (s : IndexState) (outcomes : Outcomes) (partitionId : Nat) : CrashOutcome :=
  let left := outcomes.getD partitionId ([], .untouched)
  ⟨left.1, left.2, s.covered partitionId⟩

def crashPartition (s : IndexState) (outcomes : Outcomes) :
    PartitionState × Nat → PartitionState
  | (partition, partitionId) =>
    ⟨Durability.crash partition.log (crashOutcome s outcomes partitionId), 0, none, false⟩

inductive Action where
  | log (partitionId : Nat) (action : Durability.Action)
  | recordBatch (partitionId : Nat) (entries : List ReplicationLogEntry)
  | batchReturns (partitionId : Nat)
  | failPartition (partitionId : Nat)
  | startCheckpoint (fromMemory : Bool)
  | captureCheckpoint
  | commitManifest
  | abandonCheckpoint
  | truncateStep
  | crash (outcomes : Outcomes)
  deriving DecidableEq, Repr

/-- The log's own steps: appends come in batches, and a crash hits all logs. -/
def IsLogStep : Durability.Action → Bool
  | .appendAll _ | .crash _ => false
  | _ => true

/-- A registered partition starts where the replay ended. -/
def registerPartition (before : LogState) (partition : PartitionState) : PartitionState :=
  if before.mode ≠ .running ∧ partition.log.mode = .running then
    { partition with appliedSeqNo := partition.log.replayedSeqNo }
  else partition

/-- Change one partition, when the change is enabled. -/
def IndexState.onPartition (s : IndexState) (partitionId : Nat)
    (change : PartitionState → Option PartitionState) : Option IndexState :=
  (s.partitions[partitionId]?).bind fun partition =>
    (change partition).map fun changed =>
      { s with partitions := s.partitions.set partitionId changed }

def logStep (codec : EntryCodec) (segmentMaxBytes : Nat) (action : Durability.Action)
    (partition : PartitionState) : Option PartitionState :=
  if IsLogStep action then
    (Durability.next codec segmentMaxBytes partition.log action).map fun log =>
      registerPartition partition.log { partition with log := log }
  else none

def recordBatch (codec : EntryCodec) (segmentMaxBytes : Nat) (entries : List ReplicationLogEntry)
    (partition : PartitionState) : Option PartitionState :=
  if partition.failed = false ∧ partition.batch = none then
    entries.getLast?.bind fun last =>
      (Durability.next codec segmentMaxBytes partition.log (.appendAll entries)).map fun log =>
        { partition with log := log, batch := some last.seqNo }
  else none

/-- The append has returned; it failed when the last entry was never noted. -/
def batchReturns (partition : PartitionState) : Option PartitionState :=
  match partition.batch with
  | some lastSeqNo =>
    if partition.log.mode = .running ∧ partition.log.caller = .idle then
      if partition.log.writer.highestAppendedSeqNo ≥ lastSeqNo then
        some { partition with batch := none, appliedSeqNo := lastSeqNo }
      else some { partition with batch := none, failed := true }
    else none
  | none => none

/-- The chains of all partitions are idle. -/
def NoMutationApplies (s : IndexState) : Prop := ∀ partition ∈ s.partitions, partition.batch = none

def AllRunning (s : IndexState) : Prop := ∀ partition ∈ s.partitions, partition.log.mode = .running

instance (s : IndexState) : Decidable (NoMutationApplies s) :=
  inferInstanceAs (Decidable (∀ _ ∈ _, _))

instance (s : IndexState) : Decidable (AllRunning s) :=
  inferInstanceAs (Decidable (∀ _ ∈ _, _))

/-- One step of the index. A run may give up at any await. -/
def next (codec : EntryCodec) (segmentMaxBytes : Nat) (s : IndexState) : Action → Option IndexState
  | .log partitionId action => s.onPartition partitionId (logStep codec segmentMaxBytes action)
  | .recordBatch partitionId entries =>
    s.onPartition partitionId (recordBatch codec segmentMaxBytes entries)
  | .batchReturns partitionId => s.onPartition partitionId batchReturns
  | .failPartition partitionId =>
    s.onPartition partitionId fun partition => some { partition with failed := true }
  | .startCheckpoint fromMemory =>
    if s.phase = .idle ∧ AllRunning s then
      some { s with phase := .capturing s.manifest fromMemory }
    else none
  | .captureCheckpoint =>
    match s.phase with
    | .capturing prior fromMemory =>
      if NoMutationApplies s then
        some { s with
          phase := .writing prior (CheckpointRun.captureCheckpoint prior fromMemory s.partitions) }
      else none
    | _ => none
  | .commitManifest =>
    match s.phase with
    | .writing prior targets =>
      if aTargetFailed s.partitions targets = false ∧
          targets.all (targetIsDurable s.partitions) then
        some { s with
          manifest := some (carryForwardUncheckpointedPartitions prior targets)
          phase := .truncating targets .readMarker }
      else none
    | _ => none
  | .abandonCheckpoint => if s.phase = .idle then none else some { s with phase := .idle }
  | .truncateStep =>
    match s.phase with
    | .truncating targets stage => some (truncateStep codec s targets stage)
    | _ => none
  | .crash outcomes =>
    some { s with
      partitions := s.partitions.zipIdx.map (crashPartition s outcomes)
      phase := .idle }

/-!
## What truncation may remove

The list of segments that a truncation is about to remove stays safe while the
log goes on: its segments are the oldest, every marker names a later one, and
all their records are covered by the checkpoint.
-/

variable {codec : EntryCodec} {s s' : LogState} {segs : List Segment} {disk disk' : Disk}
  {lastSeqNo activeSegmentSeqNo start : Nat} {starts startSeqNos : List Nat}

theorem prefix_coveredSegments (activeSegmentSeqNo lastSeqNo : Nat) (starts : List Nat) :
    coveredSegments activeSegmentSeqNo lastSeqNo starts <+: starts := by
  induction starts with
  | nil => exact List.prefix_rfl
  | cons start rest ih =>
    cases rest with
    | nil => exact List.nil_prefix
    | cons nextStart rest =>
      rw [coveredSegments]
      split
      · exact List.nil_prefix
      · split
        · exact List.nil_prefix
        · exact (List.prefix_append_right_inj [start]).mpr ih

theorem mem_coveredSegments {starts : List Nat} (ordered : starts.Pairwise (· < ·))
    (covered : start ∈ coveredSegments activeSegmentSeqNo lastSeqNo starts) :
    start < activeSegmentSeqNo ∧ ∃ later ∈ starts, start < later ∧ later ≤ lastSeqNo + 1 := by
  induction starts with
  | nil => cases covered
  | cons first rest ih =>
    cases rest with
    | nil => cases covered
    | cons nextStart rest =>
      rw [coveredSegments] at covered
      obtain ⟨below, ordered'⟩ := List.pairwise_cons.mp ordered
      split at covered
      · cases covered
      next active =>
        split at covered
        · cases covered
        next within =>
          rcases List.mem_cons.mp covered with rfl | later
          · exact ⟨by omega, nextStart, by simp, below nextStart (by simp), by omega⟩
          · obtain ⟨behind, other, ho, bounds⟩ := ih ordered' later
            exact ⟨behind, other, List.mem_cons_of_mem _ ho, bounds⟩

theorem ordered_segmentStarts {truncated appended : List ReplicationLogEntry}
    (layout : Layout codec truncated appended disk.segments segs) :
    (segmentStarts disk).Pairwise (· < ·) := by
  rw [layout.segmentStarts, startsOf, List.pairwise_map]
  exact layout.ordered.imp And.left

structure RemovalPlan (disk : Disk) (lastSeqNo : Nat) (startSeqNos : List Nat) : Prop where
  oldest : startSeqNos <+: segmentStarts disk
  behind : ∀ start ∈ startSeqNos, ∀ f, Promised disk f → start < f.activeSegmentSeqNo
  covered : ∀ start ∈ startSeqNos, ∃ later ∈ segmentStarts disk, start < later ∧ later ≤ lastSeqNo + 1
  readable : (readCommitMarker disk.marker).isSome = true

theorem RemovalPlan.advance (h : RemovalPlan disk lastSeqNo startSeqNos)
    (advances : Advances disk disk') : RemovalPlan disk' lastSeqNo startSeqNos where
  oldest := h.oldest.trans advances.starts
  behind := by
    intro start hs f promised
    rcases advances.promised f promised with before | newest
    · exact h.behind start hs f before
    · obtain ⟨later, known, less, -⟩ := h.covered start hs
      exact Nat.lt_of_lt_of_le less (newest later known)
  covered := by
    intro start hs
    obtain ⟨later, known, bounds⟩ := h.covered start hs
    exact ⟨later, advances.starts.subset known, bounds⟩
  readable := advances.readable h.readable

/-- All markers name `activeSegmentSeqNo` or a later segment. -/
structure MarkedFrom (disk : Disk) (activeSegmentSeqNo : Nat) : Prop where
  promised : ∀ f, Promised disk f → activeSegmentSeqNo ≤ f.activeSegmentSeqNo
  known : activeSegmentSeqNo ∈ segmentStarts disk
  readable : (readCommitMarker disk.marker).isSome = true

theorem MarkedFrom.advance (h : MarkedFrom disk activeSegmentSeqNo)
    (advances : Advances disk disk') : MarkedFrom disk' activeSegmentSeqNo where
  promised := by
    intro f promised
    rcases advances.promised f promised with before | newest
    · exact h.promised f before
    · exact newest _ h.known
  known := advances.starts.subset h.known
  readable := advances.readable h.readable

theorem MarkedFrom.plan {truncated appended : List ReplicationLogEntry}
    (h : MarkedFrom disk activeSegmentSeqNo)
    (layout : Layout codec truncated appended disk.segments segs) (lastSeqNo : Nat) :
    RemovalPlan disk lastSeqNo
      (coveredSegments activeSegmentSeqNo lastSeqNo (segmentStarts disk)) where
  oldest := prefix_coveredSegments _ _ _
  behind := fun _ hs f promised =>
    Nat.lt_of_lt_of_le (mem_coveredSegments (ordered_segmentStarts layout) hs).1
      (h.promised f promised)
  covered := fun _ hs => (mem_coveredSegments (ordered_segmentStarts layout) hs).2
  readable := h.readable

theorem flush_inFlight_last {v : LogView} {pending extra : List ReplicationLogEntry} {own : Prop}
    {stage : FlushStage} (h : FlushInv codec v segs pending own extra stage) {i : Nat}
    {m : CommitMarkerState} (write : v.disk.markerWrite = some (i, m)) :
    ∀ q ∈ segs, q.1.startSeqNo ≤ m.activeSegmentSeqNo := by
  have loud : v.disk.markerWrite ≠ none := by simp [write]
  rcases h with ⟨-, quiet, -⟩ | ⟨p, opened, -, knows⟩
  · exact absurd quiet loud
  · cases stage with
    | start => exact absurd knows loud
    | capture => exact absurd knows.1 loud
    | sync f => exact absurd knows.1.1 loud
    | mark f => exact absurd knows.1.1 loud
    | marking f =>
      obtain ⟨⟨⟨i', m', write', rfl⟩, -⟩, captured, -⟩ := knows
      have same : m' = m := by
        rw [write] at write'
        cases write'
        rfl
      have active : m'.activeSegmentSeqNo = p.1.startSeqNo := captured.active
      rw [← same, active]
      exact opened.last

theorem running_inFlight_last (h : RunningInv codec s segs) {i : Nat} {m : CommitMarkerState}
    (write : s.disk.markerWrite = some (i, m)) :
    ∀ q ∈ segs, q.1.startSeqNo ≤ m.activeSegmentSeqNo := by
  have loud : s.view.disk.markerWrite ≠ none := by simp [LogState.view, write]
  have lock := h.lock
  generalize s.lock = held at lock
  rcases held with _ | ⟨_ | _, job⟩
  case none => exact absurd lock.1 loud
  case some.coordinator =>
    obtain ⟨stage, batch, rfl, -, flush⟩ := lock
    exact flush_inFlight_last flush write
  case some.caller =>
    obtain ⟨after, -, -, inv⟩ := lock
    cases job with
    | flush stage thenOpens => exact flush_inFlight_last inv.1 write
    | openSegment start => exact absurd inv.1 loud
    | checkpointRoll => exact absurd inv.2.1 loud
    | swapWriter =>
      obtain ⟨-, -, r, swap⟩ := inv
      exact absurd swap.quiet loud
    | swapSeal synced moved =>
      obtain ⟨-, old, r, swap⟩ := inv
      exact absurd swap.ready.quiet loud
    | swapMarking f => exact flush_inFlight_last inv write

theorem markedFrom_of_read (h : RunningInv codec s segs) {m : CommitMarkerState} {i : Nat}
    (read : readCommitMarker s.disk.marker = some (m, i)) :
    MarkedFrom s.disk m.activeSegmentSeqNo := by
  obtain ⟨p, j, covers, -⟩ := h.common.disk.current m i read
  have start : p.1.startSeqNo = m.activeSegmentSeqNo := covers.start
  refine ⟨?_, ?_, by rw [read]; rfl⟩
  · rintro f (⟨m', i', current, rfl⟩ | ⟨i', m', write, rfl⟩)
    · rw [read] at current
      cases current
      exact Nat.le_refl _
    · exact start ▸ running_inFlight_last h write p covers.member
  · rw [show segmentStarts s.disk = startsOf segs from h.common.disk.layout.segmentStarts, ← start]
    exact mem_startsOf covers.member

theorem RemovalPlan.droppable {truncated appended owed : List ReplicationLogEntry}
    (disk_inv : DiskInv codec truncated appended owed disk segs)
    (h : RemovalPlan disk lastSeqNo (start :: startSeqNos)) :
    ∃ p, p.1.startSeqNo = start ∧ Droppable codec disk segs p ∧
      (∃ q ∈ segs, p.1.startSeqNo < q.1.startSeqNo) ∧
      findSegment disk.segments start = some p.1 ∧ segmentEntries codec p.1 = p.2 ∧
      (∀ e ∈ p.2, e.seqNo ≤ lastSeqNo) := by
  have layout := disk_inv.layout
  have starts : segmentStarts disk = startsOf segs := layout.segmentStarts
  have ordered := ordered_segmentStarts layout
  obtain ⟨rest, split⟩ := h.oldest
  have member : start ∈ startsOf segs := by
    rw [← starts, ← split]
    simp
  obtain ⟨p, hp, rfl⟩ := List.mem_map.mp member
  obtain ⟨later, known, less, within⟩ := h.covered p.1.startSeqNo (by simp)
  rw [starts] at known
  obtain ⟨q, hq, rfl⟩ := List.mem_map.mp known
  obtain ⟨⟨m, i⟩, read⟩ := Option.isSome_iff_exists.mp h.readable
  have drop : Droppable codec disk segs p := by
    refine ⟨hp, ?_, h.behind p.1.startSeqNo (by simp), m, i, read⟩
    intro r hr
    have known := mem_startsOf hr
    rw [← starts, ← split, List.cons_append] at known
    rw [← split, List.cons_append] at ordered
    rcases List.mem_cons.mp known with same | other
    · exact Nat.le_of_eq same.symm
    · exact Nat.le_of_lt ((List.pairwise_cons.mp ordered).1 _ other)
  -- The marker names a later segment, so this one is sealed and holds all its records.
  obtain ⟨r, j, covers, -⟩ := disk_inv.current m i read
  have active : p.1.startSeqNo < m.frontier.activeSegmentSeqNo :=
    drop.behind _ (Or.inl ⟨m, i, read, rfl⟩)
  have whole : Whole codec p :=
    (covers.earlier p hp active).whole (layout.written p hp) (layout.synced_le p hp)
  obtain ⟨pre, post, splits, before, after⟩ := layout.split_at hp
  have ascending : Ascending p.2 := by
    have all := layout.ascending
    rw [← layout.entries, splits] at all
    simp only [List.flatMap_append, List.flatMap_cons] at all
    exact all.append_right.append_right.append_left
  have entries : segmentEntries codec p.1 = p.2 := by
    have region := readDurableRegion_written p.2 []
      (fun e he => layout.recordable e (layout.mem_appended hp he)) ascending
    rw [List.append_nil] at region
    rw [segmentEntries, show p.1.bytes = _ from whole, region]
    rfl
  refine ⟨p, rfl, drop, ⟨q, hq, less⟩, findSegment_some layout hp, entries, ?_⟩
  intro e he
  have later : q ∈ post := by
    rw [splits] at hq
    rcases List.mem_append.mp hq with earlier | same
    · have := before q earlier
      omega
    · rcases List.mem_cons.mp same with rfl | later
      · omega
      · exact later
  have order := layout.ordered
  rw [splits] at order
  have below := ((List.pairwise_cons.mp (List.pairwise_append.mp order).2.1).1 q later).2 e he
  omega

theorem removeLogSegment_eq {p : Segment} (start_eq : p.1.startSeqNo = start)
    (found : findSegment s.disk.segments start = some p.1)
    (entries : segmentEntries codec p.1 = p.2) :
    removeLogSegment codec s start = { s with
      disk := { s.disk with segments := removeSegment s.disk.segments p.1.startSeqNo }
      truncated := s.truncated ++ p.2 } := by
  rw [removeLogSegment, found, start_eq]
  simp [entries]

theorem segmentStarts_remove (disk : Disk) (start : Nat) :
    segmentStarts { disk with segments := removeSegment disk.segments start }
      = (segmentStarts disk).filter (· ≠ start) := by
  simp only [segmentStarts, removeSegment, List.filter_map]
  rfl

theorem RemovalPlan.removed {truncated appended : List ReplicationLogEntry}
    (layout : Layout codec truncated appended disk.segments segs)
    (h : RemovalPlan disk lastSeqNo (start :: startSeqNos)) :
    RemovalPlan { disk with segments := removeSegment disk.segments start } lastSeqNo startSeqNos := by
  have ordered := ordered_segmentStarts layout
  obtain ⟨rest, split⟩ := h.oldest
  rw [← split, List.cons_append] at ordered
  obtain ⟨above, -⟩ := List.pairwise_cons.mp ordered
  have left : segmentStarts { disk with segments := removeSegment disk.segments start }
      = startSeqNos ++ rest := by
    rw [segmentStarts_remove, ← split, List.cons_append, List.filter_cons_of_neg (by simp)]
    refine List.filter_eq_self.mpr fun other ho => ?_
    have := above other ho
    simp only [decide_eq_true_eq]
    omega
  refine ⟨left ▸ List.prefix_append _ _, fun other ho => h.behind other (List.mem_cons_of_mem _ ho),
    fun other ho => ?_, h.readable⟩
  obtain ⟨later, known, less, within⟩ := h.covered other (List.mem_cons_of_mem _ ho)
  have := above other (List.mem_append_left _ ho)
  rw [← split, List.cons_append] at known
  rcases List.mem_cons.mp known with rfl | stays
  · omega
  · exact ⟨later, left ▸ stays, less, within⟩

end Narsil.Durability.CheckpointRun
