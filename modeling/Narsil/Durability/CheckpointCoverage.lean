import Narsil.Durability.CheckpointInvariant

/-!
# The manifest and the log cover every entry

At every point of every run of an index, a crash leaves no durable entry out:
the committed manifest covers it or recovery reads it from the log. The crashes
that leave segment bytes without a readable marker are left out, as for the log
alone: a run shows that recovery refuses the log after one of them, while a
checkpoint is being written.
-/
namespace Narsil.Durability.CheckpointRun

open Transition

variable {codec : EntryCodec} {segmentMaxBytes : Nat} {s : IndexState} {p : PartitionState}
  {partitionId covered : Nat}

/-- After a crash that leaves `outcome` of a log, recovery reads the durable
entries that the manifest does not cover. -/
def CoveredAfter (codec : EntryCodec) (covered : Nat) (log : LogState) (outcome : CrashOutcome) :
    Prop :=
  ∃ replay, replayAfter codec log outcome = .ok replay ∧
    ∀ e ∈ owedOf log, e.seqNo ≤ covered ∨ e ∈ replay.entries

/-- While the engine runs, a segment file holds each entry the manifest does not
cover. -/
def HeldBySegments (codec : EntryCodec) (covered : Nat) (log : LogState) : Prop :=
  ∀ e ∈ log.appended, e.seqNo ≤ covered ∨ ∃ f ∈ log.disk.segments, e ∈ segmentEntries codec f

/-- The segment that truncation removes next is not the active one, and holds no
record beyond the checkpoint. -/
structure SafeRemoval (codec : EntryCodec) (log : LogState) (lastSeqNo start : Nat) : Prop where
  notOpen : log.writer.handle ≠ some start
  notActive : ∀ f, Promised log.disk f → f.activeSegmentSeqNo ≠ start
  covered : ∀ f, findSegment log.disk.segments start = some f →
    ∀ e ∈ segmentEntries codec f, e.seqNo ≤ lastSeqNo

theorem PartitionInv.coveredAfter (h : PartitionInv codec covered p) (kept : List (Nat × Nat))
    (marker : SlotOutcome) : CoveredAfter codec covered p.log ⟨kept, marker, covered⟩ := by
  obtain ⟨segs, disk, positive⟩ := h.log.disk
  have crashed := (disk.crash kept marker).withNext none
  cases current : readCommitMarker (crashDisk p.log.disk kept marker).marker with
  | none =>
    -- Without a marker nothing has been promised yet.
    have nothing := (crashed.unmarked current).1
    refine ⟨_, replayWal_unmarked covered current, fun e he => ?_⟩
    rw [nothing] at he
    cases he
  | some found =>
    obtain ⟨m, i⟩ := found
    obtain ⟨q, j, k, read, replay, -, -, -, -, replayed, recovers⟩ :=
      replayWal_recovers crashed covered h.truncated current
    refine ⟨replay, replayed, fun e he => ?_⟩
    rcases List.mem_append.mp (recovers.owed e he) with old | new
    · exact Or.inl (h.truncated e old)
    · exact Or.inr new

theorem segmentEntries_whole {log : LogState} {segs : List Segment} {q : Segment}
    (run : RunningInv codec log segs) (member : q ∈ segs) : segmentEntries codec q.1 = q.2 := by
  have layout := run.common.disk.layout
  obtain ⟨pre, post, split, -, -⟩ := layout.split_at member
  have ascending : Ascending q.2 := by
    have all := layout.ascending
    rw [← layout.entries, split] at all
    simp only [List.flatMap_append, List.flatMap_cons] at all
    exact all.append_right.append_right.append_left
  have region := readDurableRegion_written q.2 []
    (fun e he => layout.recordable e (layout.mem_appended member he)) ascending
  rw [List.append_nil] at region
  rw [segmentEntries, show q.1.bytes = _ from run.common.whole q member, region]
  rfl

theorem PartitionInv.heldBySegments (h : PartitionInv codec covered p)
    (running : p.log.mode = .running) : HeldBySegments codec covered p.log := by
  obtain ⟨segs, run⟩ := h.log.running running
  have layout := run.common.disk.layout
  intro e he
  have entries : p.log.truncated ++ segs.flatMap Prod.snd = p.log.appended := layout.entries
  rw [← entries] at he
  rcases List.mem_append.mp he with old | new
  · exact Or.inl (h.truncated e old)
  · obtain ⟨q, hq, inside⟩ := List.mem_flatMap.mp new
    have files : p.log.disk.segments = segs.map Prod.fst := layout.files_eq
    refine Or.inr ⟨q.1, files ▸ List.mem_map_of_mem hq, ?_⟩
    rw [segmentEntries_whole run hq]
    exact inside

theorem open_segment {log : LogState} {segs : List Segment} (run : RunningInv codec log segs)
    {key : Nat} (handle : log.writer.handle = some key) :
    (∀ q ∈ segs, q.1.startSeqNo ≤ key) ∨ MarkersName log.disk key := by
  have inFlush : ∀ {pending extra own stage}, FlushInv codec log.view segs pending own extra stage →
      ∀ q ∈ segs, q.1.startSeqNo ≤ key := by
    intro pending extra own stage flush
    rcases flush with ⟨-, -, closed, -⟩ | ⟨p, opened, -, -⟩
    · have : log.writer.handle = none := closed.handle
      rw [handle] at this
      cases this
    · have same : log.writer.handle = some p.1.startSeqNo := opened.handle
      rw [handle] at same
      cases same
      exact opened.last
  match log.lock, run.lock with
  | none, lock => exact Or.inl (lock.2.open_last handle)
  | some (.coordinator, job), lock =>
    obtain ⟨stage, batch, rfl, -, flush⟩ := lock
    exact Or.inl (inFlush flush)
  | some (.caller, job), lock =>
    obtain ⟨after, -, -, inv⟩ := lock
    have ofSwap : ∀ {old p}, SwapReady codec log.view old p → MarkersName log.disk key := by
      intro old p swap
      have same : log.writer.handle = some p.1.startSeqNo := swap.opened.handle
      rw [handle] at same
      cases same
      exact swap.named
    cases job with
    | flush stage thenOpens => exact Or.inl (inFlush inv.1)
    | openSegment start => exact Or.inl (inv.2.2.2 key handle)
    | checkpointRoll => exact Or.inl (inv.2.2.open_last handle)
    | swapWriter =>
      obtain ⟨-, -, p, swap⟩ := inv
      exact Or.inr (ofSwap swap)
    | swapSeal synced moved =>
      obtain ⟨-, old, p, swap⟩ := inv
      exact Or.inr (ofSwap swap.ready)
    | swapMarking f => exact Or.inl (inFlush inv)

theorem RemovalPlan.safe {log : LogState} {segs : List Segment} {lastSeqNo start : Nat}
    {startSeqNos : List Nat} (run : RunningInv codec log segs)
    (plan : RemovalPlan log.disk lastSeqNo (start :: startSeqNos)) :
    SafeRemoval codec log lastSeqNo start := by
  obtain ⟨q, rfl, drop, later, file, entries, within⟩ := plan.droppable run.common.disk
  refine ⟨?_, ?_, ?_⟩
  · intro isOpen
    rcases open_segment run isOpen with last | named
    · obtain ⟨r, hr, less⟩ := later
      have := last r hr
      omega
    · obtain ⟨m, i, read⟩ := drop.marked
      have := named.1 m i read
      have := drop.behind _ (Or.inl ⟨m, i, read, rfl⟩)
      simp only [frontier_activeSegmentSeqNo] at this
      omega
  · intro f promised same
    have := drop.behind f promised
    omega
  · intro f found e he
    rw [show findSegment log.disk.segments q.1.startSeqNo = some q.1 from file] at found
    cases found
    rw [entries] at he
    exact within e he

/-- Log truncation never uncovers an entry. At every point of every run whose
crashes leave the markers readable, or no more than a header, each entry that was
promised to last is covered by the committed manifest or read by the recovery
after a crash; what the manifest does not cover is in a segment file; and the
segment truncation removes next is neither active nor holds a record beyond the
target, which the committed manifest covers. -/
theorem truncateCoveredSegments_uncovers_nothing (codec : EntryCodec) (segmentMaxBytes : Nat)
    (partitionCount : Nat) (acts : List Action) (s : IndexState)
    (recordable : ∀ a ∈ acts, StepRecordable codec a)
    (keeps : AllSteps (next codec segmentMaxBytes) StepKeepsMarkers (.initial partitionCount) acts)
    (reached : run (next codec segmentMaxBytes) (.initial partitionCount) acts = some s) :
    ∀ partitionId p, s.partitions[partitionId]? = some p →
      (∀ outcomes, CoveredAfter codec (s.covered partitionId) p.log
        (crashOutcome s outcomes partitionId)) ∧
      (p.log.mode = .running → HeldBySegments codec (s.covered partitionId) p.log) ∧
      ∀ target rest start startSeqNos,
        s.phase = .truncating (target :: rest) (.remove (start :: startSeqNos)) →
        target.partitionId = partitionId →
        target.lastSeqNo ≤ s.covered partitionId ∧
          SafeRemoval codec p.log target.lastSeqNo start := by
  intro partitionId p found
  have inv := run_inv recordable keeps reached
  have partition := inv.partitions partitionId p found
  refine ⟨fun outcomes => partition.coveredAfter _ _, partition.heldBySegments, ?_⟩
  rintro target rest start startSeqNos phase rfl
  have now := inv.phase
  rw [phase] at now
  obtain ⟨all, covers, safe⟩ := now
  obtain ⟨segs, running⟩ := partition.log.running (all.at found)
  exact ⟨covers target (by simp), RemovalPlan.safe running (safe target rest rfl p found)⟩

/-- A batch of one entry and a checkpoint that is about to remove its segment. -/
def checkpointedRun : List Action :=
  [.recordBatch 0 [sampleEntry 1], .log 0 .callerStep, .log 0 (.takeLock .caller)]
    ++ List.replicate 5 (.log 0 (.lockStep false)) ++ List.replicate 4 (.log 0 .callerStep)
    ++ [.batchReturns 0, .startCheckpoint false, .captureCheckpoint, .log 0 .prepareCheckpointRoll,
      .log 0 .prepareStep, .log 0 .rollForCheckpoint, .log 0 (.takeLock .caller)]
    ++ List.replicate 6 (.log 0 (.lockStep false)) ++ [.log 0 .commit, .log 0 (.takeLock .coordinator)]
    ++ List.replicate 5 (.log 0 (.lockStep false)) ++ [.commitManifest, .truncateStep, .truncateStep]

set_option maxRecDepth 100000 in
theorem truncateCoveredSegments_uncovers_nothing_sample :
    ∃ s p, run (next sampleCodec 1000) (.initial 1) checkpointedRun = some s ∧
      s.phase = .truncating [⟨0, 1⟩] (.remove [1]) ∧ s.partitions[0]? = some p ∧
      s.covered 0 = 1 ∧ SafeRemoval sampleCodec p.log 1 1 := by
  have recordable : ∀ a ∈ checkpointedRun, StepRecordable sampleCodec a := by
    simp [checkpointedRun, StepRecordable, sampleEntry_recordable]
  have keeps : AllSteps (next sampleCodec 1000) StepKeepsMarkers (.initial 1) checkpointedRun := by
    decide
  have reaches : (run (next sampleCodec 1000) (.initial 1) checkpointedRun).map
      (fun s => (s.phase, s.partitions.length, s.covered 0))
        = some (.truncating [⟨0, 1⟩] (.remove [1]), 1, 1) := by
    decide
  obtain ⟨s, reached, result⟩ := Option.map_eq_some_iff.mp reaches
  simp only [Prod.mk.injEq] at result
  obtain ⟨phase, count, covered⟩ := result
  have found : s.partitions[0]? = some s.partitions[0] := List.getElem?_eq_getElem (by omega)
  have safe := truncateCoveredSegments_uncovers_nothing sampleCodec 1000 1 checkpointedRun s
    recordable keeps reached 0 _ found
  exact ⟨s, _, reached, phase, found, covered, (safe.2.2 ⟨0, 1⟩ [] 1 [] phase rfl).2⟩

/-- A crash leaves three bytes of the first segment's header and no marker. The
entry appended behind them is acknowledged, and a checkpoint starts. -/
def refusedRun : List Action :=
  [.recordBatch 0 [sampleEntry 1], .log 0 .callerStep, .crash [([(1, 3)], .untouched)],
    .log 0 .recoverStep, .log 0 .recoverStep, .recordBatch 0 [sampleEntry 1]]
    ++ List.replicate 5 (.log 0 .callerStep) ++ [.log 0 .commit, .log 0 (.takeLock .coordinator)]
    ++ List.replicate 5 (.log 0 (.lockStep false))
    ++ [.batchReturns 0, .startCheckpoint false, .captureCheckpoint]

set_option maxRecDepth 100000 in
/-- A crash before the manifest is committed loses the entry: no manifest covers
it, and recovery refuses the log. -/
theorem truncateCoveredSegments_refused :
    (∀ a ∈ refusedRun, StepRecordable sampleCodec a) ∧
    ∃ s p, run (next sampleCodec 1000) (.initial 1) refusedRun = some s ∧
      s.phase = .writing none [⟨0, 1⟩] ∧ s.partitions[0]? = some p ∧
      sampleEntry 1 ∈ p.log.acknowledged ∧ ¬ (sampleEntry 1).seqNo ≤ s.covered 0 ∧
      ¬ CoveredAfter sampleCodec (s.covered 0) p.log (crashOutcome s [] 0) := by
  refine ⟨by simp [refusedRun, StepRecordable, sampleEntry_recordable], ?_⟩
  have ends : (run (next sampleCodec 1000) (.initial 1) refusedRun).map
      (fun s => (s.phase, s.covered 0, s.partitions.map fun p =>
        (p.log.acknowledged, (replayAfter sampleCodec p.log (crashOutcome s [] 0)).toOption)))
      = some (.writing none [⟨0, 1⟩], 0, [([sampleEntry 1], none)]) := by
    decide
  obtain ⟨s, reached, result⟩ := Option.map_eq_some_iff.mp ends
  simp only [Prod.mk.injEq] at result
  obtain ⟨phase, covered, partitions⟩ := result
  obtain ⟨p, only, now⟩ := List.map_eq_singleton_iff.mp partitions
  simp only [Prod.mk.injEq] at now
  refine ⟨s, p, reached, phase, by rw [only]; rfl, by rw [now.1]; simp, ?_, ?_⟩
  · rw [covered]
    decide
  · rintro ⟨replay, replayed, -⟩
    rw [replayed] at now
    cases now.2

end Narsil.Durability.CheckpointRun
