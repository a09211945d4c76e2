import Narsil.Durability.CallerSteps

/-!
# The steps of recovery

A crash at any moment, and recovery from the removal of the prepared segment to
the marker it rewrites. Whatever step it stops at, the disk keeps what is owed,
and a recovery that ends adopts the entries it returned.
-/
namespace Narsil.Durability

variable {codec : EntryCodec} {v : LogView} {s : LogState} {segs : List Segment}
  {fromSeqNoExclusive : Nat} {replay : Replay} {read : WalReadResult} {tail : ActiveTail}
  {m : CommitMarkerState} {p : Segment} {j k : Nat}

/-- The crash leaves a readable commit marker, or nothing in the segments but a
synced header. -/
def MarkerSurvives (s : LogState) (outcome : CrashOutcome) : Prop :=
  (readCommitMarker (crashDisk s.disk outcome.kept outcome.marker).marker).isSome = true ∨
  ∀ f ∈ (crashDisk s.disk outcome.kept outcome.marker).segments,
    f.bytes = writeSegmentHeader ∧ f.synced = segmentHeaderSize

instance (s : LogState) (outcome : CrashOutcome) : Decidable (MarkerSurvives s outcome) :=
  inferInstanceAs (Decidable (_ ∨ _))

theorem crash_inv (disk : DiskInv codec s.truncated s.appended (owedOf s) s.disk segs)
    (positive : ∀ p ∈ segs, 0 < p.1.startSeqNo) {outcome : CrashOutcome}
    (below : ∀ e ∈ s.truncated, e.seqNo ≤ outcome.fromSeqNoExclusive)
    (survives : MarkerSurvives s outcome) :
    RecoveringInv codec (crash s outcome) (segs.map (cutSegment outcome.kept))
      outcome.fromSeqNoExclusive .removeNext where
  disk := disk.crash outcome.kept outcome.marker
  positive := by
    intro q hq
    obtain ⟨r, hr, rfl⟩ := List.mem_map.mp hq
    exact positive r hr
  below := below
  restarted := ⟨rfl, rfl, rfl, rfl, rfl⟩
  phase := by
    refine ⟨rfl, fun missing => ?_⟩
    rcases survives with readable | bare
    · rw [show readCommitMarker (crashDisk s.disk outcome.kept outcome.marker).marker = none
        from missing] at readable
      cases readable
    · exact bare

theorem finishRecovery_inv (restarted : Restarted s)
    (below : ∀ e ∈ s.truncated, e.seqNo ≤ fromSeqNoExclusive)
    (disk : DiskInv codec s.truncated (s.truncated ++ replay.entries)
      (s.truncated ++ replay.entries) s.disk segs)
    (isSealed : ∀ q ∈ segs, Whole codec q ∧ Sealed codec q) (quiet : s.disk.markerWrite = none)
    (positive : ∀ q ∈ segs, 0 < q.1.startSeqNo)
    (last : ∀ m i, readCommitMarker s.disk.marker = some (m, i) →
      ∀ q ∈ segs, q.1.startSeqNo ≤ m.activeSegmentSeqNo)
    (owed : ∀ e ∈ s.acknowledged, e ∈ s.truncated ++ replay.entries)
    (highest : replay.position.highestSeqNo = max fromSeqNoExclusive (highestSeqNo replay.entries)) :
    RunningInv codec (finishRecovery s replay) segs := by
  obtain ⟨writer, caller, lock, coordinator, preparing⟩ := restarted
  have owed' : ∀ e ∈ s.acknowledged ++ (s.truncated ++ replay.entries),
      e ∈ s.truncated ++ replay.entries := by
    intro e he
    rcases List.mem_append.mp he with old | new
    · exact owed e old
    · exact new
  have number : ∀ e ∈ s.truncated ++ replay.entries, e.seqNo < replay.position.highestSeqNo + 1 := by
    intro e he
    rw [highest]
    rcases List.mem_append.mp he with dropped | here
    · have := below e dropped
      omega
    · have := le_highestSeqNo here
      omega
  have starts : ∀ q ∈ segs, q.1.startSeqNo ≤ (findActiveSegmentKey s.disk).getD 0 := by
    rcases findActiveSegmentKey_cases disk.layout with ⟨rfl, -⟩ | ⟨p, -, newest, found⟩
    · simp
    · rw [found]
      exact newest
  refine
    { common :=
        { disk := disk.mono owed'
          whole := fun q hq => (isSealed q hq).1
          starts := fun q hq => ⟨positive q hq, Nat.le_trans (starts q hq) (Nat.le_max_right _ _)⟩
          next := Nat.lt_of_lt_of_le (Nat.succ_pos _) (Nat.le_max_left _ _)
          below := fun e he => Nat.lt_of_lt_of_le (number e he) (Nat.le_max_left _ _)
          settled := ?_
          owed := owed'
          counted := ?_ }
      prepared := ?_
      preparing := ?_
      owes := ?_
      ascending := ?_
      ahead := ?_
      lock := ?_
      caller := ?_ }
  · simp [LogState.view, finishRecovery, caller, pendingOf]
  · refine ⟨?_, Or.inl ?_, ?_, ?_, ?_⟩
    · simp [LogState.view, finishRecovery, writer, createWalWriter]
    · simp [LogState.view, finishRecovery, writer, createWalWriter]
    · simp [LogState.view, finishRecovery, writer, createWalWriter]
    · intro m i marker
      obtain ⟨p, j, covers, -⟩ := disk.current m i marker
      exact Nat.le_trans covers.highest
        (highestSeqNo_mono (prefix_covered j disk.layout covers).subset)
    · intro w known
      simp [LogState.view, finishRecovery, writer, createWalWriter] at known
  · intro _ prepared
    simp [finishRecovery, writer, createWalWriter] at prepared
  · intro now
    simp [finishRecovery, preparing] at now
  · simp only [finishRecovery, coordinator]
    exact owes_idle _
  · simp only [finishRecovery, caller]
    exact List.Pairwise.nil
  · simp [finishRecovery, caller, entriesOf]
  · simp only [finishRecovery, lock, caller]
    refine ⟨quiet, Or.inl ⟨⟨?_, fun q hq => (isSealed q hq).2, ?_, ?_⟩, rfl⟩⟩
    · simp [LogState.view, writer, createWalWriter]
    · exact fun m i marker => ⟨last m i marker, disk.current m i marker⟩
    · exact fun missing => (disk.unmarked missing).1
  · simp only [finishRecovery, caller]
    trivial

theorem adopt_inv (restarted : Restarted s)
    (below : ∀ e ∈ s.truncated, e.seqNo ≤ fromSeqNoExclusive)
    (disk : DiskInv codec s.truncated s.appended (owedOf s) s.disk segs)
    (positive : ∀ q ∈ segs, 0 < q.1.startSeqNo) (quiet : s.disk.markerWrite = none) {i : Nat}
    (current : readCommitMarker s.disk.marker = some (m, i))
    (covers : MarkerCovers codec s.truncated segs m.frontier p k)
    (whole : p.1.bytes = segmentBytes codec (p.2.take k)) (synced : p.1.synced = p.1.bytes.length)
    (last : ∀ q ∈ segs, q.1.startSeqNo ≤ m.activeSegmentSeqNo)
    (entries : s.truncated ++ replay.entries = coveredBy s.truncated segs m.frontier p k)
    (recovers : Recovers s.truncated s.appended (owedOf s) fromSeqNoExclusive replay) :
    ∃ segs', RunningInv codec (finishRecovery s replay) segs' := by
  obtain ⟨adopted, isSealed⟩ := disk.adopt quiet current covers whole synced last
  rw [← entries] at adopted
  refine ⟨_, finishRecovery_inv restarted below adopted isSealed quiet ?_ ?_ ?_ recovers.highest⟩
  · intro q hq
    obtain ⟨r, hr, rfl⟩ := List.mem_map.mp hq
    exact positive r hr
  · intro m' i' marker q hq
    rw [current] at marker
    cases marker
    obtain ⟨r, hr, rfl⟩ := List.mem_map.mp hq
    exact last r hr
  · exact fun e he => recovers.owed e (List.mem_append_left _ he)

theorem Replayed.remove (h : Replayed codec v segs fromSeqNoExclusive replay tail m p j k)
    {orphan : Nat} (behind : m.activeSegmentSeqNo < orphan) (disk : Disk)
    (marker : disk.marker = v.disk.marker) (write : disk.markerWrite = v.disk.markerWrite) :
    Replayed codec { v with disk := disk } (segs.filter fun q => q.1.startSeqNo ≠ orphan)
      fromSeqNoExclusive replay tail m p j k where
  quiet := write.trans h.quiet
  current := by
    obtain ⟨i, current⟩ := h.current
    exact ⟨i, (congrArg readCommitMarker marker).trans current⟩
  covers := h.covers.remove behind
  synced := h.synced
  key := h.key
  found := h.found
  cleanEnd := h.cleanEnd
  order := h.order
  count := h.count
  clean := h.clean
  entries := h.entries.trans (coveredBy_remove behind).symm
  recovers := h.recovers

private theorem recovering {phase : RecoveryPhase} {disk : Disk} (restarted : Restarted s)
    (below : ∀ e ∈ s.truncated, e.seqNo ≤ fromSeqNoExclusive)
    (inv : DiskInv codec s.truncated s.appended (owedOf s) disk segs)
    (positive : ∀ q ∈ segs, 0 < q.1.startSeqNo)
    (next : RecoveryInv codec { s.view with disk := disk } segs fromSeqNoExclusive phase) :
    LogInv codec { s with disk := disk, mode := .recovering fromSeqNoExclusive phase } :=
  ⟨segs, inv, positive, below,
    ⟨restarted.writer, restarted.caller, restarted.lock, restarted.coordinator, restarted.preparing⟩,
    next⟩

private theorem removeNext_inv (inv : RecoveringInv codec s segs fromSeqNoExclusive .removeNext) :
    LogInv codec (recoverStep codec s fromSeqNoExclusive .removeNext) :=
  recovering inv.restarted inv.below (inv.disk.withNext none) inv.positive inv.phase

private theorem replay_inv (inv : RecoveringInv codec s segs fromSeqNoExclusive .replay) :
    LogInv codec (recoverStep codec s fromSeqNoExclusive .replay) := by
  obtain ⟨disk, positive, below, restarted, quiet, bare⟩ := inv
  cases current : readCommitMarker s.disk.marker with
  | none =>
    have replayed : replayWal codec s.disk fromSeqNoExclusive = _ :=
      replayWal_unmarked fromSeqNoExclusive current
    obtain ⟨noneOwed, noneTruncated⟩ := disk.unmarked current
    obtain ⟨acknowledged, -⟩ := List.append_eq_nil_iff.mp noneOwed
    have headers : ∀ q ∈ segs, q.1.bytes = writeSegmentHeader ∧ q.1.synced = segmentHeaderSize := by
      intro q hq
      refine bare current q.1 ?_
      simp only [LogState.view, disk.layout.files_eq]
      exact List.mem_map_of_mem hq
    obtain ⟨adopted, isSealed⟩ := disk.adopt_bare quiet current headers
    simp only [recoverStep, replayed]
    refine ⟨_, finishRecovery_inv restarted below ?_ isSealed quiet ?_ ?_ ?_ ?_⟩
    · simp only [noneTruncated]
      exact adopted
    · intro q hq
      obtain ⟨r, hr, rfl⟩ := List.mem_map.mp hq
      exact positive r hr
    · intro m i marker
      rw [current] at marker
      cases marker
    · simp [acknowledged]
    · simp [Replay.entries]
  | some found =>
    obtain ⟨m, i⟩ := found
    obtain ⟨p, j, k, read, replay, covers, synced, reads, found, replayed, recovers⟩ :=
      replayWal_recovers disk fromSeqNoExclusive below current
    simp only [recoverStep, replayed, found]
    refine recovering restarted below disk positive
      ⟨_, m, p, j, k, reads.marker, reads.tail, ⟨quiet, ⟨i, current⟩, covers, synced, rfl, rfl, rfl,
        reads.order, reads.count, reads.clean, ?_, recovers⟩, rfl, ?_, ?_⟩
    · simp only [Replay.entries, found, Option.elim_some, reads.entries, coveredBy, List.append_assoc]
    · intro q hq later
      refine List.mem_filter.mpr ⟨?_, by simpa [reads.marker] using later⟩
      rw [reads.segments, disk.layout.files_eq, List.map_map]
      exact List.mem_map_of_mem hq
    · intro orphan ho
      simpa [reads.marker] using (List.mem_filter.mp ho).2

theorem Replayed.reached (h : Replayed codec v segs fromSeqNoExclusive replay tail m p j k)
    (none : tail.entries = []) : j = k := by
  have dropped := congrArg List.length none
  rw [h.found] at dropped
  simp only [List.length_drop, List.length_take, List.length_nil] at dropped
  have := h.order
  have := h.count
  omega

private theorem deleteOrphan_inv {orphan : Nat} {rest : List Nat}
    (inv : RecoveringInv codec s segs fromSeqNoExclusive (.deleteOrphans replay read (orphan :: rest))) :
    LogInv codec (recoverStep codec s fromSeqNoExclusive (.deleteOrphans replay read (orphan :: rest))) := by
  obtain ⟨disk, positive, below, restarted, tail, m, p, j, k, marker, found, replayed, size, all, behind⟩ := inv
  obtain ⟨i, current⟩ := replayed.current
  have isBehind := behind orphan (by simp)
  refine recovering restarted below (disk.remove current replayed.quiet isBehind) ?_
    ⟨tail, m, p, j, k, marker, found, replayed.remove isBehind _ rfl rfl, size, ?_, ?_⟩
  · exact fun q hq => positive q (List.mem_filter.mp hq).1
  · intro q hq later
    obtain ⟨member, kept⟩ := List.mem_filter.mp hq
    rcases List.mem_cons.mp (all q member later) with same | others
    · exact absurd same (by simpa using kept)
    · exact others
  · exact fun other ho => behind other (by simp [ho])

private theorem deletedOrphans_inv
    (inv : RecoveringInv codec s segs fromSeqNoExclusive (.deleteOrphans replay read [])) :
    LogInv codec (recoverStep codec s fromSeqNoExclusive (.deleteOrphans replay read [])) := by
  obtain ⟨disk, positive, below, restarted, tail, m, p, j, k, marker, found, replayed, size, all, -⟩ := inv
  obtain ⟨i, current⟩ := replayed.current
  have last : ∀ q ∈ segs, q.1.startSeqNo ≤ m.activeSegmentSeqNo := by
    intro q hq
    by_contra later
    have := all q hq (by omega)
    simp at this
  simp only [recoverStep, found]
  split
  next clean =>
    -- Nothing beyond the marker and no torn bytes: there is nothing to repair.
    obtain ⟨none, whole⟩ := clean
    have same := replayed.reached none
    subst same
    have length : (segmentBytes codec (p.2.take j)).length = p.1.bytes.length := by
      have ends := replayed.clean.length_le
      rw [replayed.cleanEnd, size] at whole
      omega
    have bytes : p.1.bytes = segmentBytes codec (p.2.take j) :=
      (replayed.clean.eq_of_length length).symm
    have synced : p.1.synced = p.1.bytes.length := by
      have bound : m.frontier.durableByteLength ≤ p.1.synced := replayed.synced
      rw [replayed.covers.length, length] at bound
      have := disk.layout.synced_le p replayed.covers.member
      omega
    exact adopt_inv restarted below disk positive replayed.quiet current replayed.covers bytes synced
      last replayed.entries replayed.recovers
  next repairs =>
    refine recovering restarted below disk positive ⟨m, p, j, k, marker, ?_, last⟩
    exact ⟨replayed.quiet, replayed.current, replayed.covers, replayed.synced, replayed.key,
      replayed.found, replayed.cleanEnd, replayed.order, replayed.count, replayed.clean,
      replayed.entries, replayed.recovers⟩

theorem repairFile_start (cleanEnd size : Nat) (f : SegmentFile) :
    (repairFile cleanEnd size f).startSeqNo = f.startSeqNo := by
  unfold repairFile
  split <;> rfl

theorem repairFile_whole {f : SegmentFile} {clean : Bytes} (isClean : clean <+: f.bytes)
    (synced : f.synced ≤ f.bytes.length) :
    (repairFile clean.length f.bytes.length f).bytes = clean ∧
    (repairFile clean.length f.bytes.length f).synced = clean.length := by
  have short := isClean.length_le
  have cut := List.prefix_iff_eq_take.mp isClean
  unfold repairFile
  by_cases torn : clean.length < f.bytes.length
  · rw [if_pos torn]
    simp only [SegmentFile.truncate]
    rw [← cut]
    exact ⟨rfl, rfl⟩
  · have whole : clean = f.bytes := isClean.eq_of_length (by omega)
    rw [if_neg torn, whole]
    exact ⟨rfl, by simp only [SegmentFile.sync]; omega⟩

theorem Promised.of_current {disk : Disk} {f : Frontier} (h : Promised disk f) {i : Nat}
    (current : readCommitMarker disk.marker = some (m, i)) (quiet : disk.markerWrite = none) :
    f = m.frontier := by
  rcases h with ⟨m', i', read, rfl⟩ | ⟨i', m', write, rfl⟩
  · rw [current] at read
    cases read
    rfl
  · rw [quiet] at write
    cases write

/-- The segments after the repair of the tail. -/
def repairAt (tail : ActiveTail) (size : Nat) (q : Segment) : Segment :=
  (if q.1.startSeqNo = tail.key then repairFile tail.cleanEnd size q.1 else q.1, q.2)

private theorem repairAt_start (size : Nat) (q : Segment) :
    (repairAt tail size q).1.startSeqNo = q.1.startSeqNo := by
  unfold repairAt
  split
  · exact repairFile_start _ _ _
  · rfl

private theorem repairAt_other {size : Nat} {q : Segment} (other : q.1.startSeqNo ≠ tail.key) :
    repairAt tail size q = q := by
  unfold repairAt
  rw [if_neg other]

theorem Replayed.repair (h : Replayed codec v segs fromSeqNoExclusive replay tail m p j k)
    (disk : DiskInv codec v.truncated v.appended v.owed v.disk segs) :
    DiskInv codec v.truncated v.appended v.owed
      { v.disk with
        segments := updateSegment v.disk.segments tail.key
          (repairFile tail.cleanEnd p.1.bytes.length) }
      (segs.map (repairAt tail p.1.bytes.length)) ∧
    (repairAt tail p.1.bytes.length p).1.bytes = segmentBytes codec (p.2.take k) ∧
    (repairAt tail p.1.bytes.length p).1.synced
      = (repairAt tail p.1.bytes.length p).1.bytes.length := by
  obtain ⟨i, current⟩ := h.current
  have start : p.1.startSeqNo = m.activeSegmentSeqNo := h.covers.start
  have whole := repairFile_whole h.clean (disk.layout.synced_le p h.covers.member)
  rw [← h.cleanEnd] at whole
  have isP : ∀ q ∈ segs, q.1.startSeqNo = tail.key → q = p := fun q hq same =>
    disk.layout.start_inj hq h.covers.member (same.trans h.key)
  have here : (repairAt tail p.1.bytes.length p).1 = repairFile tail.cleanEnd p.1.bytes.length p.1 := by
    rw [repairAt, if_pos h.key.symm]
  refine ⟨disk.update tail.key _ (repairFile_start _ _) ?_ ?_ ?_ ?_, ?_, ?_⟩
  · intro q hq same
    rw [isP q hq same, whole.1]
    exact h.clean.trans (disk.layout.written p h.covers.member)
  · intro q hq same
    have synced := Nat.le_of_eq h.cleanEnd
    rwa [isP q hq same, whole.1, whole.2]
  · -- The marker names the segment that is repaired, so none lies behind it.
    intro f promised less
    rw [promised.of_current current h.quiet, h.key, frontier_activeSegmentSeqNo] at less
    omega
  · intro f promised _ q hq same _
    have order : segmentBytes codec (p.2.take j) <+: segmentBytes codec (p.2.take k) := by
      refine (List.prefix_append_right_inj _).mpr (prefix_frames ?_)
      exact List.take_prefix_take_left h.order
    rw [promised.of_current current h.quiet, isP q hq same, whole.2, h.covers.length, h.cleanEnd]
    exact order.length_le
  · rw [here]
    exact whole.1
  · rw [here, whole.1, whole.2, h.cleanEnd]

theorem Replayed.repaired (h : Replayed codec v segs fromSeqNoExclusive replay tail m p j k)
    (disk : Disk) (marker : disk.marker = v.disk.marker) (write : disk.markerWrite = v.disk.markerWrite)
    (ends : (repairAt tail p.1.bytes.length p).1.bytes = segmentBytes codec (p.2.take k))
    (synced : (repairAt tail p.1.bytes.length p).1.synced
      = (repairAt tail p.1.bytes.length p).1.bytes.length) :
    Replayed codec { v with disk := disk } (segs.map (repairAt tail p.1.bytes.length))
      fromSeqNoExclusive replay tail m (repairAt tail p.1.bytes.length p) j k := by
  have startOf : ∀ q ∈ segs, (repairAt tail p.1.bytes.length q).1.startSeqNo = q.1.startSeqNo :=
    fun q _ => repairAt_start _ q
  have entriesOf : ∀ q ∈ segs, (repairAt tail p.1.bytes.length q).2 = q.2 := fun q _ => rfl
  have start : p.1.startSeqNo = m.activeSegmentSeqNo := h.covers.start
  have order : segmentBytes codec (p.2.take j) <+: segmentBytes codec (p.2.take k) :=
    (List.prefix_append_right_inj _).mpr (prefix_frames (List.take_prefix_take_left h.order))
  exact
    { quiet := write.trans h.quiet
      current := by
        obtain ⟨i, current⟩ := h.current
        exact ⟨i, (congrArg readCommitMarker marker).trans current⟩
      covers := by
        refine h.covers.map startOf entriesOf ?_
        intro q hq less isSealed
        rw [frontier_activeSegmentSeqNo] at less
        rw [repairAt_other (by rw [h.key]; omega)]
        exact isSealed
      synced := by
        have durable : m.durableByteLength = (segmentBytes codec (p.2.take j)).length := h.covers.length
        rw [synced, ends, durable]
        exact order.length_le
      key := by rw [repairAt_start]; exact h.key
      found := h.found
      cleanEnd := h.cleanEnd
      order := h.order
      count := h.count
      clean := ends ▸ List.prefix_rfl
      entries := h.entries.trans (coveredBy_map startOf entriesOf _ h.covers.member k).symm
      recovers := h.recovers }

private theorem repairTail_inv
    (inv : RecoveringInv codec s segs fromSeqNoExclusive (.repairTail replay read tail)) :
    LogInv codec (recoverStep codec s fromSeqNoExclusive (.repairTail replay read tail)) := by
  obtain ⟨disk, positive, below, restarted, m, p, j, k, marker, replayed, last⟩ := inv
  obtain ⟨i, current⟩ := replayed.current
  have found : findSegment s.disk.segments tail.key = some p.1 := by
    rw [replayed.key]
    exact findSegment_some disk.layout replayed.covers.member
  obtain ⟨disk', ends, synced⟩ := replayed.repair disk
  have replayed' := replayed.repaired
    { s.disk with
      segments := updateSegment s.disk.segments tail.key
        (repairFile tail.cleanEnd p.1.bytes.length) } rfl rfl ends synced
  have positive' : ∀ q ∈ segs.map (repairAt tail p.1.bytes.length), 0 < q.1.startSeqNo := by
    intro q hq
    obtain ⟨r, hr, rfl⟩ := List.mem_map.mp hq
    rw [repairAt_start]
    exact positive r hr
  have last' : ∀ q ∈ segs.map (repairAt tail p.1.bytes.length),
      q.1.startSeqNo ≤ m.activeSegmentSeqNo := by
    intro q hq
    obtain ⟨r, hr, rfl⟩ := List.mem_map.mp hq
    rw [repairAt_start]
    exact last r hr
  simp only [recoverStep, found, Option.elim_some]
  split
  next none =>
    have same := replayed.reached none
    subst same
    exact adopt_inv ⟨restarted.writer, restarted.caller, restarted.lock, restarted.coordinator,
      restarted.preparing⟩ below
      disk' positive' replayed.quiet current replayed'.covers ends synced last' replayed'.entries
      replayed'.recovers
  next some =>
    exact recovering restarted below disk' positive' ⟨m, _, j, k, marker, replayed', last', ends, synced⟩

/-- The marker recovery writes: it covers the tail as well. -/
def recoveredFrontier (read : WalReadResult) (tail : ActiveTail) : Frontier :=
  ⟨read.marker.activeSegmentSeqNo, tail.cleanEnd,
    max read.marker.highestDurableSeqNo (tail.entries.getLast?.elim 0 ReplicationLogEntry.seqNo)⟩

theorem Replayed.recovered (h : Replayed codec v segs fromSeqNoExclusive replay tail m p j k)
    (marker : read.marker = m) :
    MarkerCovers codec v.truncated segs (recoveredFrontier read tail) p k ∧
    coveredBy v.truncated segs (recoveredFrontier read tail) p k
      = coveredBy v.truncated segs m.frontier p k := by
  have active : (recoveredFrontier read tail).activeSegmentSeqNo = m.frontier.activeSegmentSeqNo := by
    rw [← marker]
    rfl
  have same : coveredBy v.truncated segs (recoveredFrontier read tail) p k
      = coveredBy v.truncated segs m.frontier p k := by
    unfold coveredBy
    rw [active]
  have shorter : ∀ e ∈ coveredBy v.truncated segs m.frontier p j,
      e ∈ coveredBy v.truncated segs m.frontier p k := by
    intro e he
    rcases List.mem_append.mp he with earlier | mine
    · exact List.mem_append_left _ earlier
    · exact List.mem_append_right _ (List.take_subset_take_left _ h.order mine)
  refine ⟨⟨h.covers.member, active ▸ h.covers.start, h.count, h.cleanEnd, active ▸ h.covers.earlier,
    active ▸ h.covers.later, ?_⟩, same⟩
  rw [same]
  refine Nat.max_le.mpr ⟨?_, ?_⟩
  · rw [marker]
    exact Nat.le_trans h.covers.highest (highestSeqNo_mono shorter)
  · cases last : tail.entries.getLast? with
    | none => simp
    | some e =>
      have member := List.mem_of_getLast? last
      rw [h.found] at member
      exact le_highestSeqNo (List.mem_append_right _ (List.mem_of_mem_drop member))

private theorem writeMarker_inv
    (inv : RecoveringInv codec s segs fromSeqNoExclusive (.writeMarker replay read tail)) :
    LogInv codec (recoverStep codec s fromSeqNoExclusive (.writeMarker replay read tail)) := by
  obtain ⟨disk, positive, below, restarted, m, p, j, k, marker, replayed, last, ends, synced⟩ := inv
  obtain ⟨covers, same⟩ := replayed.recovered marker
  have entries : s.truncated ++ replay.entries
      = coveredBy s.truncated segs (recoveredFrontier read tail) p k := replayed.entries.trans same.symm
  have holds : MarkerHolds codec s.truncated (owedOf s) segs (recoveredFrontier read tail) := by
    refine ⟨p, k, covers, ?_, fun e he => entries ▸ replayed.recovers.owed e he⟩
    rw [synced, ends]
    exact Nat.le_of_eq replayed.cleanEnd
  refine recovering restarted below (disk.issue holds) positive
    ⟨_, _, p, k, rfl, covers, entries, ?_, ends, synced, replayed.recovers⟩
  intro q hq
  have := last q hq
  rw [← marker] at this
  exact this

private theorem marking_inv {writer : MarkerWriter}
    (inv : RecoveringInv codec s segs fromSeqNoExclusive (.marking replay writer)) :
    LogInv codec (recoverStep codec s fromSeqNoExclusive (.marking replay writer)) := by
  obtain ⟨disk, positive, below, restarted, i, m, p, k, write, covers, entries, last, ends, synced,
    recovers⟩ := inv
  have finished := disk.finish write writer (disk.inFlight i m write)
  have read := read_finishMarker disk write writer
  have quiet : (finishMarker s.disk writer).1.markerWrite = none := by
    unfold finishMarker
    rw [show s.disk.markerWrite = some (i, m) from write]
  exact adopt_inv ⟨restarted.writer, restarted.caller, restarted.lock, restarted.coordinator,
      restarted.preparing⟩ below
    finished positive quiet read covers ends synced last entries recovers

theorem recoverStep_inv {phase : RecoveryPhase}
    (inv : RecoveringInv codec s segs fromSeqNoExclusive phase) :
    LogInv codec (recoverStep codec s fromSeqNoExclusive phase) := by
  match phase, inv with
  | .removeNext, inv => exact removeNext_inv inv
  | .replay, inv => exact replay_inv inv
  | .deleteOrphans _ _ (_ :: _), inv => exact deleteOrphan_inv inv
  | .deleteOrphans _ _ [], inv => exact deletedOrphans_inv inv
  | .repairTail _ _ _, inv => exact repairTail_inv inv
  | .writeMarker _ _ _, inv => exact writeMarker_inv inv
  | .marking _ _, inv => exact marking_inv inv

end Narsil.Durability
