import Narsil.Durability.WalDurability

/-!
# How a running log advances

Truncation decides from segment names and the marker alone. While the engine
runs, new names come behind all old ones, and a new marker names none but the
newest segment.
-/
namespace Narsil.Durability

variable {codec : EntryCodec} {segmentMaxBytes : Nat} {s s' : LogState} {v : LogView}
  {segs : List Segment} {disk disk' : Disk} {w : WalWriter} {nextSeqNo key : Nat}

/-- The sequence numbers the segment files are named by. -/
def segmentStarts (disk : Disk) : List Nat := disk.segments.map SegmentFile.startSeqNo

theorem Layout.segmentStarts {truncated appended : List ReplicationLogEntry}
    (layout : Layout codec truncated appended disk.segments segs) :
    segmentStarts disk = startsOf segs := by
  rw [Durability.segmentStarts, layout.files_eq, startsOf, List.map_map]
  rfl

structure Advances (disk disk' : Disk) : Prop where
  starts : segmentStarts disk <+: segmentStarts disk'
  promised : ∀ f, Promised disk' f → Promised disk f ∨
    ∀ start ∈ segmentStarts disk, start ≤ f.activeSegmentSeqNo
  readable : (readCommitMarker disk.marker).isSome = true →
    (readCommitMarker disk'.marker).isSome = true

theorem Advances.of_starts (starts : segmentStarts disk <+: segmentStarts disk')
    (marker : disk'.marker = disk.marker) (write : disk'.markerWrite = disk.markerWrite) :
    Advances disk disk' where
  starts := starts
  promised := by
    intro f promised
    rw [Promised, marker, write] at promised
    exact Or.inl promised
  readable := by
    rw [marker]
    exact id

theorem Advances.refl (disk : Disk) : Advances disk disk := .of_starts List.prefix_rfl rfl rfl

theorem Advances.update (start : Nat) {change : SegmentFile → SegmentFile}
    (keeps : ∀ f, (change f).startSeqNo = f.startSeqNo) :
    Advances disk { disk with segments := updateSegment disk.segments start change } := by
  have same : segmentStarts { disk with segments := updateSegment disk.segments start change }
      = segmentStarts disk := by
    simp only [segmentStarts, updateSegment, List.map_map]
    refine List.map_congr_left fun f _ => ?_
    simp only [Function.comp_apply]
    split
    · exact keeps f
    · rfl
  exact .of_starts (same ▸ List.prefix_rfl) rfl rfl

theorem Advances.place {file : SegmentFile} (next : Option PreparedFile)
    (newest : ∀ start ∈ segmentStarts disk, start < file.startSeqNo) :
    Advances disk { disk with segments := placeSegment disk.segments file, next := next } := by
  have below : ∀ f ∈ disk.segments, f.startSeqNo < file.startSeqNo := fun f hf =>
    newest _ (List.mem_map_of_mem hf)
  have earlier : disk.segments.filter (fun g => g.startSeqNo < file.startSeqNo) = disk.segments :=
    List.filter_eq_self.mpr fun f hf => decide_eq_true (below f hf)
  refine .of_starts ?_ rfl rfl
  simp only [segmentStarts, placeSegment, earlier, List.map_append]
  exact List.prefix_append _ _

theorem openSegmentByKey_advances (last : ∀ start ∈ segmentStarts disk, start ≤ key) :
    Advances disk (openSegmentByKey disk w key).1 := by
  unfold openSegmentByKey
  split
  next f found =>
    split
    · exact .update key fun _ => rfl
    · exact .refl disk
  next missing =>
    have newest : ∀ start ∈ segmentStarts disk, start < key := by
      intro start hs
      refine Nat.lt_of_le_of_ne (last start hs) fun same => ?_
      obtain ⟨f, hf, rfl⟩ := List.mem_map.mp hs
      have absent := List.find?_eq_none.mp missing f hf
      exact absurd (decide_eq_true same) absent
    exact .place disk.next newest

theorem issueMarker_advances {f : Frontier}
    (newest : ∀ start ∈ segmentStarts disk, start ≤ f.activeSegmentSeqNo) (m : MarkerWriter) :
    Advances disk (issueMarker disk m f).1 where
  starts := List.prefix_rfl
  promised := by
    intro g promised
    rcases promised with current | ⟨i, m, write, rfl⟩
    · exact Or.inl (Or.inl current)
    · simp only [issueMarker, Option.some.injEq, Prod.mk.injEq] at write
      obtain ⟨-, rfl⟩ := write
      exact Or.inr newest
  readable := id

theorem finishMarker_advances {truncated appended owed : List ReplicationLogEntry}
    (h : DiskInv codec truncated appended owed disk segs) (m : MarkerWriter) :
    Advances disk (finishMarker disk m).1 := by
  cases write : disk.markerWrite with
  | none =>
    simp only [finishMarker, write]
    exact .refl disk
  | some issued =>
    obtain ⟨i, state⟩ := issued
    have read := read_finishMarker h write m
    refine ⟨?_, ?_, ?_⟩
    · simp only [finishMarker, write]
      exact List.prefix_rfl
    · rintro f (⟨m', i', current, rfl⟩ | ⟨i', m', pending, -⟩)
      · rw [read] at current
        cases current
        exact Or.inl (Or.inr ⟨_, _, write, rfl⟩)
      · simp [finishMarker, write] at pending
    · intro _
      rw [read]
      rfl

theorem flushStep_advances {truncated appended owed : List ReplicationLogEntry}
    (h : DiskInv codec truncated appended owed disk segs) {stage : FlushStage}
    (marks : ∀ f, stage = .mark f → ∀ start ∈ segmentStarts disk, start ≤ f.activeSegmentSeqNo) :
    Advances disk (flushStep disk w stage).1 := by
  cases stage with
  | start =>
    simp only [flushStep]
    split <;> exact .refl disk
  | capture => exact .refl disk
  | sync f => exact .update f.activeSegmentSeqNo fun _ => rfl
  | mark f => exact issueMarker_advances (marks f rfl) _
  | marking f => exact finishMarker_advances h _

theorem FlushInv.marks_last {pending extra : List ReplicationLogEntry} {own : Prop}
    {stage : FlushStage} (h : FlushInv codec v segs pending own extra stage)
    (starts : segmentStarts v.disk = startsOf segs) {f : Frontier} (mark : stage = .mark f) :
    ∀ start ∈ segmentStarts v.disk, start ≤ f.activeSegmentSeqNo := by
  subst mark
  rcases h with ⟨notMark, -⟩ | ⟨p, opened, -, knows⟩
  · cases notMark
  · intro start hs
    rw [starts] at hs
    obtain ⟨q, hq, rfl⟩ := List.mem_map.mp hs
    rw [knows.2.1.active]
    exact opened.last q hq

theorem SwapInv.newest {synced moved : Bool} {old : List Segment} {p : Segment}
    (h : SwapInv codec v segs synced moved old p) :
    ∀ q ∈ old, q.1.startSeqNo < v.writer.highestAppendedSeqNo + 1 := by
  intro q hq
  have := h.ready.opened.last q hq
  have := h.ready.start
  omega

theorem swapSeal_advances {after : CallerTask} {synced moved moveFirst : Bool}
    (starts : segmentStarts v.disk = startsOf segs)
    (inv : JobInv codec v segs nextSeqNo after (.swapSeal synced moved)) :
    Advances v.disk (lockJobStep moveFirst v.disk v.writer (.swapSeal synced moved)).1 := by
  obtain ⟨-, old, p, swap⟩ := inv
  simp only [lockJobStep]
  split
  next moves =>
    -- The prepared segment arrives behind the segments there are.
    obtain ⟨unmoved, -⟩ := Bool.and_eq_true_iff.mp moves
    have unmoved : moved = false := by simpa using unmoved
    obtain ⟨rfl, next⟩ := swap.waiting unmoved
    rw [next]
    have newest : ∀ start ∈ segmentStarts v.disk, start < v.writer.highestAppendedSeqNo + 1 := by
      intro start hs
      rw [starts] at hs
      obtain ⟨q, hq, rfl⟩ := List.mem_map.mp hs
      exact swap.newest q hq
    exact .place none newest
  next stays =>
    split
    next unsynced => exact .update v.writer.activeStartSeqNo fun _ => rfl
    next isSynced =>
      have synced : synced = true := by simpa using isSynced
      have moved : moved = true := by simpa [synced] using stays
      refine issueMarker_advances ?_ _
      intro start hs
      rw [starts, swap.arrived moved] at hs
      simp only [startsOf, List.map_append, List.map_cons, List.map_nil, List.mem_append,
        List.mem_singleton] at hs
      rcases hs with isOld | new
      · obtain ⟨q, hq, rfl⟩ := List.mem_map.mp isOld
        exact Nat.le_of_lt (swap.newest q hq)
      · exact Nat.le_of_eq new

theorem lockJobStep_advances {pending : List ReplicationLogEntry}
    (common : Common codec v segs nextSeqNo pending) {after : CallerTask} {job : LockJob}
    (moveFirst : Bool) (inv : JobInv codec v segs nextSeqNo after job) :
    Advances v.disk (lockJobStep moveFirst v.disk v.writer job).1 := by
  have starts := common.disk.layout.segmentStarts
  cases job with
  | flush stage thenOpens =>
    have advances : Advances v.disk (flushStep v.disk v.writer stage).1 :=
      flushStep_advances common.disk fun f mark => inv.1.marks_last starts mark
    simp only [lockJobStep]
    split
    next result =>
      rw [result] at advances
      exact advances
    next result =>
      rw [result] at advances
      exact advances
  | openSegment start =>
    refine openSegmentByKey_advances fun other ho => ?_
    rw [starts] at ho
    exact inv.2.2.1.segments other ho
  | checkpointRoll =>
    simp only [lockJobStep]
    repeat' split
    all_goals exact .refl _
  | swapWriter => exact .refl _
  | swapSeal synced moved => exact swapSeal_advances starts inv
  | swapMarking f => exact finishMarker_advances common.disk _

theorem callerStep_advances (h : RunningInv codec s segs)
    (step : callerStep codec segmentMaxBytes s = some s') : Advances s.disk s'.disk := by
  have starts := h.common.disk.layout.segmentStarts
  simp only [callerStep] at step
  split at step
  next entries task =>
    split at step
    · cases step
      exact .refl _
    · cases step
      exact .refl _
    next entry rest handle =>
      cases step
      refine openSegmentByKey_advances fun start hs => ?_
      rw [show segmentStarts s.disk = startsOf segs from starts] at hs
      rcases findActiveSegmentKey_cases h.common.disk.layout with ⟨rfl, -⟩ | ⟨q, -, last, found⟩
      · cases hs
      · obtain ⟨r, hr, rfl⟩ := List.mem_map.mp hs
        rw [show findActiveSegmentKey s.disk = _ from found]
        exact last r hr
  next entries task =>
    repeat' (split at step)
    all_goals cases step
    all_goals exact .refl _
  next entries task =>
    split at step
    · cases step
      exact .refl _
    next key handle =>
      split at step <;> cases step
      · exact .refl _
      · exact .update key fun _ => rfl
  next => cases step; exact .refl _
  all_goals cases step

theorem lockStep_advances (h : RunningInv codec s segs) {owner : LockOwner} {job : LockJob}
    (locked : s.lock = some (owner, job)) (moveFirst : Bool) :
    Advances s.disk (lockJobStep moveFirst s.disk s.writer job).1 := by
  have inv := h.lock
  rw [locked] at inv
  cases owner with
  | caller =>
    obtain ⟨after, -, -, inv⟩ := inv
    exact lockJobStep_advances h.common moveFirst inv
  | coordinator =>
    obtain ⟨stage, batch, rfl, -, flush⟩ := inv
    have starts := h.common.disk.layout.segmentStarts
    have advances : Advances s.disk (flushStep s.disk s.writer stage).1 :=
      flushStep_advances h.common.disk fun f mark => flush.marks_last starts mark
    simp only [lockJobStep]
    split
    next result =>
      rw [result] at advances
      exact advances
    next result =>
      rw [result] at advances
      exact advances

theorem releaseLock_disk (s : LogState) (owner : LockOwner) : (releaseLock s owner).disk = s.disk := by
  cases owner <;> rfl

theorem next_advances (h : RunningInv codec s segs) (running : s.mode = .running) {a : Action}
    (noCrash : ∀ outcome, a ≠ .crash outcome) (step : next codec segmentMaxBytes s a = some s') :
    Advances s.disk s'.disk ∧ s.nextSeqNo ≤ s'.nextSeqNo ∧ s'.mode = .running ∧
      s'.replayedSeqNo = s.replayedSeqNo := by
  cases a with
  | crash outcome => exact absurd rfl (noCrash outcome)
  | recoverStep => simp [next, running] at step
  | callerStep =>
    simp only [next, if_pos running] at step
    refine ⟨callerStep_advances h step, ?_⟩
    simp only [callerStep] at step
    repeat' (split at step)
    all_goals cases step
    all_goals exact ⟨Nat.le_refl _, running, rfl⟩
  | lockStep moveFirst =>
    simp only [next] at step
    split at step
    · cases step
    next owner job locked =>
      have advances := lockStep_advances h locked moveFirst
      rw [if_pos running] at step
      split at step
      next result =>
        rw [result] at advances
        cases step
        exact ⟨advances, Nat.le_refl _, running, rfl⟩
      next result =>
        rw [result] at advances
        cases step
        rw [releaseLock_disk]
        cases owner <;> exact ⟨advances, Nat.le_refl _, running, rfl⟩
  | appendAll entries =>
    simp only [next] at step
    split at step <;> cases step
    exact ⟨.refl _, Nat.le_max_left _ _, running, rfl⟩
  | rollToNewSegment start =>
    simp only [next] at step
    split at step <;> cases step
    next enabled => exact ⟨.refl _, enabled.2.2.2, running, rfl⟩
  | prepareCheckpointRoll =>
    simp only [next] at step
    split at step
    · split at step <;> cases step
      · exact ⟨.of_starts List.prefix_rfl rfl rfl, Nat.le_refl _, running, rfl⟩
      · exact ⟨.refl _, Nat.le_refl _, running, rfl⟩
    · cases step
  | prepareStep =>
    simp only [next] at step
    split at step <;> cases step
    exact ⟨.of_starts List.prefix_rfl rfl rfl, Nat.le_refl _, running, rfl⟩
  | takeLock owner =>
    cases owner
    all_goals
      simp only [next] at step
      repeat' (split at step)
      all_goals cases step
      all_goals exact ⟨.refl _, Nat.le_refl _, running, rfl⟩
  | commit =>
    simp only [next, if_pos running] at step
    cases step
    exact ⟨.refl _, Nat.le_refl _, running, rfl⟩
  | rollForCheckpoint =>
    simp only [next] at step
    split at step <;> cases step
    exact ⟨.refl _, Nat.le_refl _, running, rfl⟩

end Narsil.Durability
