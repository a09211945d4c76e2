import Narsil.Durability.LockSteps

/-!
# The steps of the running writer

What the calls, the caller's task, the group commit and the lock do to the
whole state while the engine runs.
-/
namespace Narsil.Durability

variable {codec : EntryCodec} {s : LogState} {segs : List Segment} {segmentMaxBytes : Nat}

theorem seqNo_lt_getLast_succ {entries : List ReplicationLogEntry} (ascending : Ascending entries)
    {e : ReplicationLogEntry} (he : e ∈ entries) :
    e.seqNo < entries.getLast?.elim 0 fun last => last.seqNo + 1 := by
  have notEmpty : entries ≠ [] := List.ne_nil_of_mem he
  rw [List.getLast?_eq_some_getLast notEmpty, Option.elim_some]
  obtain ⟨first, last, rfl⟩ := List.eq_nil_or_concat entries |>.resolve_left notEmpty
  rw [List.concat_eq_append] at *
  rcases List.mem_append.mp he with earlier | same
  · have := ascending.lt_of_append earlier (List.mem_singleton_self last)
    simp
    omega
  · cases List.mem_singleton.mp same
    simp

theorem Common.mono_next {v : LogView} {nextSeqNo nextSeqNo' : Nat} {pending : List ReplicationLogEntry}
    (common : Common codec v segs nextSeqNo pending) (le : nextSeqNo ≤ nextSeqNo') :
    Common codec v segs nextSeqNo' pending :=
  { common with
    starts := fun p hp => ⟨(common.starts p hp).1, Nat.le_trans (common.starts p hp).2 le⟩
    next := Nat.lt_of_lt_of_le common.next le
    below := fun e he => Nat.lt_of_lt_of_le (common.below e he) le }

theorem RunningInv.free (h : RunningInv codec s segs) (notHolding : ∀ after, s.caller ≠ .holding after)
    (job : LockJob) : s.lock ≠ some (.caller, job) := by
  intro locked
  have lock := h.lock
  rw [locked] at lock
  obtain ⟨after, holding, -⟩ := lock
  exact notHolding after holding

theorem LockInv.withCaller {v : LogView} {nextSeqNo nextSeqNo' : Nat} {caller caller' : CallerTask}
    {inFlight : Option (PendingBatch ReplicationLogEntry)} {lock : Option (LockOwner × LockJob)}
    (h : LockInv codec v segs nextSeqNo caller inFlight lock)
    (free : ∀ job, lock ≠ some (.caller, job)) (same : pendingOf caller' = pendingOf caller) :
    LockInv codec v segs nextSeqNo' caller' inFlight lock := by
  match lock, h with
  | none, h =>
    simp only [LockInv, same]
    exact h
  | some (.coordinator, _), h =>
    simp only [LockInv, same]
    exact h
  | some (.caller, job), _ => exact absurd rfl (free job)

theorem RunningInv.withCaller (h : RunningInv codec s segs)
    (notHolding : ∀ after, s.caller ≠ .holding after) {caller : CallerTask} {nextSeqNo : Nat}
    (same : pendingOf caller = pendingOf s.caller) (rolls : caller.Rolls → s.preparing = false)
    (le : s.nextSeqNo ≤ nextSeqNo) (ascending : Ascending (entriesOf caller))
    (ahead : ∀ e ∈ entriesOf caller, Ahead codec s.appended (startsOf segs) nextSeqNo e)
    (inv : CallerInv s.appended (startsOf segs) nextSeqNo s.lock caller) :
    RunningInv codec { s with caller := caller, nextSeqNo := nextSeqNo } segs where
  common := same.symm ▸ h.common.mono_next le
  prepared := h.prepared
  preparing := fun now =>
    ⟨fun isRoll => absurd (rolls isRoll) (by simp [show s.preparing = true from now]), (h.preparing now).2⟩
  owes := h.owes
  ascending := ascending
  ahead := ahead
  lock := h.lock.withCaller (h.free notHolding) same
  caller := inv

theorem RunningInv.appendAll (h : RunningInv codec s segs) (idle : s.caller = .idle)
    {entries : List ReplicationLogEntry} (numbered : Numbered s entries)
    (recordable : ∀ e ∈ entries, Recordable codec e) :
    RunningInv codec { s with
      caller := if entries = [] then .idle else .ensureSegment entries
      nextSeqNo := max s.nextSeqNo (entries.getLast?.elim 0 fun e => e.seqNo + 1) } segs := by
  obtain ⟨ascending, above⟩ := numbered
  have rest : entriesOf (if entries = [] then .idle else .ensureSegment entries) = entries := by
    by_cases empty : entries = [] <;> simp [empty, entriesOf]
  refine h.withCaller (by simp [idle]) ?_ ?_ (Nat.le_max_left _ _) ?_ ?_ ?_
  · by_cases empty : entries = [] <;> simp [empty, idle, pendingOf]
  · by_cases empty : entries = [] <;> simp [empty, CallerTask.Rolls]
  · rw [rest]
    exact ascending
  · rw [rest]
    intro e he
    refine ⟨?_, ?_, Nat.lt_of_lt_of_le h.common.next (above e he), ?_, recordable e he⟩
    · intro a ha
      exact Nat.lt_of_lt_of_le (h.common.below a ha) (above e he)
    · intro start hs
      obtain ⟨q, hq, rfl⟩ := List.mem_map.mp hs
      exact Nat.le_trans (h.common.starts q hq).2 (above e he)
    · exact Nat.lt_of_lt_of_le (seqNo_lt_getLast_succ ascending he) (Nat.le_max_right _ _)
  · by_cases empty : entries = [] <;> simp [empty, CallerInv]

theorem RunningInv.rollToNewSegment (h : RunningInv codec s segs) (idle : s.caller = .idle)
    (unprepared : s.preparing = false) {startSeqNo : Nat} (le : s.nextSeqNo ≤ startSeqNo) :
    RunningInv codec { s with
      caller := .queued (rollUnderLock startSeqNo) .idle, nextSeqNo := startSeqNo } segs := by
  refine h.withCaller (by simp [idle]) (by simp [idle, pendingOf]) (fun _ => unprepared) le
    List.Pairwise.nil (by simp [entriesOf]) ⟨trivial, ?_⟩
  intro start same
  cases same
  refine ⟨?_, ?_, Nat.lt_of_lt_of_le h.common.next le, Nat.le_refl _, by simp [entriesOf]⟩
  · intro e he
    exact Nat.lt_of_lt_of_le (h.common.below e he) le
  · intro other ho
    obtain ⟨q, hq, rfl⟩ := List.mem_map.mp ho
    exact Nat.le_trans (h.common.starts q hq).2 le

theorem RunningInv.rollForCheckpoint (h : RunningInv codec s segs) (idle : s.caller = .idle)
    (unprepared : s.preparing = false) :
    RunningInv codec { s with caller := .queued .checkpointRoll .idle } segs :=
  h.withCaller (by simp [idle]) (by simp [idle, pendingOf]) (fun _ => unprepared) (Nat.le_refl _)
    List.Pairwise.nil (by simp [entriesOf]) ⟨trivial, rfl⟩

theorem RunningInv.commit (h : RunningInv codec s segs) :
    RunningInv codec { s with coordinator := s.coordinator.commit s.settled } segs where
  common := h.common
  prepared := h.prepared
  preparing := h.preparing
  owes := h.owes.commit s.settled fun _ he => he
  ascending := h.ascending
  ahead := h.ahead
  lock := by
    have lock := h.lock
    match locked : s.lock with
    | none => rw [locked] at lock; exact lock
    | some (.coordinator, job) =>
      rw [locked] at lock
      obtain ⟨stage, batch, job, inFlight, flush⟩ := lock
      exact ⟨stage, batch, job, inFlight_commit s.settled inFlight, flush⟩
    | some (.caller, job) => rw [locked] at lock; exact lock
  caller := h.caller

theorem RunningInv.takeLock_caller (h : RunningInv codec s segs) (free : s.lock = none)
    {job : LockJob} {after : CallerTask} (queued : s.caller = .queued job after) :
    RunningInv codec { s with lock := some (.caller, job), caller := .holding after } segs := by
  have caller := h.caller
  rw [queued] at caller
  obtain ⟨resumable, waits⟩ := caller
  have lock := h.lock
  rw [free, queued] at lock
  obtain ⟨quiet, ready⟩ := lock
  refine ⟨?_, h.prepared, ?_, h.owes, ?_, ?_, ⟨after, rfl, resumable, ?_⟩, ⟨job, rfl⟩⟩
  · have common := h.common
    rw [queued] at common
    exact common
  · have preparing := h.preparing
    rw [queued] at preparing
    exact preparing
  · have ascending := h.ascending
    rw [queued] at ascending
    exact ascending
  · have ahead := h.ahead
    rw [queued] at ahead
    exact ahead
  · match job, waits with
    | .flush .start thenOpens, rolls =>
      refine ⟨?_, rolls⟩
      rcases ready with ⟨closed, none⟩ | ⟨p, opened, _⟩
      · exact Or.inl ⟨rfl, quiet, closed, none⟩
      · exact Or.inr ⟨p, opened, fun notOwn => absurd trivial notOwn, quiet⟩
    | .checkpointRoll, idle => exact ⟨idle, quiet, ready⟩

theorem RunningInv.takeLock_coordinator (h : RunningInv codec s segs) (free : s.lock = none)
    {batch : PendingBatch ReplicationLogEntry} (inFlight : s.coordinator.inFlight = some batch) :
    RunningInv codec { s with lock := some (.coordinator, flushActiveSegment) } segs := by
  have lock := h.lock
  rw [free] at lock
  obtain ⟨quiet, ready⟩ := lock
  refine ⟨h.common, h.prepared, h.preparing, h.owes, h.ascending, h.ahead, ⟨.start, batch, rfl, inFlight, ?_⟩, ?_⟩
  · rcases ready with ⟨closed, none⟩ | ⟨p, opened, named⟩
    · exact Or.inl ⟨rfl, quiet, closed, none⟩
    · exact Or.inr ⟨p, opened, fun _ => named, quiet⟩
  · have caller := h.caller
    cases task : s.caller with
    | holding after =>
      rw [task, free] at caller
      obtain ⟨job, absurd⟩ := caller
      cases absurd
    | queued job after => rw [task] at caller; exact caller
    | _ => trivial

/-- A job the caller waits for leaves the prepared file alone, or is a roll of its
own, and then nothing is being prepared. -/
private theorem RunningInv.keepsPrepared (h : RunningInv codec s segs) {after : CallerTask}
    {disk : Disk} {w : WalWriter} {segs' : List Segment}
    {job : Option LockJob}
    (result : JobResult codec s.view segs s.nextSeqNo after disk w segs' job)
    (now : s.preparing = false) (flag : w.nextSegmentPrepared = true) :
    disk.next = some preparedSegment := by
  rcases result.prepared with leaves | ⟨-, unprepared⟩
  · exact leaves.1.trans (h.prepared now (leaves.2.symm.trans flag))
  · rw [flag] at unprepared
    cases unprepared

private theorem RunningInv.keepsPreparing (h : RunningInv codec s segs) {after : CallerTask}
    (holding : s.caller = .holding after) {disk : Disk} {w : WalWriter} {segs' : List Segment}
    {job : Option LockJob}
    (result : JobResult codec s.view segs s.nextSeqNo after disk w segs' job)
    (now : s.preparing = true) :
    ¬ s.caller.Rolls ∧ ∃ synced, disk.next = some ⟨writeSegmentHeader, synced⟩ := by
  obtain ⟨notRoll, synced, next⟩ := h.preparing now
  refine ⟨notRoll, ?_⟩
  rcases result.prepared with leaves | ⟨idle, -⟩
  · exact ⟨synced, leaves.1.trans next⟩
  · rw [holding] at notRoll
    exact absurd idle notRoll

private theorem release_caller (h : RunningInv codec s segs) {after : CallerTask}
    (holding : s.caller = .holding after) (resumable : Resumable after) {disk : Disk} {w : WalWriter}
    {segs' : List Segment}
    (result : JobResult codec s.view segs s.nextSeqNo after disk w segs' none) :
    RunningInv codec (releaseLock { s with disk := disk, writer := w } .caller) segs' := by
  have nonePending : pendingOf after = [] := by cases after <;> first | rfl | exact resumable.elim
  have rest := h.ahead
  rw [holding] at rest
  have sameCaller : (releaseLock { s with disk := disk, writer := w } .caller)
      = { s with disk := disk, writer := w, lock := none, caller := after } := by
    simp [releaseLock, holding]
  rw [sameCaller]
  refine ⟨?_, fun now => h.keepsPrepared result now, ?_, h.owes, ?_, ?_, ?_, ?_⟩
  · simp only [nonePending]
    exact result.common
  · intro now
    refine ⟨?_, (h.keepsPreparing holding result now).2⟩
    cases after <;> first | exact id | exact resumable.elim
  · have ascending := h.ascending
    rw [holding] at ascending
    exact ascending
  · intro e he
    have old := rest e he
    refine ⟨old.entries, ?_, old.positive, old.next, old.recordable⟩
    intro start hs
    rcases result.starts start hs with known | below
    · exact old.segments start known
    · exact below e he
  · simp only [LockInv, nonePending]
    exact result.job
  · cases after <;> trivial

private theorem lockStep_caller (h : RunningInv codec s segs) {job : LockJob}
    (locked : s.lock = some (.caller, job)) {moveFirst : Bool} {disk : Disk} {w : WalWriter}
    {job' : Option LockJob} (step : lockJobStep moveFirst s.disk s.writer job = (disk, w, job')) :
    ∃ segs', match job' with
      | some job' =>
        RunningInv codec { s with disk := disk, writer := w, lock := some (.caller, job') } segs'
      | none => RunningInv codec (releaseLock { s with disk := disk, writer := w } .caller) segs' := by
  have lock := h.lock
  rw [locked] at lock
  obtain ⟨after, holding, resumable, inv⟩ := lock
  have common := h.common
  have prepared : after = .idle → s.writer.nextSegmentPrepared = true →
      s.disk.next = some preparedSegment := by
    intro idle flag
    cases now : s.preparing with
    | false => exact h.prepared now flag
    | true =>
      have notRoll := (h.preparing now).1
      rw [holding] at notRoll
      exact absurd idle notRoll
  rw [holding] at common
  obtain ⟨segs', result⟩ := lockJobStep_inv common prepared inv step
  refine ⟨segs', ?_⟩
  cases job' with
  | none => exact release_caller h holding resumable result
  | some job' =>
    refine ⟨?_, fun now => h.keepsPrepared result now,
      fun now => h.keepsPreparing holding result now, h.owes, h.ascending, ?_, ?_, ?_⟩
    · simp only [holding]
      exact result.common
    · intro e he
      have old := h.ahead e he
      refine ⟨old.entries, ?_, old.positive, old.next, old.recordable⟩
      intro start hs
      rcases result.starts start hs with known | below
      · exact old.segments start known
      · rw [holding] at he
        exact below e he
    · exact ⟨after, holding, resumable, result.job⟩
    · simp only [holding]
      exact ⟨job', rfl⟩

private theorem CallerInv.relock {appended : List ReplicationLogEntry} {starts : List Nat}
    {nextSeqNo : Nat} {owner : LockOwner} {job : LockJob} {caller : CallerTask}
    {lock : Option (LockOwner × LockJob)}
    (h : CallerInv appended starts nextSeqNo (some (owner, job)) caller)
    (coordinator : owner = .coordinator) : CallerInv appended starts nextSeqNo lock caller := by
  subst coordinator
  cases caller with
  | holding after =>
    obtain ⟨job, absurd⟩ := h
    cases absurd
  | queued job after => exact h
  | _ => trivial

private theorem lockStep_coordinator (h : RunningInv codec s segs) {job : LockJob}
    (locked : s.lock = some (.coordinator, job)) {moveFirst : Bool} {disk : Disk} {w : WalWriter}
    {job' : Option LockJob} (step : lockJobStep moveFirst s.disk s.writer job = (disk, w, job')) :
    ∃ segs', match job' with
      | some job' =>
        RunningInv codec { s with disk := disk, writer := w, lock := some (.coordinator, job') } segs'
      | none =>
        RunningInv codec (releaseLock { s with disk := disk, writer := w } .coordinator) segs' := by
  have lock := h.lock
  rw [locked] at lock
  obtain ⟨stage, batch, rfl, inFlight, flush⟩ := lock
  cases result : flushStep s.disk s.writer stage with
  | mk disk₁ rest =>
    obtain ⟨w₁, stage'⟩ := rest
    obtain ⟨segs', inPlace, done⟩ :=
      flushStep_inv h.common flush (h.owes.1 batch inFlight) (fun isOwn => isOwn.elim) result
    simp only [lockJobStep, result] at step
    have caller := h.caller
    rw [locked] at caller
    have prepared : s.preparing = false → w₁.nextSegmentPrepared = true →
        disk₁.next = some preparedSegment := by
      rw [inPlace.prepared, inPlace.next]
      exact h.prepared
    have preparing : s.preparing = true →
        ¬ s.caller.Rolls ∧ ∃ synced, disk₁.next = some ⟨writeSegmentHeader, synced⟩ := by
      rw [inPlace.next]
      exact h.preparing
    refine ⟨segs', ?_⟩
    cases stage' with
    | some stage' =>
      cases step
      refine ⟨done.1, prepared, preparing, h.owes, h.ascending, ?_,
        ⟨stage', batch, rfl, inFlight, done.2⟩, ?_⟩
      · exact inPlace.starts.symm ▸ h.ahead
      · exact inPlace.starts.symm ▸ caller.relock rfl
    | none =>
      cases step
      obtain ⟨common, ready, quiet, -⟩ := done
      -- The waiters of the batch are owed what it covers from now on.
      have sameOwed : ∀ e, e ∈ (s.acknowledged ++ batch.covers) ++ s.recovered ↔
          e ∈ owedOf s ++ batch.covers := by
        intro e
        simp only [owedOf, List.mem_append]
        tauto
      have released : releaseLock { s with disk := disk, writer := w } .coordinator
          = { s with
            disk := disk, writer := w, lock := none
            acknowledged := s.acknowledged ++ batch.covers
            coordinator := s.coordinator.settle } := by
        simp [releaseLock, inFlight]
      simp only [afterFlush, released]
      refine ⟨?_, prepared, preparing, h.owes.settle, h.ascending, ?_, ⟨quiet, ?_⟩, ?_⟩
      · refine { common with disk := ?_, owed := ?_, counted := ?_ }
        · exact common.disk.mono fun e he => (sameOwed e).mp he
        · exact fun e he => common.owed e ((sameOwed e).mp he)
        · exact ⟨common.counted.highestAppended, common.counted.tight,
            common.counted.highestDurable, common.counted.marked, common.counted.tracks⟩
      · exact inPlace.starts.symm ▸ h.ahead
      · rcases ready with ⟨closed, none⟩ | opened
        · exact Or.inl ⟨closed.owe _, none⟩
        · exact Or.inr opened
      · exact inPlace.starts.symm ▸ caller.relock rfl

theorem RunningInv.lockStep (h : RunningInv codec s segs) {owner : LockOwner} {job : LockJob}
    (locked : s.lock = some (owner, job)) (moveFirst : Bool) :
    ∃ segs', ∀ s', (match lockJobStep moveFirst s.disk s.writer job with
        | (disk, writer, some job) =>
          some { s with disk := disk, writer := writer, lock := some (owner, job) }
        | (disk, writer, none) =>
          some (releaseLock { s with disk := disk, writer := writer } owner)) = some s' →
      RunningInv codec s' segs' ∧ s'.mode = s.mode := by
  cases step : lockJobStep moveFirst s.disk s.writer job with
  | mk disk rest =>
    obtain ⟨w, job'⟩ := rest
    cases owner with
    | caller =>
      obtain ⟨segs', inv⟩ := lockStep_caller h locked step
      refine ⟨segs', fun s' same => ?_⟩
      cases job' <;> cases same <;> exact ⟨inv, rfl⟩
    | coordinator =>
      obtain ⟨segs', inv⟩ := lockStep_coordinator h locked step
      refine ⟨segs', fun s' same => ?_⟩
      cases job' <;> cases same <;> exact ⟨inv, rfl⟩

end Narsil.Durability
