import Narsil.Durability.WriterSteps

/-!
# The steps of the caller's task

Opening the first segment, deciding on a roll, writing a group of frames and
noting it, while a flush of the group commit may be under way.
-/
namespace Narsil.Durability

variable {codec : EntryCodec} {v : LogView} {s : LogState} {segs : List Segment}
  {nextSeqNo segmentMaxBytes : Nat} {pending extra : List ReplicationLogEntry} {p : Segment}

theorem findActiveSegmentKey_cases {disk : Disk} {truncated appended : List ReplicationLogEntry}
    (layout : Layout codec truncated appended disk.segments segs) :
    (segs = [] ∧ findActiveSegmentKey disk = none) ∨
    ∃ p ∈ segs, (∀ q ∈ segs, q.1.startSeqNo ≤ p.1.startSeqNo) ∧
      findActiveSegmentKey disk = some p.1.startSeqNo := by
  have files := layout.files_eq
  rcases List.eq_nil_or_concat segs with rfl | ⟨pre, p, rfl⟩
  · exact Or.inl ⟨rfl, by simp [findActiveSegmentKey, files]⟩
  · rw [List.concat_eq_append] at *
    refine Or.inr ⟨p, by simp, ?_, by simp [findActiveSegmentKey, files]⟩
    intro q hq
    rcases List.mem_append.mp hq with earlier | same
    · exact Nat.le_of_lt ((List.pairwise_append.mp layout.ordered).2.2 q earlier p (by simp)).1
    · cases List.mem_singleton.mp same
      exact Nat.le_refl _

theorem LockInv.closed {caller : CallerTask} {inFlight : Option (PendingBatch ReplicationLogEntry)}
    {lock : Option (LockOwner × LockJob)} (h : LockInv codec v segs nextSeqNo caller inFlight lock)
    (free : ∀ job, lock ≠ some (.caller, job)) (handle : v.writer.handle = none) :
    v.disk.markerWrite = none ∧ Closed codec v segs ∧
      (lock = none ∨
        ∃ batch, lock = some (.coordinator, .flush .start none) ∧ inFlight = some batch) := by
  have notOpened : ∀ {p}, ¬ Opened codec v.writer segs (pendingOf caller) p := by
    intro p opened
    have := opened.handle
    rw [handle] at this
    cases this
  match lock, h with
  | none, h =>
    obtain ⟨quiet, ready⟩ := h
    rcases ready with ⟨closed, -⟩ | ⟨p, opened, -⟩
    · exact ⟨quiet, closed, Or.inl rfl⟩
    · exact absurd opened notOpened
  | some (.coordinator, job), h =>
    obtain ⟨stage, batch, rfl, inFlight, flush⟩ := h
    rcases flush with ⟨rfl, quiet, closed, -⟩ | ⟨p, opened, -⟩
    · exact ⟨quiet, closed, Or.inr ⟨batch, rfl, inFlight⟩⟩
    · exact absurd opened notOpened
  | some (.caller, job), _ => exact absurd rfl (free job)

theorem Closed.named (closed : Closed codec v segs) (quiet : v.disk.markerWrite = none) {key : Nat}
    (last : ∀ q ∈ segs, q.1.startSeqNo ≤ key) (known : segs ≠ [] → key ∈ startsOf segs) :
    MarkersName v.disk key := by
  refine ⟨?_, fun i m write => ?_⟩
  · intro m i read
    obtain ⟨newest, q, j, covers, -⟩ := closed.marked m i read
    have start : q.1.startSeqNo = m.activeSegmentSeqNo := covers.start
    obtain ⟨r, hr, same⟩ := List.mem_map.mp (known (List.ne_nil_of_mem covers.member))
    have := newest r hr
    have := last q covers.member
    omega
  · rw [quiet] at write
    cases write

private theorem ensureSegment_inv (h : RunningInv codec s segs) {entry : ReplicationLogEntry}
    {rest : List ReplicationLogEntry} (task : s.caller = .ensureSegment (entry :: rest))
    (handle : s.writer.handle = none) {disk : Disk} {w : WalWriter} {created : Bool}
    (step : openSegmentByKey s.disk s.writer ((findActiveSegmentKey s.disk).getD entry.seqNo)
      = (disk, w, created)) :
    ∃ segs', RunningInv codec { s with
      disk := disk
      writer := w
      caller := if created then .queued flushActiveSegment (.maybeRoll (entry :: rest))
        else .maybeRoll (entry :: rest) } segs' := by
  have free := h.free (by simp [task])
  obtain ⟨quiet, closed, lock⟩ := h.lock.closed free handle
  have common := h.common
  have ahead := h.ahead
  have ascending := h.ascending
  rw [task] at common ahead ascending
  have first := ahead entry (by simp [entriesOf])
  obtain ⟨key, keyed, last, known, fresh, bound, positive, behind⟩ :
      ∃ key, (findActiveSegmentKey s.disk).getD entry.seqNo = key ∧
        (∀ q ∈ segs, q.1.startSeqNo ≤ key) ∧ (segs ≠ [] → key ∈ startsOf segs) ∧
        (key ∉ startsOf segs → ∀ e ∈ s.appended, e.seqNo < key) ∧ key ≤ s.nextSeqNo ∧ 0 < key ∧
        key ≤ entry.seqNo := by
    rcases findActiveSegmentKey_cases common.disk.layout with ⟨rfl, missing⟩ | ⟨q, hq, last, found⟩
    · refine ⟨entry.seqNo, ?_, by simp, by simp, fun _ => first.entries, Nat.le_of_lt first.next,
        first.positive, Nat.le_refl _⟩
      rw [show findActiveSegmentKey s.disk = none from missing]
      rfl
    · refine ⟨q.1.startSeqNo, ?_, last, fun _ => mem_startsOf hq, fun absent => ?_,
        (common.starts q hq).2, (common.starts q hq).1, first.segments _ (mem_startsOf hq)⟩
      · rw [show findActiveSegmentKey s.disk = some q.1.startSeqNo from found]
        rfl
      · exact absurd (mem_startsOf hq) absent
  rw [keyed] at step
  obtain ⟨segs', p, now⟩ := openSegmentByKey_inv common closed.isSealed last positive bound fresh step
  have quiet' : disk.markerWrite = none := now.marker.2.trans quiet
  have named : MarkersName disk p.1.startSeqNo := by
    have before := closed.named quiet last known
    rw [now.start, MarkersName, now.marker.1, now.marker.2]
    exact before
  have sameEntries : entriesOf (if created then CallerTask.queued flushActiveSegment
      (.maybeRoll (entry :: rest)) else .maybeRoll (entry :: rest)) = entry :: rest := by
    cases created <;> rfl
  have samePending : pendingOf (if created then CallerTask.queued flushActiveSegment
      (.maybeRoll (entry :: rest)) else .maybeRoll (entry :: rest)) = [] := by
    cases created <;> rfl
  refine ⟨segs', ?_, ?_, ?_, h.owes, ?_, ?_, ?_, ?_⟩
  · simp only [samePending]
    exact now.common
  · intro unprepared flag
    exact now.next.1.trans (h.prepared unprepared (now.next.2.symm.trans flag))
  · intro preparing
    obtain ⟨-, synced, next⟩ := h.preparing preparing
    exact ⟨by cases created <;> simp [CallerTask.Rolls], synced, now.next.1.trans next⟩
  · simp only [sameEntries]
    exact ascending
  · simp only [sameEntries]
    intro e he
    have old := ahead e he
    refine ⟨old.entries, ?_, old.positive, old.next, old.recordable⟩
    intro start hs
    rcases now.starts start hs with earlier | rfl
    · exact old.segments start earlier
    · rcases List.mem_cons.mp he with rfl | later
      · exact behind
      · exact Nat.le_trans behind (Nat.le_of_lt ((List.pairwise_cons.mp ascending).1 e later))
  · rcases lock with unlocked | ⟨batch, holds, inFlight⟩
    · simp only [unlocked, LockInv, samePending]
      exact ⟨quiet', Or.inr ⟨p, now.opened, named⟩⟩
    · simp only [holds, LockInv, samePending]
      exact ⟨.start, batch, rfl, inFlight, Or.inr ⟨p, now.opened, fun _ => named, quiet'⟩⟩
  · cases created with
    | false => trivial
    | true =>
      refine ⟨trivial, ?_⟩
      intro start none
      cases none

private theorem maybeRoll_inv (h : RunningInv codec s segs) {entry : ReplicationLogEntry}
    {rest : List ReplicationLogEntry} (task : s.caller = .maybeRoll (entry :: rest)) :
    RunningInv codec { s with
      caller := .queued (rollUnderLock entry.seqNo) (.appendGroup (entry :: rest)) } segs := by
  have ahead := h.ahead
  have ascending := h.ascending
  rw [task] at ahead ascending
  have first := ahead entry (by simp [entriesOf])
  refine h.withCaller (by simp [task]) (by simp [task, pendingOf]) (by simp [CallerTask.Rolls])
    (Nat.le_refl _) ascending ahead ⟨trivial, ?_⟩
  intro start same
  cases same
  refine ⟨first.entries, first.segments, first.positive, Nat.le_of_lt first.next, ?_⟩
  intro e he
  rcases List.mem_cons.mp he with rfl | later
  · exact Nat.le_refl _
  · exact Nat.le_of_lt ((List.pairwise_cons.mp ascending).1 e later)

theorem Common.append (common : Common codec v segs nextSeqNo [])
    (opened : Opened codec v.writer segs [] p) (named : MarkersName v.disk p.1.startSeqNo)
    {group : List ReplicationLogEntry} (ascending : Ascending group)
    (ahead : ∀ e ∈ group, Ahead codec v.appended (startsOf segs) nextSeqNo e) :
    Common codec { v with
      disk := { v.disk with
        segments := updateSegment v.disk.segments p.1.startSeqNo (·.append (frames codec group)) }
      appended := v.appended ++ group }
      (segs.map (addTo codec p.1.startSeqNo group)) nextSeqNo group where
  disk := by
    have grown : Ascending (v.appended ++ group) :=
      List.pairwise_append.mpr ⟨common.disk.layout.ascending, ascending,
        fun a ha b hb => (ahead b hb).entries a ha⟩
    exact common.disk.append opened.member rfl (common.whole p opened.member) opened.last group grown
      (fun e he => (ahead e he).positive) (fun e he => (ahead e he).recordable) named.1 named.2
  whole := by
    intro q hq
    obtain ⟨r, hr, rfl⟩ := List.mem_map.mp hq
    have whole := common.whole r hr
    unfold addTo
    split
    · simp only [Whole, SegmentFile.append, segmentBytes, frames_append] at whole ⊢
      rw [whole, List.append_assoc]
    · exact whole
  starts := by
    intro q hq
    obtain ⟨r, hr, rfl⟩ := List.mem_map.mp hq
    simpa using common.starts r hr
  next := common.next
  below := by
    intro e he
    rcases List.mem_append.mp he with old | new
    · exact common.below e old
    · exact (ahead e new).next
  settled := by simp [common.settled]
  owed := common.owed
  counted := ⟨common.counted.highestAppended, common.counted.tight, common.counted.highestDurable,
    common.counted.marked, common.counted.tracks⟩

private theorem addTo_synced (key : Nat) (group : List ReplicationLogEntry) (q : Segment) :
    (addTo codec key group q).1.synced = q.1.synced := by
  unfold addTo
  split <;> rfl

private theorem knows_append {stage : FlushStage} (group appended : List ReplicationLogEntry)
    (files : List SegmentFile) (knows : stage.Knows codec v segs False extra p) :
    stage.Knows codec { v with disk := { v.disk with segments := files }, appended := appended }
      (segs.map (addTo codec p.1.startSeqNo group)) False extra
      (addTo codec p.1.startSeqNo group p) := by
  cases stage with
  | start => exact knows
  | capture => exact knows
  | sync f =>
    obtain ⟨quiet, captured, -⟩ := knows
    exact ⟨quiet, captured.append group _ appended, fun own => own.elim⟩
  | mark f =>
    obtain ⟨quiet, captured, synced, -⟩ := knows
    exact ⟨quiet, captured.append group _ appended, by rw [addTo_synced]; exact synced,
      fun own => own.elim⟩
  | marking f =>
    obtain ⟨writing, captured, synced, -⟩ := knows
    exact ⟨writing, captured.append group _ appended, by rw [addTo_synced]; exact synced,
      fun own => own.elim⟩

theorem LockInv.opened {caller : CallerTask} {inFlight : Option (PendingBatch ReplicationLogEntry)}
    {lock : Option (LockOwner × LockJob)} (h : LockInv codec v segs nextSeqNo caller inFlight lock)
    (free : ∀ job, lock ≠ some (.caller, job)) {key : Nat} (handle : v.writer.handle = some key) :
    ∃ p, Opened codec v.writer segs (pendingOf caller) p ∧ p.1.startSeqNo = key ∧
      MarkersName v.disk p.1.startSeqNo ∧
      ((lock = none ∧ v.disk.markerWrite = none) ∨
        ∃ stage batch, lock = some (.coordinator, .flush stage none) ∧ inFlight = some batch ∧
          stage.Knows codec v segs False batch.covers p) := by
  have notClosed : ¬ Closed codec v segs := by
    intro closed
    have := closed.handle
    rw [handle] at this
    cases this
  have keyed : ∀ {p : Segment}, Opened codec v.writer segs (pendingOf caller) p →
      p.1.startSeqNo = key := by
    intro p opened
    have same := opened.handle
    rw [handle] at same
    exact (Option.some.inj same).symm
  match lock, h with
  | none, h =>
    obtain ⟨quiet, ready⟩ := h
    rcases ready with ⟨closed, -⟩ | ⟨p, opened, named⟩
    · exact absurd closed notClosed
    · exact ⟨p, opened, keyed opened, named, Or.inl ⟨rfl, quiet⟩⟩
  | some (.coordinator, job), h =>
    obtain ⟨stage, batch, rfl, inFlight, flush⟩ := h
    rcases flush with ⟨-, -, closed, -⟩ | ⟨p, opened, named, knows⟩
    · exact absurd closed notClosed
    · exact ⟨p, opened, keyed opened, named id, Or.inr ⟨stage, batch, rfl, inFlight, knows⟩⟩
  | some (.caller, job), _ => exact absurd rfl (free job)

private theorem appendGroup_inv (h : RunningInv codec s segs) {entries : List ReplicationLogEntry}
    (task : s.caller = .appendGroup entries) {key : Nat} (handle : s.writer.handle = some key)
    (count : Nat) :
    ∃ segs', RunningInv codec { s with
      disk := { s.disk with
        segments := updateSegment s.disk.segments key (·.append (frames codec (entries.take count))) }
      caller := .settleGroup (entries.take count) (entries.drop count)
      appended := s.appended ++ entries.take count } segs' := by
  have free := h.free (by simp [task])
  obtain ⟨p, opened, rfl, named, lock⟩ := h.lock.opened free handle
  have common := h.common
  have ahead : ∀ e ∈ entries, Ahead codec s.appended (startsOf segs) s.nextSeqNo e := by
    have ahead := h.ahead
    rw [task] at ahead
    exact ahead
  have ascending : Ascending entries := by
    have ascending := h.ascending
    rw [task] at ascending
    exact ascending
  rw [task] at common opened
  have split : Ascending (entries.take count ++ entries.drop count) := by
    rw [List.take_append_drop]
    exact ascending
  have written := common.append opened named split.append_left
    fun e he => ahead e (List.mem_of_mem_take he)
  refine ⟨_, written, h.prepared, fun now => ⟨id, (h.preparing now).2⟩, h.owes, split.append_right,
    ?_, ?_, trivial⟩
  · intro e he
    have old := ahead e (List.mem_of_mem_drop he)
    refine ⟨?_, ?_, old.positive, old.next, old.recordable⟩
    · intro a ha
      rcases List.mem_append.mp ha with before | sameGroup
      · exact old.entries a before
      · exact split.lt_of_append sameGroup he
    · rw [startsOf_map fun q => addTo_start _ _ q]
      exact old.segments
  · have stays := opened.append (entries.take count)
    have named' : MarkersName s.disk (addTo codec p.1.startSeqNo (entries.take count) p).1.startSeqNo := by
      rw [addTo_start]
      exact named
    rcases lock with ⟨unlocked, quiet⟩ | ⟨stage, batch, holds, inFlight, knows⟩
    · simp only [unlocked]
      exact ⟨quiet, Or.inr ⟨_, stays, named'⟩⟩
    · simp only [holds]
      exact ⟨stage, batch, rfl, inFlight, Or.inr ⟨_, stays, fun _ => named',
        knows_append (entries.take count) _ _ knows⟩⟩

private theorem knows_settle {stage : FlushStage} (group settled : List ReplicationLogEntry)
    (more : ∀ e ∈ v.settled, e ∈ settled) (knows : stage.Knows codec v segs False extra p) :
    stage.Knows codec { v with writer := noteAppended codec v.writer group, settled := settled }
      segs False extra p := by
  have captured : ∀ f, Captured codec v segs extra p f → Captured codec
      { v with writer := noteAppended codec v.writer group, settled := settled } segs extra p f :=
    fun f h =>
    ⟨h.active, h.covers, Nat.le_trans h.highest (highestSeqNo_mono more)⟩
  cases stage with
  | start => exact knows
  | capture => exact knows
  | sync f => exact ⟨knows.1, captured f knows.2.1, knows.2.2⟩
  | mark f => exact ⟨knows.1, captured f knows.2.1, knows.2.2⟩
  | marking f => exact ⟨knows.1, captured f knows.2.1, knows.2.2⟩

theorem Common.settle (common : Common codec v segs nextSeqNo pending) :
    Common codec { v with writer := noteAppended codec v.writer pending, settled := v.appended }
      segs nextSeqNo [] := by
  have settled := common.settled
  have more : ∀ e ∈ v.settled, e ∈ v.appended := fun e he => settled ▸ List.mem_append_left _ he
  have grows := highestSeqNo_mono more
  refine { common with
    settled := by simp
    owed := fun e he => more e (common.owed e he)
    counted := ⟨?_, ?_, ?_, ?_, ?_⟩ }
  · refine Nat.max_le.mpr ⟨Nat.le_trans common.counted.highestAppended grows, ?_⟩
    cases last : pending.getLast? with
    | none => simp
    | some e =>
      have member : e ∈ v.appended :=
        settled ▸ List.mem_append_right _ (List.mem_of_getLast? last)
      exact le_highestSeqNo member
  · have ascending := common.disk.layout.ascending
    rcases List.eq_nil_or_concat pending with rfl | ⟨front, last, rfl⟩
    · -- Nothing was written, so nothing changes.
      rw [List.append_nil] at settled
      simp only [noteAppended, List.getLast?_nil, Option.elim_none, Nat.max_zero, settled]
      exact common.counted.tight
    · right
      intro e he
      rw [List.concat_eq_append] at *
      simp only [noteAppended, List.getLast?_append, List.getLast?_singleton, Option.some_or,
        Option.elim_some]
      rw [settled, ← List.append_assoc] at ascending he
      rcases List.mem_append.mp he with earlier | same
      · have := ascending.lt_of_append earlier (List.mem_singleton_self last)
        omega
      · cases List.mem_singleton.mp same
        exact Nat.le_max_right _ _
  · exact Nat.le_trans common.counted.highestDurable grows
  · exact fun m i read => Nat.le_trans (common.counted.marked m i read) grows
  · exact common.counted.tracks

private theorem settleGroup_inv (h : RunningInv codec s segs) {group rest : List ReplicationLogEntry}
    (task : s.caller = .settleGroup group rest) :
    RunningInv codec { s with
      writer := noteAppended codec s.writer group
      caller := .maybeRoll rest
      settled := s.appended } segs := by
  have free := h.free (by simp [task])
  have common := h.common
  have ahead := h.ahead
  have ascending := h.ascending
  have lock := h.lock
  rw [task] at common ahead ascending lock
  have settled : s.appended = s.settled ++ group := common.settled
  have more : ∀ e ∈ s.settled, e ∈ s.appended := fun e he => settled ▸ List.mem_append_left _ he
  have closes : Closed codec s.view segs → group = [] → Closed codec
      { s.view with writer := noteAppended codec s.writer group, settled := s.appended } segs := by
    intro closed none
    have same : s.appended = s.settled := by rw [settled, none, List.append_nil]
    exact ⟨closed.handle, closed.isSealed, same ▸ closed.marked, same ▸ closed.unmarked⟩
  refine ⟨common.settle, h.prepared, fun now => ⟨id, (h.preparing now).2⟩, h.owes.mono more,
    ascending, ahead, ?_, trivial⟩
  · match locked : s.lock, lock, free with
    | none, lock, _ =>
      obtain ⟨quiet, ready⟩ := lock
      refine ⟨quiet, ?_⟩
      rcases ready with ⟨closed, none⟩ | ⟨p, opened, named⟩
      · exact Or.inl ⟨closes closed none, rfl⟩
      · exact Or.inr ⟨p, opened.settle, named⟩
    | some (.coordinator, job), lock, _ =>
      obtain ⟨stage, batch, rfl, inFlight, flush⟩ := lock
      refine ⟨stage, batch, rfl, inFlight, ?_⟩
      rcases flush with ⟨start, quiet, closed, none⟩ | ⟨p, opened, named, knows⟩
      · exact Or.inl ⟨start, quiet, closes closed none, rfl⟩
      · exact Or.inr ⟨p, opened.settle, named, knows_settle group _ more knows⟩
    | some (.caller, job), _, free => exact absurd rfl (free job)

theorem Closed.withDisk {disk : Disk} {w : WalWriter} (h : Closed codec v segs)
    (handle : w.handle = v.writer.handle) (marker : disk.marker = v.disk.marker) :
    Closed codec { v with disk := disk, writer := w } segs :=
  ⟨handle.trans h.handle, h.isSealed, by rw [marker]; exact h.marked, by rw [marker]; exact h.unmarked⟩

/-- The view with another prepared file and flag. -/
def LogView.withPrepared (v : LogView) (next : Option PreparedFile) (prepared : Bool) : LogView :=
  { v with
    disk := { v.disk with next := next }
    writer := { v.writer with nextSegmentPrepared := prepared } }

theorem Common.withPrepared (common : Common codec v segs nextSeqNo pending)
    (next : Option PreparedFile) (prepared : Bool) :
    Common codec (v.withPrepared next prepared) segs nextSeqNo pending where
  disk := common.disk.withNext next
  whole := common.whole
  starts := common.starts
  next := common.next
  below := common.below
  settled := common.settled
  owed := common.owed
  counted := ⟨common.counted.highestAppended, common.counted.tight, common.counted.highestDurable,
    common.counted.marked, common.counted.tracks⟩

theorem Ready.withPrepared (h : Ready codec v segs pending) (next : Option PreparedFile)
    (prepared : Bool) : Ready codec (v.withPrepared next prepared) segs pending := by
  rcases h with ⟨closed, none⟩ | ⟨p, opened, named⟩
  · exact Or.inl ⟨closed.withDisk rfl rfl, none⟩
  · exact Or.inr ⟨p, opened.of_writer rfl rfl rfl, named⟩

theorem FlushInv.withPrepared {own : Prop} {stage : FlushStage}
    (h : FlushInv codec v segs pending own extra stage) (next : Option PreparedFile)
    (prepared : Bool) : FlushInv codec (v.withPrepared next prepared) segs pending own extra stage := by
  rcases h with ⟨start, quiet, closed, none⟩ | ⟨p, opened, named, knows⟩
  · exact Or.inl ⟨start, quiet, closed.withDisk rfl rfl, none⟩
  · refine Or.inr ⟨p, opened.of_writer rfl rfl rfl, named, ?_⟩
    have captured : ∀ f, Captured codec v segs extra p f →
        Captured codec (v.withPrepared next prepared) segs extra p f := fun f h =>
      ⟨h.active, h.covers, h.highest⟩
    cases stage with
    | start => exact knows
    | capture => exact knows
    | sync f => exact ⟨knows.1, captured f knows.2.1, knows.2.2⟩
    | mark f => exact ⟨knows.1, captured f knows.2.1, knows.2.2⟩
    | marking f => exact ⟨knows.1, captured f knows.2.1, knows.2.2⟩

theorem LockInv.withPrepared {caller : CallerTask}
    {inFlight : Option (PendingBatch ReplicationLogEntry)} {lock : Option (LockOwner × LockJob)}
    (h : LockInv codec v segs nextSeqNo caller inFlight lock) (beside : ¬ caller.Rolls)
    (next : Option PreparedFile) (prepared : Bool) :
    LockInv codec (v.withPrepared next prepared) segs nextSeqNo caller inFlight lock := by
  match lock, h with
  | none, h => exact ⟨h.1, h.2.withPrepared next prepared⟩
  | some (.coordinator, job), h =>
    obtain ⟨stage, batch, rfl, inFlight, flush⟩ := h
    exact ⟨stage, batch, rfl, inFlight, flush.withPrepared next prepared⟩
  | some (.caller, job), h =>
    obtain ⟨after, holding, resumable, inv⟩ := h
    rw [holding] at beside
    refine ⟨after, holding, resumable, ?_⟩
    cases job with
    | flush stage thenOpens => exact ⟨inv.1.withPrepared next prepared, inv.2⟩
    | openSegment start => exact inv
    | checkpointRoll => exact absurd inv.1 beside
    | swapWriter => exact absurd inv.1 beside
    | swapSeal synced moved => exact absurd inv.1 beside
    | swapMarking f => exact FlushInv.withPrepared inv next prepared

theorem RunningInv.prepareCheckpointRoll (h : RunningInv codec s segs) (beside : ¬ s.caller.Rolls) :
    RunningInv codec { s with
      disk := { s.disk with next := some ⟨writeSegmentHeader, 0⟩ }, preparing := true } segs where
  common := h.common.withPrepared _ s.writer.nextSegmentPrepared
  prepared := fun unprepared => by cases unprepared
  preparing := fun _ => ⟨beside, 0, rfl⟩
  owes := h.owes
  ascending := h.ascending
  ahead := h.ahead
  lock := h.lock.withPrepared beside _ s.writer.nextSegmentPrepared
  caller := h.caller

theorem RunningInv.prepareStep (h : RunningInv codec s segs) (preparing : s.preparing = true) :
    RunningInv codec { s with
      disk := { s.disk with next := s.disk.next.map fun f => { f with synced := f.bytes.length } }
      writer := { s.writer with nextSegmentPrepared := true }
      preparing := false } segs := by
  obtain ⟨beside, synced, next⟩ := h.preparing preparing
  exact
    { common := h.common.withPrepared _ true
      prepared := fun _ _ => by
        simp only [next]
        rfl
      preparing := fun now => by cases now
      owes := h.owes
      ascending := h.ascending
      ahead := h.ahead
      lock := h.lock.withPrepared beside _ true
      caller := h.caller }

theorem RunningInv.callerStep (h : RunningInv codec s segs) {s' : LogState}
    (step : callerStep codec segmentMaxBytes s = some s') :
    ∃ segs', RunningInv codec s' segs' ∧ s'.mode = s.mode := by
  -- A step that only moves the task on keeps what the task has still to write.
  have moves : ∀ caller, (∀ after, s.caller ≠ .holding after) → ¬ caller.Rolls →
      pendingOf caller = pendingOf s.caller → entriesOf caller = entriesOf s.caller →
      CallerInv s.appended (startsOf segs) s.nextSeqNo s.lock caller →
      RunningInv codec { s with caller := caller } segs := by
    intro caller notHolding notRoll pending entries inv
    exact h.withCaller notHolding pending (fun isRoll => absurd isRoll notRoll) (Nat.le_refl _)
      (entries ▸ h.ascending) (entries ▸ h.ahead) inv
  have stops : (∀ after, s.caller ≠ .holding after) → pendingOf s.caller = [] →
      RunningInv codec { s with caller := .idle } segs := by
    intro notHolding pending
    exact h.withCaller notHolding pending.symm (fun isRoll => isRoll.elim) (Nat.le_refl _)
      List.Pairwise.nil (by simp [entriesOf]) trivial
  unfold Durability.callerStep at step
  cases task : s.caller with
  | idle => simp [task] at step
  | queued job after => simp [task] at step
  | holding after => simp [task] at step
  | ensureSegment entries =>
    simp only [task] at step
    cases handle : s.writer.handle with
    | some key =>
      simp only [handle] at step
      cases step
      exact ⟨segs, moves (.maybeRoll entries) (by simp [task]) id (by simp [task, pendingOf])
        (by simp [task, entriesOf]) trivial, rfl⟩
    | none =>
      cases entries with
      | nil =>
        simp only [handle] at step
        cases step
        exact ⟨segs, stops (by simp [task]) (by simp [task, pendingOf]), rfl⟩
      | cons entry rest =>
        simp only [handle] at step
        cases step
        obtain ⟨segs', inv⟩ := ensureSegment_inv h task handle rfl
        exact ⟨segs', inv, rfl⟩
  | maybeRoll entries =>
    simp only [task] at step
    cases entries with
    | nil =>
      cases step
      exact ⟨segs, stops (by simp [task]) (by simp [task, pendingOf]), rfl⟩
    | cons entry rest =>
      have writes := moves (.appendGroup (entry :: rest)) (by simp [task]) id
        (by simp [task, pendingOf]) (by simp [task, entriesOf]) trivial
      simp only at step
      split at step
      next empty => cases step; exact ⟨segs, writes, rfl⟩
      next inUse =>
        split at step
        next full => cases step; exact ⟨segs, maybeRoll_inv h task, rfl⟩
        next room => cases step; exact ⟨segs, writes, rfl⟩
  | appendGroup entries =>
    simp only [task] at step
    cases handle : s.writer.handle with
    | none =>
      simp only [handle] at step
      cases step
      exact ⟨segs, stops (by simp [task]) (by simp [task, pendingOf]), rfl⟩
    | some key =>
      simp only [handle] at step
      split at step
      next tooLong =>
        cases step
        exact ⟨segs, stops (by simp [task]) (by simp [task, pendingOf]), rfl⟩
      next fits =>
        cases step
        obtain ⟨segs', inv⟩ := appendGroup_inv h task handle
          (framesThatFit codec segmentMaxBytes s.writer.activeBytes entries)
        exact ⟨segs', inv, rfl⟩
  | settleGroup group rest =>
    simp only [task] at step
    cases step
    exact ⟨segs, settleGroup_inv h task, rfl⟩

end Narsil.Durability
