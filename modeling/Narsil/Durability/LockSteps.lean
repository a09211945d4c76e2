import Narsil.Durability.FlushSteps

/-!
# The steps of the lock holder

Opening a segment and swapping to a prepared one, and from these what each job
under the durability lock preserves.
-/
namespace Narsil.Durability

variable {codec : EntryCodec} {v : LogView} {segs : List Segment} {nextSeqNo : Nat}
  {pending extra rest : List ReplicationLogEntry} {p : Segment}

theorem Common.withWriter (common : Common codec v segs nextSeqNo pending) {w : WalWriter}
    (highestAppended : w.highestAppendedSeqNo = v.writer.highestAppendedSeqNo)
    (highestDurable : w.highestDurableSeqNo = v.writer.highestDurableSeqNo)
    (marker : w.markerWriter = v.writer.markerWriter) :
    Common codec { v with writer := w } segs nextSeqNo pending :=
  { common with
    counted :=
      { highestAppended := highestAppended ▸ common.counted.highestAppended
        tight := highestAppended ▸ common.counted.tight
        highestDurable := highestDurable ▸ common.counted.highestDurable
        marked := common.counted.marked
        tracks := marker ▸ common.counted.tracks } }

theorem RollStart.mono {appended : List ReplicationLogEntry} {starts starts' : List Nat}
    {start : Nat} (h : RollStart appended starts nextSeqNo rest start)
    (sub : ∀ other ∈ starts', other ∈ starts) : RollStart appended starts' nextSeqNo rest start :=
  ⟨h.entries, fun other ho => h.segments other (sub other ho), h.positive, h.next, h.ahead⟩

theorem mem_startsOf {q : Segment} (hq : q ∈ segs) : q.1.startSeqNo ∈ startsOf segs :=
  List.mem_map_of_mem hq

theorem Common.snoc (common : Common codec v segs nextSeqNo []) (file : SegmentFile)
    (header : file.bytes = writeSegmentHeader) (synced : file.synced ≤ segmentHeaderSize)
    (newest : ∀ p ∈ segs, p.1.startSeqNo < file.startSeqNo)
    (above : ∀ e ∈ v.appended, e.seqNo < file.startSeqNo)
    (bound : file.startSeqNo ≤ nextSeqNo) (positive : 0 < file.startSeqNo)
    (next : Option PreparedFile) :
    Common codec { v with disk := { v.disk with
      segments := placeSegment v.disk.segments file, next := next } } (segs ++ [(file, [])])
      nextSeqNo [] where
  disk := common.disk.snoc file header synced newest above next
  whole := by
    intro q hq
    rcases List.mem_append.mp hq with old | new
    · exact common.whole q old
    · cases List.mem_singleton.mp new
      simp [Whole, segmentBytes, header]
  starts := by
    intro q hq
    rcases List.mem_append.mp hq with old | new
    · exact common.starts q old
    · cases List.mem_singleton.mp new
      exact ⟨positive, bound⟩
  next := common.next
  below := common.below
  settled := common.settled
  owed := common.owed
  counted := ⟨common.counted.highestAppended, common.counted.tight, common.counted.highestDurable,
    common.counted.marked, common.counted.tracks⟩

/-- What opening a segment leaves: it is the last one and open. -/
structure OpenedAt (codec : EntryCodec) (v : LogView) (segs : List Segment) (nextSeqNo key : Nat)
    (disk : Disk) (w : WalWriter) (segs' : List Segment) (p : Segment) : Prop where
  common : Common codec { v with disk := disk, writer := w } segs' nextSeqNo []
  opened : Opened codec w segs' [] p
  start : p.1.startSeqNo = key
  starts : ∀ start ∈ startsOf segs', start ∈ startsOf segs ∨ start = key
  marker : disk.marker = v.disk.marker ∧ disk.markerWrite = v.disk.markerWrite
  next : disk.next = v.disk.next ∧ w.nextSegmentPrepared = v.writer.nextSegmentPrepared

theorem findSegment_some {truncated appended : List ReplicationLogEntry} {files : List SegmentFile}
    (layout : Layout codec truncated appended files segs) (member : p ∈ segs) :
    findSegment files p.1.startSeqNo = some p.1 := by
  cases found : findSegment files p.1.startSeqNo with
  | none =>
    have absent := List.find?_eq_none.mp found p.1
    rw [layout.files_eq] at absent
    exact absurd (absent (List.mem_map_of_mem member)) (by simp)
  | some f =>
    have here := List.find?_some found
    have inside := List.mem_of_find?_eq_some found
    rw [layout.files_eq] at inside
    obtain ⟨q, hq, rfl⟩ := List.mem_map.mp inside
    rw [layout.start_inj hq member (by simpa using here)]

theorem findSegment_none {truncated appended : List ReplicationLogEntry} {files : List SegmentFile}
    (layout : Layout codec truncated appended files segs) {key : Nat} (absent : key ∉ startsOf segs) :
    findSegment files key = none := by
  refine List.find?_eq_none.mpr fun f hf => ?_
  rw [layout.files_eq] at hf
  obtain ⟨q, hq, rfl⟩ := List.mem_map.mp hf
  intro same
  exact absent (by simpa [← of_decide_eq_true same] using mem_startsOf hq)

theorem openSegmentByKey_inv (common : Common codec v segs nextSeqNo [])
    (isSealed : ∀ q ∈ segs, Sealed codec q) {key : Nat}
    (last : ∀ q ∈ segs, q.1.startSeqNo ≤ key) (positive : 0 < key) (bound : key ≤ nextSeqNo)
    (fresh : key ∉ startsOf segs → ∀ e ∈ v.appended, e.seqNo < key)
    {disk : Disk} {w : WalWriter} {created : Bool}
    (step : openSegmentByKey v.disk v.writer key = (disk, w, created)) :
    ∃ segs' p, OpenedAt codec v segs nextSeqNo key disk w segs' p := by
  by_cases known : key ∈ startsOf segs
  · obtain ⟨p, member, rfl⟩ := List.mem_map.mp known
    have whole := common.whole p member
    have length := congrArg List.length whole
    rw [segmentBytes_length] at length
    have notEmpty : ¬ p.1.bytes.length = 0 := by
      have : 0 < segmentHeaderSize := by decide
      omega
    simp only [openSegmentByKey, findSegment_some common.disk.layout member, if_neg notEmpty] at step
    cases step
    refine ⟨segs, p, ⟨common.withWriter rfl rfl rfl, ?_, rfl, fun _ h => Or.inl h, ⟨rfl, rfl⟩, rfl, rfl⟩⟩
    refine ⟨rfl, rfl, member, last, fun q hq _ => isSealed q hq, p.2, by simp, ?_⟩
    rw [show p.1.bytes = _ from whole]
  · simp only [openSegmentByKey, findSegment_none common.disk.layout known] at step
    cases step
    have newest : ∀ q ∈ segs, q.1.startSeqNo < key := fun q hq =>
      Nat.lt_of_le_of_ne (last q hq) fun same => known (same ▸ mem_startsOf hq)
    have placed := common.snoc ⟨key, writeSegmentHeader, 0⟩ rfl (Nat.zero_le _) newest (fresh known)
      bound positive v.disk.next
    refine ⟨_, (⟨key, writeSegmentHeader, 0⟩, []), ⟨placed.withWriter rfl rfl rfl, ?_, rfl, ?_,
      ⟨rfl, rfl⟩, rfl, rfl⟩⟩
    · refine ⟨rfl, rfl, by simp, ?_, ?_, [], rfl, by simp [segmentBytes]⟩
      · intro q hq
        rcases List.mem_append.mp hq with old | new
        · exact last q old
        · cases List.mem_singleton.mp new
          exact Nat.le_refl _
      · intro q hq less
        rcases List.mem_append.mp hq with old | new
        · exact isSealed q old
        · cases List.mem_singleton.mp new
          exact absurd less (Nat.lt_irrefl _)
    · intro start hs
      simpa [startsOf] using hs

theorem activeSegmentHoldsRecords_iff (w : WalWriter) :
    activeSegmentHoldsRecords w = true ↔ w.handle.isSome = true ∧
      w.activeBytes > segmentHeaderSize ∧ w.highestAppendedSeqNo ≥ w.activeStartSeqNo := by
  simp [activeSegmentHoldsRecords, and_assoc]

theorem Common.highest_lt (common : Common codec v segs nextSeqNo pending) :
    highestSeqNo v.settled < nextSeqNo := by
  have below : ∀ e ∈ v.settled, e.seqNo ≤ nextSeqNo - 1 := by
    intro e he
    have := common.below e (common.settled ▸ List.mem_append_left _ he)
    omega
  have := highestSeqNo_le below
  have := common.next
  omega

theorem swapReady_of_records (common : Common codec v segs nextSeqNo [])
    (quiet : v.disk.markerWrite = none) (ready : Ready codec v segs [])
    (unprepared : v.writer.nextSegmentPrepared = false)
    (records : activeSegmentHoldsRecords v.writer = true) : ∃ p, SwapReady codec v segs p := by
  obtain ⟨handle, _, reaches⟩ := (activeSegmentHoldsRecords_iff _).mp records
  rcases ready with ⟨closed, -⟩ | ⟨p, opened, named⟩
  · rw [closed.handle] at handle
    cases handle
  have start := (common.starts p opened.member).1
  rw [opened.active] at reaches
  refine ⟨p, quiet, ?_, opened, reaches, named, unprepared⟩
  rcases common.counted.tight with zero | bound
  · omega
  · rw [common.settled, List.append_nil]
    exact bound

theorem SwapReady.rollStart (h : SwapReady codec v segs p)
    (common : Common codec v segs nextSeqNo []) :
    RollStart v.appended (startsOf segs) nextSeqNo [] (v.writer.highestAppendedSeqNo + 1) where
  entries := fun e he => Nat.lt_succ_of_le (h.numbers e he)
  segments := by
    intro other ho
    obtain ⟨q, hq, rfl⟩ := List.mem_map.mp ho
    have := h.opened.last q hq
    have := h.start
    omega
  positive := Nat.succ_pos _
  next := by
    have := common.counted.highestAppended
    have := common.highest_lt
    omega
  ahead := by simp

theorem SwapReady.withWriter (h : SwapReady codec v segs p) {w : WalWriter}
    (opened : Opened codec w segs [] p)
    (highestAppended : w.highestAppendedSeqNo = v.writer.highestAppendedSeqNo)
    (prepared : w.nextSegmentPrepared = v.writer.nextSegmentPrepared) :
    SwapReady codec { v with writer := w } segs p where
  quiet := h.quiet
  numbers := highestAppended ▸ h.numbers
  opened := opened
  start := highestAppended ▸ h.start
  named := h.named
  unprepared := prepared.trans h.unprepared

/-- A step leaves the prepared file and its flag alone. -/
def LeavesNext (v : LogView) (disk : Disk) (w : WalWriter) : Prop :=
  disk.next = v.disk.next ∧ w.nextSegmentPrepared = v.writer.nextSegmentPrepared

/-- What the caller's job under the lock comes to: its next step, or a log that
is ready for the caller's next call. -/
structure JobResult (codec : EntryCodec) (v : LogView) (segs : List Segment) (nextSeqNo : Nat)
    (after : CallerTask) (disk : Disk) (w : WalWriter) (segs' : List Segment)
    (job : Option LockJob) : Prop where
  common : Common codec { v with disk := disk, writer := w } segs' nextSeqNo []
  prepared : LeavesNext v disk w ∨ (after = .idle ∧ w.nextSegmentPrepared = false)
  starts : ∀ start ∈ startsOf segs',
    start ∈ startsOf segs ∨ ∀ e ∈ entriesOf after, start ≤ e.seqNo
  job : match job with
    | some job => JobInv codec { v with disk := disk, writer := w } segs' nextSeqNo after job
    | none => disk.markerWrite = none ∧ Ready codec { v with disk := disk, writer := w } segs' []

theorem Ready.open_last (h : Ready codec v segs pending) {key : Nat}
    (handle : v.writer.handle = some key) : ∀ q ∈ segs, q.1.startSeqNo ≤ key := by
  rcases h with ⟨closed, -⟩ | ⟨p, opened, -⟩
  · rw [closed.handle] at handle
    cases handle
  · rw [opened.handle] at handle
    cases handle
    exact opened.last

section Jobs

variable {after : CallerTask} {moveFirst : Bool} {disk : Disk} {w : WalWriter}
  {job' : Option LockJob}

private theorem flushJob_inv (common : Common codec v segs nextSeqNo []) {stage : FlushStage} {thenOpens : Option Nat}
    (inv : JobInv codec v segs nextSeqNo after (.flush stage thenOpens))
    (step : lockJobStep moveFirst v.disk v.writer (.flush stage thenOpens) = (disk, w, job')) :
    ∃ segs', JobResult codec v segs nextSeqNo after disk w segs' job' := by
  obtain ⟨flush, rolls⟩ := inv
  cases result : flushStep v.disk v.writer stage with
  | mk disk₁ rest =>
    obtain ⟨w₁, stage'⟩ := rest
    obtain ⟨segs', inPlace, done⟩ := flushStep_inv common flush (by simp) (fun _ => rfl) result
    have starts : ∀ start ∈ startsOf segs',
        start ∈ startsOf segs ∨ ∀ e ∈ entriesOf after, start ≤ e.seqNo :=
      fun start hs => Or.inl (inPlace.starts ▸ hs)
    have rolls' : ∀ start, thenOpens = some start →
        RollStart v.appended (startsOf segs') nextSeqNo (entriesOf after) start :=
      inPlace.starts.symm ▸ rolls
    have leaves : LeavesNext v disk₁ w₁ := ⟨inPlace.next, inPlace.prepared⟩
    simp only [lockJobStep, result] at step
    cases stage' with
    | some stage' =>
      cases step
      exact ⟨segs', done.1, Or.inl leaves, starts, done.2, rolls'⟩
    | none =>
      cases step
      obtain ⟨common', ready, quiet, isSealed⟩ := done
      simp only [List.append_nil] at common' ready
      refine ⟨segs', common', Or.inl leaves, starts, ?_⟩
      cases thenOpens with
      | none => exact ⟨quiet, ready⟩
      | some start => exact ⟨quiet, isSealed trivial, rolls' start rfl, fun key => ready.open_last⟩

private theorem openJob_inv (common : Common codec v segs nextSeqNo []) {start : Nat} (inv : JobInv codec v segs nextSeqNo after (.openSegment start))
    (step : lockJobStep moveFirst v.disk v.writer (.openSegment start) = (disk, w, job')) :
    ∃ segs', JobResult codec v segs nextSeqNo after disk w segs' job' := by
  obtain ⟨quiet, isSealed, roll, -⟩ := inv
  have unopened : Common codec { v with writer := { v.writer with handle := none } } segs nextSeqNo [] :=
    common.withWriter rfl rfl rfl
  cases result : openSegmentByKey v.disk { v.writer with handle := none } start with
  | mk disk₁ rest =>
    obtain ⟨w₁, created⟩ := rest
    simp only [lockJobStep, result] at step
    cases step
    obtain ⟨segs', p, now⟩ := openSegmentByKey_inv unopened isSealed
      (fun q hq => roll.segments _ (mem_startsOf hq)) roll.positive roll.next
      (fun _ => roll.entries) result
    refine ⟨segs', now.common, Or.inl now.next, ?_, ?_, ?_⟩
    · intro other ho
      rcases now.starts other ho with old | rfl
      · exact Or.inl old
      · exact Or.inr roll.ahead
    · exact Or.inr ⟨p, now.opened, fun notOwn => absurd trivial notOwn, now.marker.2.trans quiet⟩
    · intro other none
      cases none

private theorem checkpointJob_inv (common : Common codec v segs nextSeqNo [])
    (prepared : v.writer.nextSegmentPrepared = true → v.disk.next = some preparedSegment)
    (inv : JobInv codec v segs nextSeqNo after .checkpointRoll)
    (step : lockJobStep moveFirst v.disk v.writer .checkpointRoll = (disk, w, job')) :
    ∃ segs', JobResult codec v segs nextSeqNo after disk w segs' job' := by
  obtain ⟨rfl, quiet, ready⟩ := inv
  have common' : Common codec { v with writer := { v.writer with nextSegmentPrepared := false } }
      segs nextSeqNo [] := common.withWriter rfl rfl rfl
  have ready' : Ready codec { v with writer := { v.writer with nextSegmentPrepared := false } }
      segs [] := by
    rcases ready with ⟨closed, none⟩ | ⟨p, opened, named⟩
    · exact Or.inl ⟨⟨closed.handle, closed.isSealed, closed.marked, closed.unmarked⟩, none⟩
    · exact Or.inr ⟨p, opened.of_writer rfl rfl rfl, named⟩
  simp only [lockJobStep] at step
  by_cases records :
      activeSegmentHoldsRecords { v.writer with nextSegmentPrepared := false } = true
  · obtain ⟨p, swap⟩ := swapReady_of_records common' quiet ready' rfl records
    rw [if_pos records] at step
    split at step
    next isPrepared =>
      cases step
      exact ⟨segs, common', Or.inr ⟨rfl, rfl⟩, fun _ h => Or.inl h, rfl, prepared isPrepared, p, swap⟩
    next notPrepared =>
      cases step
      refine ⟨segs, common', Or.inr ⟨rfl, rfl⟩, fun _ h => Or.inl h, ?_, ?_⟩
      · exact Or.inr ⟨p, swap.opened, fun notOwn => absurd trivial notOwn, quiet⟩
      · intro start same
        cases same
        exact swap.rollStart common'
  · rw [if_neg records] at step
    cases step
    exact ⟨segs, common', Or.inr ⟨rfl, rfl⟩, fun _ h => Or.inl h, quiet, ready'⟩

private theorem swapWriterJob_inv (common : Common codec v segs nextSeqNo [])
    (inv : JobInv codec v segs nextSeqNo after .swapWriter)
    (step : lockJobStep moveFirst v.disk v.writer .swapWriter = (disk, w, job')) :
    ∃ segs', JobResult codec v segs nextSeqNo after disk w segs' job' := by
  obtain ⟨rfl, next, p, swap⟩ := inv
  obtain ⟨counted, known⟩ := common.counted.getMarkerWriter swap.quiet
  simp only [lockJobStep] at step
  cases step
  refine ⟨segs, { common with counted := counted }, Or.inl ⟨rfl, by simp⟩, fun _ h => Or.inl h, rfl,
    segs, p, ?_⟩
  exact
    { ready := swap.withWriter (swap.opened.of_writer (by simp) (by simp) (by simp)) (by simp)
        (by simp)
      writer := known
      isSealed := by simp
      waiting := fun _ => ⟨rfl, next⟩
      arrived := by simp }

/-! The three things that happen before the swap issues its marker write. -/

private theorem swapMove (common : Common codec v segs nextSeqNo []) {old : List Segment}
    {synced : Bool} (swap : SwapInv codec v segs synced false old p) :
    ∃ segs', JobResult codec v segs nextSeqNo .idle
      { v.disk with
        segments := placeSegment v.disk.segments
          ⟨v.writer.highestAppendedSeqNo + 1, writeSegmentHeader, segmentHeaderSize⟩
        next := none }
      v.writer segs' (some (.swapSeal synced true)) := by
  obtain ⟨rfl, next⟩ := swap.waiting rfl
  have roll := swap.ready.rollStart common
  have newest : ∀ q ∈ segs, q.1.startSeqNo < v.writer.highestAppendedSeqNo + 1 := by
    intro q hq
    have := swap.ready.opened.last q hq
    have := swap.ready.start
    omega
  have placed := common.snoc
    ⟨v.writer.highestAppendedSeqNo + 1, writeSegmentHeader, segmentHeaderSize⟩ rfl (Nat.le_refl _)
    newest roll.entries roll.next roll.positive none
  refine ⟨_, placed, Or.inr ⟨rfl, swap.ready.unprepared⟩, ?_, rfl, segs, p, ?_⟩
  · intro start _
    exact Or.inr (by simp [entriesOf])
  · exact
      { ready := ⟨swap.ready.quiet, swap.ready.numbers, swap.ready.opened, swap.ready.start,
          swap.ready.named, swap.ready.unprepared⟩
        writer := swap.writer
        isSealed := swap.isSealed
        waiting := by simp
        arrived := fun _ => rfl }

private theorem swapSync (common : Common codec v segs nextSeqNo []) {old : List Segment}
    {moved : Bool} (swap : SwapInv codec v segs false moved old p) :
    ∃ segs', JobResult codec v segs nextSeqNo .idle
      { v.disk with
        segments := updateSegment v.disk.segments v.writer.activeStartSeqNo
          (·.sync v.writer.activeBytes) }
      v.writer segs' (some (.swapSeal true moved)) := by
  have opened := swap.ready.opened
  obtain ⟨noted, entries, bytes⟩ := opened.bytes
  rw [List.append_nil] at entries
  have inSegs : ∀ q ∈ old, q ∈ segs := by
    intro q hq
    cases moved with
    | false => exact (swap.waiting rfl).1 ▸ hq
    | true => exact (swap.arrived rfl) ▸ List.mem_append_left _ hq
  have written := common.disk.layout.written
  have synced := common.sync v.writer.activeStartSeqNo v.writer.activeBytes
  have stays := opened.syncAt (fun q hq => written q (inSegs q hq)) v.writer.activeStartSeqNo
    v.writer.activeBytes
  refine ⟨_, synced, Or.inl ⟨rfl, rfl⟩, ?_, rfl,
    old.map (syncAt v.writer.activeStartSeqNo v.writer.activeBytes),
    syncAt v.writer.activeStartSeqNo v.writer.activeBytes p, ?_⟩
  · intro start _
    exact Or.inr (by simp [entriesOf])
  · refine
      { ready := ⟨swap.ready.quiet, swap.ready.numbers, stays, ?_, ?_, swap.ready.unprepared⟩
        writer := swap.writer
        isSealed := fun _ => ?_
        waiting := ?_
        arrived := ?_ }
    · rw [syncAt_start]
      exact swap.ready.start
    · rw [syncAt_start]
      exact swap.ready.named
    · rw [opened.active]
      have member := inSegs p opened.member
      exact (common.whole p member).sealed_syncAt (common.disk.layout.synced_le p member)
        (entries ▸ bytes)
    · intro unmoved
      obtain ⟨same, next⟩ := swap.waiting unmoved
      exact ⟨by rw [same], next⟩
    · intro isMoved
      have start := swap.ready.start
      rw [swap.arrived isMoved, List.map_append, List.map_singleton]
      congr 2
      -- The segment just moved into place is not the one that is synced.
      rw [syncAt, if_neg (by rw [opened.active]; simp only; omega)]

/-- The writer's memory once the swap is about to issue its marker write. -/
def swappedWriter (w : WalWriter) : WalWriter :=
  { w with
    handle := some (w.highestAppendedSeqNo + 1)
    activeStartSeqNo := w.highestAppendedSeqNo + 1
    activeBytes := segmentHeaderSize }

private theorem swapOpened (common : Common codec v segs nextSeqNo []) {old : List Segment}
    (swap : SwapInv codec v segs true true old p) :
    Opened codec (swappedWriter v.writer) segs []
      (⟨v.writer.highestAppendedSeqNo + 1, writeSegmentHeader, segmentHeaderSize⟩, []) := by
  have arrived := swap.arrived rfl
  have opened := swap.ready.opened
  have newest : ∀ q ∈ old, q.1.startSeqNo < v.writer.highestAppendedSeqNo + 1 := by
    intro q hq
    have := opened.last q hq
    have := swap.ready.start
    omega
  refine ⟨rfl, rfl, by simp [arrived], ?_, ?_, [], rfl, by simp [segmentBytes, swappedWriter]⟩
  · intro q hq
    rw [arrived] at hq
    rcases List.mem_append.mp hq with isOld | new
    · exact Nat.le_of_lt (newest q isOld)
    · cases List.mem_singleton.mp new
      exact Nat.le_refl _
  · intro q hq less
    rw [arrived] at hq
    rcases List.mem_append.mp hq with isOld | new
    · rcases Nat.lt_or_eq_of_le (opened.last q isOld) with earlier | same
      · exact opened.isSealed q isOld earlier
      · have inSegs : ∀ r ∈ old, r ∈ segs := fun r hr => arrived ▸ List.mem_append_left _ hr
        rw [common.disk.layout.start_inj (inSegs q isOld) (inSegs p opened.member) same]
        exact swap.isSealed rfl
    · cases List.mem_singleton.mp new
      exact absurd less (Nat.lt_irrefl _)

private theorem swapMark (common : Common codec v segs nextSeqNo []) {old : List Segment}
    (swap : SwapInv codec v segs true true old p) {f : Frontier}
    (captured : f = capturedFrontier (swappedWriter v.writer)) :
    ∃ segs', JobResult codec v segs nextSeqNo .idle
      (issueMarker v.disk (createMarkerWriter v.disk.marker) f).1
      { swappedWriter v.writer with
        markerWriter := some (issueMarker v.disk (createMarkerWriter v.disk.marker) f).2 }
      segs' (some (.swapMarking f)) := by
  subst captured
  have opened := swapOpened common swap
  have common' : Common codec { v with writer := swappedWriter v.writer } segs nextSeqNo [] :=
    common.withWriter rfl rfl rfl
  have captured : Captured codec { v with writer := swappedWriter v.writer } segs [] _ _ :=
    captured_frontier common' opened (by simp)
  have holds : MarkerHolds codec v.truncated v.owed segs _ :=
    (captured.holds (Nat.le_refl _)).mono fun e he => List.mem_append_left _ he
  refine ⟨segs, common'.issue holds rfl rfl rfl, Or.inl ⟨rfl, rfl⟩, fun _ h => Or.inl h, Or.inr ⟨_,
    opened.of_writer rfl rfl rfl, fun notOwn => absurd trivial notOwn, ⟨⟨_, _, rfl, rfl⟩, rfl⟩,
    ⟨captured.active, captured.covers, captured.highest⟩, Nat.le_refl _, ?_⟩⟩
  intro _
  simp [Sealed, segmentBytes]

private theorem swapSealJob_inv (common : Common codec v segs nextSeqNo []) {synced moved : Bool}
    (inv : JobInv codec v segs nextSeqNo after (.swapSeal synced moved))
    (step : lockJobStep moveFirst v.disk v.writer (.swapSeal synced moved) = (disk, w, job')) :
    ∃ segs', JobResult codec v segs nextSeqNo after disk w segs' job' := by
  obtain ⟨rfl, old, p, swap⟩ := inv
  simp only [lockJobStep] at step
  split at step
  next moves =>
    obtain ⟨unmoved, -⟩ := Bool.and_eq_true_iff.mp moves
    cases moved with
    | true => cases unmoved
    | false =>
      rw [(swap.waiting rfl).2] at step
      cases step
      exact swapMove common swap
  next stays =>
    split at step
    next unsynced =>
      cases synced with
      | true => cases unsynced
      | false =>
        cases step
        exact swapSync common swap
    next isSynced =>
      cases synced with
      | false => exact absurd rfl isSynced
      | true =>
        cases moved with
        | false => exact absurd (by simp) stays
        | true =>
          rw [common.counted.writer_eq swap.ready.quiet swap.writer] at step
          cases step
          exact swapMark common swap rfl

private theorem swapMarkingJob_inv (common : Common codec v segs nextSeqNo []) {f : Frontier} (inv : JobInv codec v segs nextSeqNo after (.swapMarking f))
    (step : lockJobStep moveFirst v.disk v.writer (.swapMarking f) = (disk, w, job')) :
    ∃ segs', JobResult codec v segs nextSeqNo after disk w segs' job' := by
  rcases inv with ⟨stage, -⟩ | ⟨p, opened, -, knows⟩
  · cases stage
  simp only [lockJobStep] at step
  cases step
  have stays : Opened codec { v.writer with
      markerWriter := some (finishMarker v.disk (v.writer.markerWriter.getD ⟨none, 0⟩)).2
      highestDurableSeqNo := f.highestDurableSeqNo } segs [] p := opened.of_writer rfl rfl rfl
  obtain ⟨common', ready, quiet, -⟩ :=
    marking_done common opened knows (by simp) stays rfl knows.2.1.highest rfl
  simp only [List.append_nil] at common' ready
  exact ⟨segs, common', Or.inl ⟨finishMarker_next _ _, rfl⟩, fun _ h => Or.inl h, quiet, ready⟩

theorem lockJobStep_inv (common : Common codec v segs nextSeqNo [])
    (prepared : after = .idle → v.writer.nextSegmentPrepared = true →
      v.disk.next = some preparedSegment)
    {job : LockJob} (inv : JobInv codec v segs nextSeqNo after job)
    (step : lockJobStep moveFirst v.disk v.writer job = (disk, w, job')) :
    ∃ segs', JobResult codec v segs nextSeqNo after disk w segs' job' := by
  cases job with
  | flush stage thenOpens => exact flushJob_inv common inv step
  | openSegment start => exact openJob_inv common inv step
  | checkpointRoll => exact checkpointJob_inv common (prepared inv.1) inv step
  | swapWriter => exact swapWriterJob_inv common inv step
  | swapSeal synced moved => exact swapSealJob_inv common inv step
  | swapMarking f => exact swapMarkingJob_inv common inv step

end Jobs

end Narsil.Durability
