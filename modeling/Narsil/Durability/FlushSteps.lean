import Narsil.Durability.WalInvariant

/-!
# The steps of a flush

Appending to and syncing the open segment, and the flush from its start to the
marker, each kept by the invariant. A flush that returns has made durable what
was settled when it captured the frontier.
-/
namespace Narsil.Durability

variable {codec : EntryCodec} {v : LogView} {segs : List Segment} {nextSeqNo : Nat}
  {pending extra : List ReplicationLogEntry} {p : Segment} {own : Prop}

def addTo (codec : EntryCodec) (key : Nat) (group : List ReplicationLogEntry) (q : Segment) :
    Segment :=
  if q.1.startSeqNo = key then (q.1.append (frames codec group), q.2 ++ group) else q

def syncAt (key byteLength : Nat) (q : Segment) : Segment :=
  (if q.1.startSeqNo = key then q.1.sync byteLength else q.1, q.2)

@[simp] theorem addTo_start (key : Nat) (group : List ReplicationLogEntry) (q : Segment) :
    (addTo codec key group q).1.startSeqNo = q.1.startSeqNo := by
  unfold addTo
  split <;> rfl

@[simp] theorem syncAt_start (key byteLength : Nat) (q : Segment) :
    (syncAt key byteLength q).1.startSeqNo = q.1.startSeqNo := by
  unfold syncAt
  split <;> rfl

@[simp] theorem syncAt_bytes (key byteLength : Nat) (q : Segment) :
    (syncAt key byteLength q).1.bytes = q.1.bytes := by
  unfold syncAt
  split <;> rfl

@[simp] theorem syncAt_entries (key byteLength : Nat) (q : Segment) :
    (syncAt key byteLength q).2 = q.2 := rfl

theorem startsOf_map {g : Segment → Segment} (start : ∀ q, (g q).1.startSeqNo = q.1.startSeqNo)
    (segs : List Segment) : startsOf (segs.map g) = startsOf segs := by
  simp [startsOf, start]

theorem Sealed.syncAt {q : Segment} (h : Sealed codec q)
    (written : q.1.bytes <+: segmentBytes codec q.2) (key byteLength : Nat) :
    Sealed codec (syncAt key byteLength q) := by
  unfold Durability.syncAt
  by_cases here : q.1.startSeqNo = key
  · rw [if_pos here]
    exact h.sync written byteLength
  · rw [if_neg here]
    exact h

theorem Whole.sealed_syncAt {q : Segment} (h : Whole codec q) (synced : q.1.synced ≤ q.1.bytes.length)
    {byteLength : Nat} (all : byteLength = (segmentBytes codec q.2).length) :
    Sealed codec (Durability.syncAt q.1.startSeqNo byteLength q) := by
  have length := congrArg List.length h
  simp only [Sealed, Durability.syncAt, if_pos, SegmentFile.sync]
  omega

theorem Opened.of_writer {w w' : WalWriter} (h : Opened codec w segs pending p)
    (handle : w'.handle = w.handle) (active : w'.activeStartSeqNo = w.activeStartSeqNo)
    (bytes : w'.activeBytes = w.activeBytes) : Opened codec w' segs pending p where
  handle := handle.trans h.handle
  active := active.trans h.active
  member := h.member
  last := h.last
  isSealed := h.isSealed
  bytes := bytes ▸ h.bytes

theorem Opened.syncAt {w : WalWriter} (h : Opened codec w segs pending p)
    (written : ∀ q ∈ segs, q.1.bytes <+: segmentBytes codec q.2) (key byteLength : Nat) :
    Opened codec w (segs.map (syncAt key byteLength)) pending (Durability.syncAt key byteLength p) where
  handle := by rw [syncAt_start]; exact h.handle
  active := by rw [syncAt_start]; exact h.active
  member := List.mem_map_of_mem h.member
  last := by
    intro q hq
    obtain ⟨r, hr, rfl⟩ := List.mem_map.mp hq
    simpa using h.last r hr
  isSealed := by
    intro q hq less
    obtain ⟨r, hr, rfl⟩ := List.mem_map.mp hq
    exact (h.isSealed r hr (by simpa using less)).syncAt (written r hr) key byteLength
  bytes := h.bytes

theorem Opened.append {w : WalWriter} (h : Opened codec w segs [] p)
    (group : List ReplicationLogEntry) :
    Opened codec w (segs.map (addTo codec p.1.startSeqNo group)) group
      (addTo codec p.1.startSeqNo group p) where
  handle := by rw [addTo_start]; exact h.handle
  active := by rw [addTo_start]; exact h.active
  member := List.mem_map_of_mem h.member
  last := by
    intro q hq
    obtain ⟨r, hr, rfl⟩ := List.mem_map.mp hq
    simpa using h.last r hr
  isSealed := by
    intro q hq less
    obtain ⟨r, hr, rfl⟩ := List.mem_map.mp hq
    simp only [addTo_start] at less
    rw [addTo, if_neg (by omega)]
    exact h.isSealed r hr less
  bytes := by
    obtain ⟨noted, entries, active⟩ := h.bytes
    refine ⟨noted, ?_, active⟩
    rw [addTo, if_pos rfl, entries, List.append_nil]

theorem Opened.settle {w : WalWriter} (h : Opened codec w segs pending p) :
    Opened codec (noteAppended codec w pending) segs [] p where
  handle := h.handle
  active := h.active
  member := h.member
  last := h.last
  isSealed := h.isSealed
  bytes := by
    obtain ⟨noted, entries, active⟩ := h.bytes
    refine ⟨p.2, by simp, ?_⟩
    simp only [noteAppended, active, segmentBytes_length, entries, frames_append, List.length_append]
    omega

theorem coveredBy_opened (common : Common codec v segs nextSeqNo pending)
    (opened : Opened codec v.writer segs pending p) {noted : List ReplicationLogEntry}
    (entries : p.2 = noted ++ pending) {f : Frontier} (active : f.activeSegmentSeqNo = p.1.startSeqNo) :
    coveredBy v.truncated segs f p noted.length = v.settled := by
  have written := common.disk.layout.entries
  have settled := common.settled
  obtain ⟨pre, rfl, before⟩ := common.disk.layout.split_last opened.member opened.last
  rw [coveredBy, filter_earlier active.symm (active ▸ before) (by simp), entries,
    List.take_left]
  have whole : v.truncated ++ pre.flatMap Prod.snd ++ noted ++ pending = v.settled ++ pending := by
    rw [← settled, ← written]
    simp [entries]
  exact List.append_cancel_right whole

theorem captured_frontier (common : Common codec v segs nextSeqNo pending)
    (opened : Opened codec v.writer segs pending p) (sub : ∀ e ∈ extra, e ∈ v.settled) :
    Captured codec v segs extra p (capturedFrontier v.writer) := by
  obtain ⟨noted, entries, bytes⟩ := opened.bytes
  have active : (capturedFrontier v.writer).activeSegmentSeqNo = p.1.startSeqNo := opened.active
  have covered := coveredBy_opened common opened entries active
  have highest : (capturedFrontier v.writer).highestDurableSeqNo ≤ highestSeqNo v.settled :=
    Nat.max_le.mpr ⟨common.counted.highestAppended, common.counted.highestDurable⟩
  refine ⟨active, ⟨noted.length, ⟨opened.member, active.symm, ?_, ?_, ?_, ?_, ?_⟩, ?_⟩, highest⟩
  · simp [entries]
  · rw [entries, List.take_left]
    exact bytes
  · exact fun q hq less => opened.isSealed q hq (active ▸ less)
  · intro q hq greater
    have := opened.last q hq
    omega
  · rw [covered]
    exact highest
  · intro e he
    rw [covered]
    rcases List.mem_append.mp he with old | new
    · exact common.owed e old
    · exact sub e new

theorem Captured.holds {f : Frontier} (h : Captured codec v segs extra p f)
    (synced : f.durableByteLength ≤ p.1.synced) :
    MarkerHolds codec v.truncated (v.owed ++ extra) segs f := by
  obtain ⟨j, covers, holds⟩ := h.covers
  exact ⟨p, j, covers, synced, holds⟩

theorem Captured.syncAt {f : Frontier} (h : Captured codec v segs extra p f)
    (written : ∀ q ∈ segs, q.1.bytes <+: segmentBytes codec q.2) (key byteLength : Nat) (disk : Disk) :
    Captured codec { v with disk := disk } (segs.map (syncAt key byteLength)) extra
      (Durability.syncAt key byteLength p) f := by
  obtain ⟨j, covers, holds⟩ := h.covers
  have start : ∀ q ∈ segs, (Durability.syncAt key byteLength q).1.startSeqNo = q.1.startSeqNo :=
    fun q _ => syncAt_start key byteLength q
  have entries : ∀ q ∈ segs, (Durability.syncAt key byteLength q).2 = q.2 := fun q _ => rfl
  refine ⟨h.active.trans (syncAt_start key byteLength p).symm, ⟨j, ?_, ?_⟩, h.highest⟩
  · exact covers.map start entries
      fun q hq _ isSealed => isSealed.syncAt (written q hq) key byteLength
  · intro e he
    rw [coveredBy_map start entries f covers.member]
    exact holds e he

theorem Captured.append {f : Frontier} (h : Captured codec v segs extra p f)
    (group : List ReplicationLogEntry) (disk : Disk) (appended : List ReplicationLogEntry) :
    Captured codec { v with disk := disk, appended := appended }
      (segs.map (addTo codec p.1.startSeqNo group)) extra (addTo codec p.1.startSeqNo group p) f := by
  obtain ⟨j, covers, holds⟩ := h.covers
  refine ⟨h.active.trans (addTo_start p.1.startSeqNo group p).symm, ⟨j, ?_, ?_⟩, h.highest⟩
  · rw [← h.active, addTo, if_pos h.active.symm]
    exact covers.append group
  · intro e he
    rw [← h.active, addTo, if_pos h.active.symm]
    exact (coveredBy_append covers).symm ▸ holds e he

theorem expectedWriter_quiet {disk : Disk} (quiet : disk.markerWrite = none) :
    expectedWriter disk = createMarkerWriter disk.marker := by
  simp [expectedWriter, quiet]

theorem Counted.getMarkerWriter (h : Counted v) (quiet : v.disk.markerWrite = none) :
    Counted { v with writer := getMarkerWriter v.disk v.writer } ∧
      (Durability.getMarkerWriter v.disk v.writer).markerWriter.isSome = true := by
  unfold Durability.getMarkerWriter
  cases known : v.writer.markerWriter with
  | some w => exact ⟨h, by simp [known]⟩
  | none =>
    refine ⟨⟨h.highestAppended, h.tight, ?_, h.marked, ?_⟩, rfl⟩
    · refine Nat.max_le.mpr ⟨h.highestDurable, ?_⟩
      cases read : readCommitMarker v.disk.marker with
      | none => simp
      | some current => exact h.marked current.1 current.2 read
    · intro w same
      cases same
      exact (expectedWriter_quiet quiet).symm

@[simp] theorem getMarkerWriter_handle (disk : Disk) (w : WalWriter) :
    (getMarkerWriter disk w).handle = w.handle := by
  unfold getMarkerWriter; split <;> rfl

@[simp] theorem getMarkerWriter_activeStartSeqNo (disk : Disk) (w : WalWriter) :
    (getMarkerWriter disk w).activeStartSeqNo = w.activeStartSeqNo := by
  unfold getMarkerWriter; split <;> rfl

@[simp] theorem getMarkerWriter_activeBytes (disk : Disk) (w : WalWriter) :
    (getMarkerWriter disk w).activeBytes = w.activeBytes := by
  unfold getMarkerWriter; split <;> rfl

@[simp] theorem getMarkerWriter_highestAppendedSeqNo (disk : Disk) (w : WalWriter) :
    (getMarkerWriter disk w).highestAppendedSeqNo = w.highestAppendedSeqNo := by
  unfold getMarkerWriter; split <;> rfl

@[simp] theorem getMarkerWriter_nextSegmentPrepared (disk : Disk) (w : WalWriter) :
    (getMarkerWriter disk w).nextSegmentPrepared = w.nextSegmentPrepared := by
  unfold getMarkerWriter; split <;> rfl

theorem Counted.writer_eq (h : Counted v) (quiet : v.disk.markerWrite = none)
    (known : v.writer.markerWriter.isSome = true) :
    v.writer.markerWriter.getD ⟨none, 0⟩ = createMarkerWriter v.disk.marker := by
  obtain ⟨w, same⟩ := Option.isSome_iff_exists.mp known
  rw [same, Option.getD_some, h.tracks w same, expectedWriter_quiet quiet]

theorem Common.issue (common : Common codec v segs nextSeqNo pending) {f : Frontier}
    (holds : MarkerHolds codec v.truncated v.owed segs f) {w : WalWriter}
    (highestAppended : w.highestAppendedSeqNo = v.writer.highestAppendedSeqNo)
    (highestDurable : w.highestDurableSeqNo = v.writer.highestDurableSeqNo)
    (marker : w.markerWriter = some (issueMarker v.disk (createMarkerWriter v.disk.marker) f).2) :
    Common codec { v with
      disk := (issueMarker v.disk (createMarkerWriter v.disk.marker) f).1, writer := w }
      segs nextSeqNo pending where
  disk := common.disk.issue holds
  whole := common.whole
  starts := common.starts
  next := common.next
  below := common.below
  settled := common.settled
  owed := common.owed
  counted :=
    { highestAppended := highestAppended ▸ common.counted.highestAppended
      tight := highestAppended ▸ common.counted.tight
      highestDurable := highestDurable ▸ common.counted.highestDurable
      marked := common.counted.marked
      tracks := by
        intro w' same
        rw [marker] at same
        cases same
        rfl }

theorem Common.finish (common : Common codec v segs nextSeqNo pending) {i : Nat}
    {m : CommitMarkerState} (write : v.disk.markerWrite = some (i, m))
    (known : v.writer.markerWriter.isSome = true)
    (holds : MarkerHolds codec v.truncated (v.owed ++ extra) segs m.frontier)
    (sub : ∀ e ∈ extra, e ∈ v.settled) (highest : m.highestDurableSeqNo ≤ highestSeqNo v.settled)
    {w : WalWriter} (highestAppended : w.highestAppendedSeqNo = v.writer.highestAppendedSeqNo)
    (highestDurable : w.highestDurableSeqNo ≤ highestSeqNo v.settled)
    (marker : w.markerWriter
      = some (finishMarker v.disk (v.writer.markerWriter.getD ⟨none, 0⟩)).2) :
    Common codec { v with
      disk := (finishMarker v.disk (v.writer.markerWriter.getD ⟨none, 0⟩)).1, writer := w
      owed := v.owed ++ extra } segs nextSeqNo pending where
  disk := common.disk.finish write _ holds
  whole := common.whole
  starts := common.starts
  next := common.next
  below := common.below
  settled := common.settled
  owed := by
    intro e he
    rcases List.mem_append.mp he with old | new
    · exact common.owed e old
    · exact sub e new
  counted :=
    { highestAppended := highestAppended ▸ common.counted.highestAppended
      tight := highestAppended ▸ common.counted.tight
      highestDurable := highestDurable
      marked := by
        intro m' i' read
        rw [read_finishMarker common.disk write] at read
        cases read
        exact highest
      tracks := by
        intro w' same
        rw [marker] at same
        cases same
        obtain ⟨before, tracked⟩ := Option.isSome_iff_exists.mp known
        have expected := common.counted.tracks before tracked
        have read := read_finishMarker common.disk write before
        have state := (common.disk.slot i m write).2
        simp only [tracked, Option.getD_some]
        simp only [expectedWriter, finishMarker, write, createMarkerWriter] at expected read ⊢
        rw [read]
        simp only [expected]
        rw [state]
        rfl }

/-- What a flush leaves behind: the job goes on at the next stage, or it is done
and the `extra` it was for is durable. -/
def FlushResult (codec : EntryCodec) (v : LogView) (segs : List Segment) (nextSeqNo : Nat)
    (pending : List ReplicationLogEntry) (own : Prop) (extra : List ReplicationLogEntry) :
    Option FlushStage → Prop
  | some stage => Common codec v segs nextSeqNo pending ∧
      FlushInv codec v segs pending own extra stage
  | none => Common codec { v with owed := v.owed ++ extra } segs nextSeqNo pending ∧
      Ready codec { v with owed := v.owed ++ extra } segs pending ∧ v.disk.markerWrite = none ∧
      (own → ∀ p ∈ segs, Sealed codec p)

/-- A step changes the files of the log in place and nothing else on the way. -/
structure InPlace (v : LogView) (segs segs' : List Segment) (disk : Disk) (w : WalWriter) : Prop where
  starts : startsOf segs' = startsOf segs
  next : disk.next = v.disk.next
  prepared : w.nextSegmentPrepared = v.writer.nextSegmentPrepared
  highestAppended : w.highestAppendedSeqNo = v.writer.highestAppendedSeqNo

theorem Closed.owe (h : Closed codec v segs) (owed : List ReplicationLogEntry) :
    Closed codec { v with owed := owed } segs :=
  ⟨h.handle, h.isSealed, h.marked, h.unmarked⟩

theorem Common.owe_closed (common : Common codec v segs nextSeqNo pending)
    (closed : Closed codec v segs) (quiet : v.disk.markerWrite = none)
    (sub : ∀ e ∈ extra, e ∈ v.settled) :
    Common codec { v with owed := v.owed ++ extra } segs nextSeqNo pending := by
  have owed : ∀ e ∈ v.owed ++ extra, e ∈ v.settled := by
    intro e he
    rcases List.mem_append.mp he with old | new
    · exact common.owed e old
    · exact sub e new
  refine { common with disk := ?_, owed := owed, counted := ?_ }
  · refine ⟨common.disk.layout, fun m i read => (closed.marked m i read).2.mono owed, ?_,
      common.disk.slot, ?_⟩
    · intro i m write
      rw [show v.disk.markerWrite = some (i, m) from write] at quiet
      cases quiet
    · intro missing
      have none := closed.unmarked missing
      refine ⟨List.eq_nil_iff_forall_not_mem.mpr fun e he => ?_, (common.disk.unmarked missing).2⟩
      have member := owed e he
      rw [none] at member
      cases member
  · exact ⟨common.counted.highestAppended, common.counted.tight, common.counted.highestDurable,
      common.counted.marked, common.counted.tracks⟩

theorem Common.sync (common : Common codec v segs nextSeqNo pending) (key byteLength : Nat) :
    Common codec { v with disk := { v.disk with
      segments := updateSegment v.disk.segments key (·.sync byteLength) } }
      (segs.map (syncAt key byteLength)) nextSeqNo pending where
  disk := common.disk.sync key byteLength
  whole := by
    intro q hq
    obtain ⟨r, hr, rfl⟩ := List.mem_map.mp hq
    simpa [Whole] using common.whole r hr
  starts := by
    intro q hq
    obtain ⟨r, hr, rfl⟩ := List.mem_map.mp hq
    simpa using common.starts r hr
  next := common.next
  below := common.below
  settled := common.settled
  owed := common.owed
  counted := ⟨common.counted.highestAppended, common.counted.tight, common.counted.highestDurable,
    common.counted.marked, common.counted.tracks⟩

@[simp] theorem finishMarker_next (disk : Disk) (w : MarkerWriter) :
    (finishMarker disk w).1.next = disk.next := by
  unfold finishMarker
  split <;> rfl

theorem marking_done (common : Common codec v segs nextSeqNo pending) {f : Frontier}
    (opened : Opened codec v.writer segs pending p)
    (knows : (FlushStage.marking f).Knows codec v segs own extra p) (sub : ∀ e ∈ extra, e ∈ v.settled)
    {w : WalWriter} (stays : Opened codec w segs pending p)
    (highestAppended : w.highestAppendedSeqNo = v.writer.highestAppendedSeqNo)
    (highestDurable : w.highestDurableSeqNo ≤ highestSeqNo v.settled)
    (marker : w.markerWriter
      = some (finishMarker v.disk (v.writer.markerWriter.getD ⟨none, 0⟩)).2) :
    FlushResult codec { v with
      disk := (finishMarker v.disk (v.writer.markerWriter.getD ⟨none, 0⟩)).1, writer := w }
      segs nextSeqNo pending own extra none := by
  obtain ⟨⟨⟨i, m, write, rfl⟩, known⟩, captured, synced, whole⟩ := knows
  have finished := common.finish write known (captured.holds synced) sub captured.highest
    highestAppended highestDurable marker
  have quiet : (finishMarker v.disk (v.writer.markerWriter.getD ⟨none, 0⟩)).1.markerWrite = none := by
    simp [finishMarker, write]
  refine ⟨finished, Or.inr ⟨p, stays, ?_, ?_⟩, quiet, ?_⟩
  · intro m' i' read
    rw [read_finishMarker common.disk write] at read
    cases read
    exact captured.active
  · intro i' m' pendingWrite
    rw [quiet] at pendingWrite
    cases pendingWrite
  · intro isOwn q hq
    rcases Nat.lt_or_eq_of_le (opened.last q hq) with less | same
    · exact opened.isSealed q hq less
    · rw [common.disk.layout.start_inj hq opened.member same]
      exact whole isOwn

theorem flushStep_inv (common : Common codec v segs nextSeqNo pending) {stage : FlushStage}
    (flush : FlushInv codec v segs pending own extra stage) (sub : ∀ e ∈ extra, e ∈ v.settled)
    (mine : own → pending = []) {disk : Disk} {w : WalWriter} {stage' : Option FlushStage}
    (step : flushStep v.disk v.writer stage = (disk, w, stage')) :
    ∃ segs', InPlace v segs segs' disk w ∧
      FlushResult codec { v with disk := disk, writer := w } segs' nextSeqNo pending own extra stage' := by
  rcases flush with ⟨rfl, quiet, closed, nonePending⟩ | ⟨p, opened, named, knows⟩
  · -- Nothing is open: the flush returns at once.
    simp only [flushStep, closed.handle] at step
    cases step
    exact ⟨segs, ⟨rfl, rfl, rfl, rfl⟩, common.owe_closed closed quiet sub,
      Or.inl ⟨closed.owe _, nonePending⟩, quiet, fun _ => closed.isSealed⟩
  have written := common.disk.layout.written
  cases stage with
  | start =>
    simp only [flushStep, opened.handle] at step
    cases step
    have quiet : v.disk.markerWrite = none := knows
    obtain ⟨counted, known⟩ := common.counted.getMarkerWriter quiet
    refine ⟨segs, ⟨rfl, rfl, by simp, by simp⟩, { common with counted := counted }, Or.inr ⟨p, ?_, named, quiet, known⟩⟩
    exact opened.of_writer (by simp) (by simp) (by simp)
  | capture =>
    simp only [flushStep] at step
    cases step
    have captured := captured_frontier common opened sub
    refine ⟨segs, ⟨rfl, rfl, rfl, rfl⟩, common, Or.inr ⟨p, opened, named, knows, captured, ?_⟩⟩
    intro isOwn
    obtain ⟨noted, entries, bytes⟩ := opened.bytes
    rw [entries, mine isOwn, List.append_nil]
    exact bytes
  | sync f =>
    simp only [flushStep] at step
    cases step
    obtain ⟨quiet, captured, whole⟩ := knows
    have synced := common.disk.layout.synced_le p opened.member
    have length := congrArg List.length (common.whole p opened.member)
    refine ⟨segs.map (syncAt f.activeSegmentSeqNo f.durableByteLength),
      ⟨startsOf_map (fun q => syncAt_start _ _ q) segs, rfl, rfl, rfl⟩, common.sync _ _,
      Or.inr ⟨_, opened.syncAt written _ _, ?_, quiet, captured.syncAt written _ _ _, ?_, ?_⟩⟩
    · rw [syncAt_start]
      exact named
    · obtain ⟨j, covers, _⟩ := captured.covers
      -- The frontier was captured inside the file, so the sync reaches it.
      have inside : f.durableByteLength ≤ p.1.bytes.length := by
        rw [covers.length, length, segmentBytes_length, segmentBytes_length]
        have shorter : frames codec (p.2.take j) <+: frames codec p.2 :=
          prefix_frames (List.take_prefix j p.2)
        have := shorter.length_le
        omega
      simp only [syncAt, covers.start, if_pos, SegmentFile.sync]
      omega
    · intro isOwn
      rw [captured.active]
      exact (common.whole p opened.member).sealed_syncAt synced (whole isOwn)
  | mark f =>
    obtain ⟨⟨quiet, known⟩, captured, synced, whole⟩ := knows
    simp only [flushStep, common.counted.writer_eq quiet known] at step
    cases step
    have holds : MarkerHolds codec v.truncated v.owed segs f :=
      (captured.holds synced).mono fun e he => List.mem_append_left _ he
    refine ⟨segs, ⟨rfl, rfl, rfl, rfl⟩, common.issue holds rfl rfl rfl,
      Or.inr ⟨p, opened.of_writer rfl rfl rfl, ?_, ⟨⟨_, _, rfl, rfl⟩, rfl⟩, ?_, synced, whole⟩⟩
    · intro notOwn
      refine ⟨(named notOwn).1, ?_⟩
      intro i m write
      simp only [issueMarker, Option.some.injEq, Prod.mk.injEq] at write
      rw [← write.2]
      exact captured.active
    · exact ⟨captured.active, captured.covers, captured.highest⟩
  | marking f =>
    simp only [flushStep] at step
    cases step
    have highest := Nat.max_le.mpr ⟨common.counted.highestDurable, knows.2.1.highest⟩
    exact ⟨segs, ⟨rfl, finishMarker_next _ _, rfl, rfl⟩,
      marking_done common opened knows sub (opened.of_writer rfl rfl rfl) rfl highest rfl⟩

end Narsil.Durability
