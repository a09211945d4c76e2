import Narsil.Durability.WalDurability

/-!
# Removing the oldest segment

What a log under writing needs so that its oldest segment may go: every marker,
written or in flight, names a later one. Then all the writer and the lock
holder rely on stays true of the segments that are left.
-/
namespace Narsil.Durability

variable {codec : EntryCodec} {v : LogView} {s : LogState} {segs : List Segment}
  {nextSeqNo : Nat} {pending extra : List ReplicationLogEntry} {p q : Segment} {start : Nat}
  {truncated appended owed : List ReplicationLogEntry} {disk : Disk}

def dropSegment (start : Nat) (segs : List Segment) : List Segment :=
  segs.filter fun q => q.1.startSeqNo ≠ start

theorem mem_dropSegment : q ∈ dropSegment start segs ↔ q ∈ segs ∧ q.1.startSeqNo ≠ start := by
  simp [dropSegment]

theorem mem_of_dropSegment (h : q ∈ dropSegment start segs) : q ∈ segs := (mem_dropSegment.mp h).1

/-- Segment `p` is the oldest, and every marker names a later one. -/
structure Droppable (codec : EntryCodec) (disk : Disk) (segs : List Segment) (p : Segment) : Prop where
  member : p ∈ segs
  oldest : ∀ q ∈ segs, p.1.startSeqNo ≤ q.1.startSeqNo
  behind : ∀ f, Promised disk f → p.1.startSeqNo < f.activeSegmentSeqNo
  marked : ∃ m i, readCommitMarker disk.marker = some (m, i)

theorem Layout.cons_of_oldest {files : List SegmentFile}
    (layout : Layout codec truncated appended files segs) (member : p ∈ segs)
    (oldest : ∀ q ∈ segs, p.1.startSeqNo ≤ q.1.startSeqNo) :
    segs = p :: dropSegment p.1.startSeqNo segs := by
  obtain ⟨pre, post, split, before, after⟩ := layout.split_at member
  have noneBefore : pre = [] := List.eq_nil_iff_forall_not_mem.mpr fun q hq => by
    have := before q hq
    have := oldest q (by simp [split, hq])
    omega
  subst noneBefore
  rw [List.nil_append] at split
  subst split
  have same : dropSegment p.1.startSeqNo (p :: post) = post := by
    rw [dropSegment, List.filter_cons_of_neg (by simp)]
    exact List.filter_eq_self.mpr fun q hq => by
      have := after q hq
      simp
      omega
  rw [same]

theorem coveredBy_drop (layout : Layout codec truncated appended disk.segments segs)
    (drop : Droppable codec disk segs p) {f : Frontier} (behind : p.1.startSeqNo < f.activeSegmentSeqNo)
    (j : Nat) :
    coveredBy (truncated ++ p.2) (dropSegment p.1.startSeqNo segs) f q j
      = coveredBy truncated segs f q j := by
  have split := layout.cons_of_oldest drop.member drop.oldest
  unfold coveredBy
  conv_rhs => rw [split, List.filter_cons_of_pos (by simpa using behind)]
  simp

theorem MarkerCovers.drop (layout : Layout codec truncated appended disk.segments segs)
    (drop : Droppable codec disk segs p) {f : Frontier} {j : Nat}
    (h : MarkerCovers codec truncated segs f q j) (behind : p.1.startSeqNo < f.activeSegmentSeqNo) :
    MarkerCovers codec (truncated ++ p.2) (dropSegment p.1.startSeqNo segs) f q j where
  member := mem_dropSegment.mpr ⟨h.member, by have := h.start; omega⟩
  start := h.start
  count := h.count
  length := h.length
  earlier := fun r hr => h.earlier r (mem_of_dropSegment hr)
  later := fun r hr => h.later r (mem_of_dropSegment hr)
  highest := by
    rw [coveredBy_drop layout drop behind]
    exact h.highest

theorem MarkerHolds.drop (layout : Layout codec truncated appended disk.segments segs)
    (drop : Droppable codec disk segs p) {f : Frontier}
    (h : MarkerHolds codec truncated owed segs f) (behind : p.1.startSeqNo < f.activeSegmentSeqNo) :
    MarkerHolds codec (truncated ++ p.2) owed (dropSegment p.1.startSeqNo segs) f := by
  obtain ⟨q, j, covers, synced, holds⟩ := h
  refine ⟨q, j, covers.drop layout drop behind, synced, ?_⟩
  rw [coveredBy_drop layout drop behind]
  exact holds

theorem DiskInv.drop (h : DiskInv codec truncated appended owed disk segs)
    (drop : Droppable codec disk segs p) :
    DiskInv codec (truncated ++ p.2) appended owed
      { disk with segments := removeSegment disk.segments p.1.startSeqNo }
      (dropSegment p.1.startSeqNo segs) where
  layout :=
    { files_eq := by
        rw [h.layout.files_eq, removeSegment, List.filter_map]
        rfl
      written := fun q hq => h.layout.written q (mem_of_dropSegment hq)
      synced_le := fun q hq => h.layout.synced_le q (mem_of_dropSegment hq)
      ordered := h.layout.ordered.filter _
      entries := by
        have split := h.layout.cons_of_oldest drop.member drop.oldest
        rw [← h.layout.entries]
        conv_rhs => rw [split]
        simp
      ascending := h.layout.ascending
      positive := h.layout.positive
      recordable := h.layout.recordable }
  current := fun m i read =>
    (h.current m i read).drop h.layout drop (drop.behind _ (Or.inl ⟨m, i, read, rfl⟩))
  inFlight := fun i m write =>
    (h.inFlight i m write).drop h.layout drop (drop.behind _ (Or.inr ⟨i, m, write, rfl⟩))
  slot := h.slot
  unmarked := by
    obtain ⟨m, i, read⟩ := drop.marked
    intro missing
    rw [read] at missing
    cases missing

/-- The view once segment `p` is gone. -/
def LogView.drop (v : LogView) (p : Segment) : LogView :=
  { v with
    disk := { v.disk with segments := removeSegment v.disk.segments p.1.startSeqNo }
    truncated := v.truncated ++ p.2 }

theorem startsOf_dropSegment (hs : start ∈ startsOf (dropSegment p.1.startSeqNo segs)) :
    start ∈ startsOf segs := by
  obtain ⟨q, hq, rfl⟩ := List.mem_map.mp hs
  exact mem_startsOf (mem_of_dropSegment hq)

theorem Common.drop (common : Common codec v segs nextSeqNo pending)
    (drop : Droppable codec v.disk segs p) :
    Common codec (v.drop p) (dropSegment p.1.startSeqNo segs) nextSeqNo pending where
  disk := common.disk.drop drop
  whole := fun q hq => common.whole q (mem_of_dropSegment hq)
  starts := fun q hq => common.starts q (mem_of_dropSegment hq)
  next := common.next
  below := common.below
  settled := common.settled
  owed := common.owed
  counted := ⟨common.counted.highestAppended, common.counted.tight, common.counted.highestDurable,
    common.counted.marked, common.counted.tracks⟩

theorem Closed.drop (h : Closed codec v segs)
    (layout : Layout codec v.truncated v.appended v.disk.segments segs)
    (drop : Droppable codec v.disk segs p) :
    Closed codec (v.drop p) (dropSegment p.1.startSeqNo segs) where
  handle := h.handle
  isSealed := fun q hq => h.isSealed q (mem_of_dropSegment hq)
  marked := fun m i read =>
    ⟨fun q hq => (h.marked m i read).1 q (mem_of_dropSegment hq),
      (h.marked m i read).2.drop layout drop (drop.behind _ (Or.inl ⟨m, i, read, rfl⟩))⟩
  unmarked := h.unmarked

theorem Opened.drop {w : WalWriter} (h : Opened codec w segs pending q)
    (other : q.1.startSeqNo ≠ start) : Opened codec w (dropSegment start segs) pending q where
  handle := h.handle
  active := h.active
  member := mem_dropSegment.mpr ⟨h.member, other⟩
  last := fun r hr => h.last r (mem_of_dropSegment hr)
  isSealed := fun r hr => h.isSealed r (mem_of_dropSegment hr)
  bytes := h.bytes

theorem Captured.drop {f : Frontier} (h : Captured codec v segs extra q f)
    (layout : Layout codec v.truncated v.appended v.disk.segments segs)
    (drop : Droppable codec v.disk segs p) (behind : p.1.startSeqNo < q.1.startSeqNo) :
    Captured codec (v.drop p) (dropSegment p.1.startSeqNo segs) extra q f := by
  obtain ⟨j, covers, holds⟩ := h.covers
  have behind' : p.1.startSeqNo < f.activeSegmentSeqNo := h.active ▸ behind
  refine ⟨h.active, ⟨j, covers.drop layout drop behind', ?_⟩, h.highest⟩
  intro e he
  have same : coveredBy (v.drop p).truncated (dropSegment p.1.startSeqNo segs) f q j
      = coveredBy v.truncated segs f q j := coveredBy_drop layout drop behind' j
  rw [same]
  exact holds e he

theorem FlushInv.drop {own : Prop} {stage : FlushStage}
    (h : FlushInv codec v segs pending own extra stage)
    (layout : Layout codec v.truncated v.appended v.disk.segments segs)
    (drop : Droppable codec v.disk segs p) (notLast : ∃ q ∈ segs, p.1.startSeqNo < q.1.startSeqNo) :
    FlushInv codec (v.drop p) (dropSegment p.1.startSeqNo segs) pending own extra stage := by
  rcases h with ⟨start, quiet, closed, none⟩ | ⟨q, opened, named, knows⟩
  · exact Or.inl ⟨start, quiet, closed.drop layout drop, none⟩
  · obtain ⟨r, hr, less⟩ := notLast
    have behind : p.1.startSeqNo < q.1.startSeqNo := Nat.lt_of_lt_of_le less (opened.last r hr)
    refine Or.inr ⟨q, opened.drop (by omega), named, ?_⟩
    cases stage with
    | start => exact knows
    | capture => exact knows
    | sync f => exact ⟨knows.1, knows.2.1.drop layout drop behind, knows.2.2⟩
    | mark f => exact ⟨knows.1, knows.2.1.drop layout drop behind, knows.2.2⟩
    | marking f => exact ⟨knows.1, knows.2.1.drop layout drop behind, knows.2.2⟩

theorem Ready.drop (h : Ready codec v segs pending)
    (layout : Layout codec v.truncated v.appended v.disk.segments segs)
    (drop : Droppable codec v.disk segs p) (notLast : ∃ q ∈ segs, p.1.startSeqNo < q.1.startSeqNo) :
    Ready codec (v.drop p) (dropSegment p.1.startSeqNo segs) pending := by
  rcases h with ⟨closed, none⟩ | ⟨q, opened, named⟩
  · exact Or.inl ⟨closed.drop layout drop, none⟩
  · obtain ⟨r, hr, less⟩ := notLast
    have := opened.last r hr
    exact Or.inr ⟨q, opened.drop (by omega), named⟩

theorem SwapReady.drop (h : SwapReady codec v segs q) {all : List Segment}
    (drop : Droppable codec v.disk all p) :
    SwapReady codec (v.drop p) (dropSegment p.1.startSeqNo segs) q where
  quiet := h.quiet
  numbers := h.numbers
  opened := by
    -- The marker names the open segment, so it is not the one that goes.
    obtain ⟨m, i, read⟩ := drop.marked
    have := h.named.1 m i read
    have behind := drop.behind _ (Or.inl ⟨m, i, read, rfl⟩)
    rw [frontier_activeSegmentSeqNo] at behind
    exact h.opened.drop (by omega)
  start := h.start
  named := h.named
  unprepared := h.unprepared

theorem SwapInv.drop {synced moved : Bool} {old : List Segment}
    (h : SwapInv codec v segs synced moved old q) (drop : Droppable codec v.disk segs p) :
    SwapInv codec (v.drop p) (dropSegment p.1.startSeqNo segs) synced moved
      (dropSegment p.1.startSeqNo old) q where
  ready := h.ready.drop drop
  writer := h.writer
  isSealed := h.isSealed
  waiting := fun unmoved => ⟨by rw [(h.waiting unmoved).1], (h.waiting unmoved).2⟩
  arrived := by
    intro isMoved
    have arrived := h.arrived isMoved
    obtain ⟨m, i, read⟩ := drop.marked
    have named := h.ready.named.1 m i read
    have behind := drop.behind _ (Or.inl ⟨m, i, read, rfl⟩)
    have start := h.ready.start
    rw [frontier_activeSegmentSeqNo] at behind
    conv_lhs => rw [arrived]
    have other : v.writer.highestAppendedSeqNo + 1 ≠ p.1.startSeqNo := by omega
    simp [dropSegment, LogView.drop, other]

theorem JobInv.drop {after : CallerTask} {job : LockJob}
    (h : JobInv codec v segs nextSeqNo after job)
    (layout : Layout codec v.truncated v.appended v.disk.segments segs)
    (drop : Droppable codec v.disk segs p) (notLast : ∃ q ∈ segs, p.1.startSeqNo < q.1.startSeqNo) :
    JobInv codec (v.drop p) (dropSegment p.1.startSeqNo segs) nextSeqNo after job := by
  cases job with
  | flush stage thenOpens =>
    exact ⟨h.1.drop layout drop notLast,
      fun start same => (h.2 start same).mono fun other => startsOf_dropSegment⟩
  | openSegment start =>
    exact ⟨h.1, fun q hq => h.2.1 q (mem_of_dropSegment hq),
      h.2.2.1.mono fun other => startsOf_dropSegment,
      fun key handle q hq => h.2.2.2 key handle q (mem_of_dropSegment hq)⟩
  | checkpointRoll => exact ⟨h.1, h.2.1, h.2.2.drop layout drop notLast⟩
  | swapWriter =>
    obtain ⟨idle, next, q, swap⟩ := h
    exact ⟨idle, next, q, swap.drop drop⟩
  | swapSeal synced moved =>
    obtain ⟨idle, old, q, swap⟩ := h
    exact ⟨idle, _, q, swap.drop drop⟩
  | swapMarking f => exact FlushInv.drop h layout drop notLast

theorem RunningInv.drop (h : RunningInv codec s segs) (drop : Droppable codec s.disk segs p)
    (notLast : ∃ q ∈ segs, p.1.startSeqNo < q.1.startSeqNo) :
    RunningInv codec { s with
      disk := { s.disk with segments := removeSegment s.disk.segments p.1.startSeqNo }
      truncated := s.truncated ++ p.2 } (dropSegment p.1.startSeqNo segs) where
  common := h.common.drop drop
  prepared := h.prepared
  preparing := h.preparing
  owes := h.owes
  ascending := h.ascending
  ahead := fun e he =>
    have old := h.ahead e he
    ⟨old.entries, fun start hs => old.segments start (startsOf_dropSegment hs), old.positive, old.next,
      old.recordable⟩
  lock := by
    have layout := h.common.disk.layout
    match locked : s.lock, h.lock with
    | none, lock => exact ⟨lock.1, lock.2.drop layout drop notLast⟩
    | some (.coordinator, job), lock =>
      obtain ⟨stage, batch, rfl, inFlight, flush⟩ := lock
      exact ⟨stage, batch, rfl, inFlight, flush.drop layout drop notLast⟩
    | some (.caller, job), lock =>
      obtain ⟨after, holding, resumable, inv⟩ := lock
      exact ⟨after, holding, resumable, inv.drop layout drop notLast⟩
  caller := by
    have caller := h.caller
    match task : s.caller with
    | .queued (.flush .start thenOpens) after =>
      rw [task] at caller
      exact ⟨caller.1, fun start same => (caller.2 start same).mono fun other => startsOf_dropSegment⟩
    | .queued (.flush .capture _) _ => rw [task] at caller; exact caller
    | .queued (.flush (.sync _) _) _ => rw [task] at caller; exact caller
    | .queued (.flush (.mark _) _) _ => rw [task] at caller; exact caller
    | .queued (.flush (.marking _) _) _ => rw [task] at caller; exact caller
    | .queued (.openSegment _) _ => rw [task] at caller; exact caller
    | .queued .checkpointRoll _ => rw [task] at caller; exact caller
    | .queued .swapWriter _ => rw [task] at caller; exact caller
    | .queued (.swapSeal _ _) _ => rw [task] at caller; exact caller
    | .queued (.swapMarking _) _ => rw [task] at caller; exact caller
    | .holding after => rw [task] at caller; exact caller
    | .idle => trivial
    | .ensureSegment _ => trivial
    | .maybeRoll _ => trivial
    | .appendGroup _ => trivial
    | .settleGroup _ _ => trivial

end Narsil.Durability
