import Mathlib.Data.List.Infix
import Narsil.Durability.LogLayout

/-!
# The disk invariant

What the marker, old or half written, promises about the segments, and how each
change the writer or recovery makes to the disk keeps the promise.
-/
namespace Narsil.Durability

structure DiskInv (codec : EntryCodec) (truncated appended owed : List ReplicationLogEntry)
    (disk : Disk) (segs : List Segment) : Prop where
  layout : Layout codec truncated appended disk.segments segs
  current : ∀ m i, readCommitMarker disk.marker = some (m, i) →
    MarkerHolds codec truncated owed segs m.frontier
  inFlight : ∀ i m, disk.markerWrite = some (i, m) → MarkerHolds codec truncated owed segs m.frontier
  slot : ∀ i m, disk.markerWrite = some (i, m) →
    i = nextMarkerSlot (createMarkerWriter disk.marker).lastSlot ∧
    m = m.frontier.withWriteSeq ((createMarkerWriter disk.marker).writeSeq + 1)
  unmarked : readCommitMarker disk.marker = none → owed = [] ∧ truncated = []

variable {codec : EntryCodec} {truncated appended owed : List ReplicationLogEntry} {disk : Disk}
  {segs : List Segment}

private theorem read_afterCrash (h : DiskInv codec truncated appended owed disk segs)
    (outcome : SlotOutcome) :
    readCommitMarker (disk.marker.afterCrash disk.markerWrite outcome)
        = readCommitMarker disk.marker ∨
    ∃ i m, disk.markerWrite = some (i, m) ∧
      readCommitMarker (disk.marker.afterCrash disk.markerWrite outcome) = some (m, i) := by
  cases write : disk.markerWrite with
  | none => left; cases outcome <;> rfl
  | some issued =>
    obtain ⟨i, m⟩ := issued
    obtain ⟨slot, state⟩ := h.slot i m write
    cases outcome with
    | untouched => exact Or.inl rfl
    | torn =>
      left
      simp only [MarkerFile.afterCrash]
      rw [slot]
      exact read_after_torn disk.marker _ rfl
    | written =>
      refine Or.inr ⟨i, m, rfl, ?_⟩
      simp only [MarkerFile.afterCrash]
      rw [slot, state]
      exact read_after_write disk.marker _ rfl _

def cutSegment (kept : List (Nat × Nat)) (q : Segment) : Segment :=
  (q.1.cut ((kept.lookup q.1.startSeqNo).getD q.1.bytes.length), q.2)

private theorem cutSegments_map (segs : List Segment) (kept : List (Nat × Nat)) :
    cutSegments (segs.map Prod.fst) kept = segs.map fun q => (cutSegment kept q).1 := by
  simp [cutSegments, cutSegment]

theorem DiskInv.crash (h : DiskInv codec truncated appended owed disk segs)
    (kept : List (Nat × Nat)) (outcome : SlotOutcome) :
    DiskInv codec truncated appended owed (crashDisk disk kept outcome)
      (segs.map (cutSegment kept)) := by
  have holds : ∀ f, MarkerHolds codec truncated owed segs f →
      MarkerHolds codec truncated owed (segs.map (cutSegment kept)) f := fun f marker =>
    marker.map (fun _ _ => rfl) (fun _ _ => rfl) (fun _ _ _ whole => whole) (fun _ _ _ durable => durable)
  have read := read_afterCrash h outcome
  refine ⟨?_, ?_, ?_, ?_, ?_⟩
  · have start : ∀ q ∈ segs, (cutSegment kept q).1.startSeqNo = q.1.startSeqNo := fun _ _ => rfl
    have cut := h.layout.map start (fun _ _ => rfl)
      (fun q hq => (List.take_prefix _ _).trans (h.layout.written q hq))
      (fun q hq => by
        have := h.layout.synced_le q hq
        simp only [cutSegment, SegmentFile.cut, List.length_take]
        omega)
    simpa only [crashDisk, h.layout.files_eq, cutSegments_map] using cut
  · intro m i hm
    rcases read with same | ⟨slot, state, write, written⟩
    · exact holds _ (h.current m i (same ▸ hm))
    · simp only [crashDisk, written, Option.some.injEq, Prod.mk.injEq] at hm
      exact hm.1 ▸ holds _ (h.inFlight slot state write)
  · intro i m write
    cases write
  · intro i m write
    cases write
  · intro missing
    rcases read with same | ⟨slot, state, _, written⟩
    · exact h.unmarked (same ▸ missing)
    · simp only [crashDisk, written] at missing
      cases missing

theorem DiskInv.issue (h : DiskInv codec truncated appended owed disk segs) {f : Frontier}
    (holds : MarkerHolds codec truncated owed segs f) :
    DiskInv codec truncated appended owed
      (issueMarker disk (createMarkerWriter disk.marker) f).1 segs where
  layout := h.layout
  current := h.current
  inFlight := by
    intro i m write
    simp only [issueMarker, Option.some.injEq, Prod.mk.injEq] at write
    rw [← write.2]
    exact holds
  slot := by
    intro i m write
    simp only [issueMarker, Option.some.injEq, Prod.mk.injEq] at write
    exact ⟨write.1.symm, by rw [← write.2]; rfl⟩
  unmarked := h.unmarked

theorem read_finishMarker (h : DiskInv codec truncated appended owed disk segs) {i : Nat}
    {m : CommitMarkerState} (write : disk.markerWrite = some (i, m)) (w : MarkerWriter) :
    readCommitMarker (finishMarker disk w).1.marker = some (m, i) := by
  obtain ⟨slot, state⟩ := h.slot i m write
  simp only [finishMarker, write]
  rw [slot, state]
  exact read_after_write disk.marker _ rfl _

theorem DiskInv.finish (h : DiskInv codec truncated appended owed disk segs) {i : Nat}
    {m : CommitMarkerState} (write : disk.markerWrite = some (i, m)) (w : MarkerWriter)
    {more : List ReplicationLogEntry} (holds : MarkerHolds codec truncated more segs m.frontier) :
    DiskInv codec truncated appended more (finishMarker disk w).1 segs where
  layout := by simpa only [finishMarker, write] using h.layout
  current := by
    intro m' i' current
    rw [read_finishMarker h write w] at current
    simp only [Option.some.injEq, Prod.mk.injEq] at current
    exact current.1 ▸ holds
  inFlight := by simp [finishMarker, write]
  slot := by simp [finishMarker, write]
  unmarked := by
    intro missing
    rw [read_finishMarker h write w] at missing
    cases missing

theorem DiskInv.mono (h : DiskInv codec truncated appended owed disk segs)
    {less : List ReplicationLogEntry} (sub : ∀ e ∈ less, e ∈ owed) :
    DiskInv codec truncated appended less disk segs where
  layout := h.layout
  current := fun m i current => (h.current m i current).mono sub
  inFlight := fun i m write => (h.inFlight i m write).mono sub
  slot := h.slot
  unmarked := fun missing =>
    ⟨List.eq_nil_iff_forall_not_mem.mpr fun e he => by
      have := sub e he
      rw [(h.unmarked missing).1] at this
      simp at this, (h.unmarked missing).2⟩

theorem DiskInv.withNext (h : DiskInv codec truncated appended owed disk segs)
    (next : Option PreparedFile) :
    DiskInv codec truncated appended owed { disk with next := next } segs :=
  ⟨h.layout, h.current, h.inFlight, h.slot, h.unmarked⟩

/-- The frontier is what the marker says, or will say once its write returns. -/
def Promised (disk : Disk) (f : Frontier) : Prop :=
  (∃ m i, readCommitMarker disk.marker = some (m, i) ∧ m.frontier = f) ∨
  ∃ i m, disk.markerWrite = some (i, m) ∧ m.frontier = f

theorem updateSegment_files (segs : List Segment) (start : Nat) (change : SegmentFile → SegmentFile) :
    updateSegment (segs.map Prod.fst) start change
      = segs.map fun q => if q.1.startSeqNo = start then change q.1 else q.1 := by
  simp [updateSegment]

theorem DiskInv.update (h : DiskInv codec truncated appended owed disk segs) (start : Nat)
    (change : SegmentFile → SegmentFile)
    (sameStart : ∀ f, (change f).startSeqNo = f.startSeqNo)
    (written : ∀ q ∈ segs, q.1.startSeqNo = start → (change q.1).bytes <+: segmentBytes codec q.2)
    (synced : ∀ q ∈ segs, q.1.startSeqNo = start → (change q.1).synced ≤ (change q.1).bytes.length)
    (keeps : ∀ f, Promised disk f → start < f.activeSegmentSeqNo →
      ∀ q ∈ segs, q.1.startSeqNo = start → Sealed codec q → Sealed codec (change q.1, q.2))
    (durable : ∀ f, Promised disk f → f.activeSegmentSeqNo = start →
      ∀ q ∈ segs, q.1.startSeqNo = start → f.durableByteLength ≤ q.1.synced →
        f.durableByteLength ≤ (change q.1).synced) :
    DiskInv codec truncated appended owed
      { disk with segments := updateSegment disk.segments start change }
      (segs.map fun q => (if q.1.startSeqNo = start then change q.1 else q.1, q.2)) := by
  let g : Segment → Segment := fun q => (if q.1.startSeqNo = start then change q.1 else q.1, q.2)
  have startOf : ∀ q ∈ segs, (g q).1.startSeqNo = q.1.startSeqNo := by
    intro q _
    by_cases here : q.1.startSeqNo = start <;> simp [g, here, sameStart]
  have holds : ∀ f, Promised disk f → MarkerHolds codec truncated owed segs f →
      MarkerHolds codec truncated owed (segs.map g) f := by
    intro f promised marker
    refine marker.map startOf (fun _ _ => rfl) ?_ ?_
    · intro q hq less isSealed
      by_cases here : q.1.startSeqNo = start
      · simpa [g, here] using keeps f promised (here ▸ less) q hq here isSealed
      · simpa [g, here] using isSealed
    · intro q hq same bound
      by_cases here : q.1.startSeqNo = start
      · simpa [g, here] using durable f promised (same ▸ here) q hq here bound
      · simpa [g, here] using bound
  refine ⟨?_, fun m i current => holds _ (.inl ⟨m, i, current, rfl⟩) (h.current m i current),
    fun i m write => holds _ (.inr ⟨i, m, write, rfl⟩) (h.inFlight i m write), h.slot, h.unmarked⟩
  have layout := h.layout.map startOf (fun _ _ => rfl)
    (fun q hq => by
      by_cases here : q.1.startSeqNo = start
      · simpa [g, here] using written q hq here
      · simpa [g, here] using h.layout.written q hq)
    (fun q hq => by
      by_cases here : q.1.startSeqNo = start
      · simpa [g, here] using synced q hq here
      · simpa [g, here] using h.layout.synced_le q hq)
  rw [h.layout.files_eq, updateSegment_files]
  exact layout

theorem Sealed.sync {q : Segment} (h : Sealed codec q) (written : q.1.bytes <+: segmentBytes codec q.2)
    (byteLength : Nat) : Sealed codec (q.1.sync byteLength, q.2) := by
  have := written.length_le
  simp only [Sealed, SegmentFile.sync] at h ⊢
  omega

theorem DiskInv.sync (h : DiskInv codec truncated appended owed disk segs) (start byteLength : Nat) :
    DiskInv codec truncated appended owed
      { disk with segments := updateSegment disk.segments start (·.sync byteLength) }
      (segs.map fun q => (if q.1.startSeqNo = start then q.1.sync byteLength else q.1, q.2)) := by
  refine h.update start _ (fun _ => rfl) (fun q hq _ => h.layout.written q hq) ?_
    (fun _ _ _ q hq _ isSealed => isSealed.sync (h.layout.written q hq) byteLength) ?_
  · intro q hq _
    have := h.layout.synced_le q hq
    simp only [SegmentFile.sync]
    omega
  · intro f _ _ q _ _ bound
    exact Nat.le_trans bound (Nat.le_max_left _ _)

theorem placeSegment_last {files : List SegmentFile} {f : SegmentFile}
    (newest : ∀ g ∈ files, g.startSeqNo < f.startSeqNo) : placeSegment files f = files ++ [f] := by
  have earlier : files.filter (fun g => g.startSeqNo < f.startSeqNo) = files :=
    List.filter_eq_self.mpr fun g hg => by simpa using newest g hg
  have later : files.filter (fun g => f.startSeqNo < g.startSeqNo) = [] :=
    List.filter_eq_nil_iff.mpr fun g hg => by have := newest g hg; simp; omega
  rw [placeSegment, earlier, later]

theorem MarkerHolds.snoc {f : Frontier} (h : MarkerHolds codec truncated owed segs f)
    {q : Segment} (newest : ∀ p ∈ segs, p.1.startSeqNo < q.1.startSeqNo) (bare : q.2 = []) :
    MarkerHolds codec truncated owed (segs ++ [q]) f := by
  obtain ⟨p, j, covers, synced, holds⟩ := h
  have behind := newest p covers.member
  have start := covers.start
  have same : coveredBy truncated (segs ++ [q]) f p j = coveredBy truncated segs f p j := by
    unfold coveredBy
    rw [List.filter_append, List.filter_singleton]
    simp [show ¬ q.1.startSeqNo < f.activeSegmentSeqNo by omega]
  refine ⟨p, j, ⟨List.mem_append_left _ covers.member, start, covers.count, covers.length, ?_, ?_,
    same ▸ covers.highest⟩, synced, same ▸ holds⟩
  · intro r hr less
    rcases List.mem_append.mp hr with old | new
    · exact covers.earlier r old less
    · simp only [List.mem_singleton] at new
      subst new
      omega
  · intro r hr greater
    rcases List.mem_append.mp hr with old | new
    · exact covers.later r old greater
    · simp only [List.mem_singleton] at new
      exact new ▸ bare

theorem DiskInv.snoc (h : DiskInv codec truncated appended owed disk segs) (file : SegmentFile)
    (header : file.bytes = writeSegmentHeader) (synced : file.synced ≤ segmentHeaderSize)
    (newest : ∀ p ∈ segs, p.1.startSeqNo < file.startSeqNo)
    (above : ∀ e ∈ appended, e.seqNo < file.startSeqNo) (next : Option PreparedFile) :
    DiskInv codec truncated appended owed
      { disk with segments := placeSegment disk.segments file, next := next } (segs ++ [(file, [])]) := by
  have files : ∀ g ∈ disk.segments, g.startSeqNo < file.startSeqNo := by
    intro g hg
    rw [h.layout.files_eq] at hg
    obtain ⟨p, hp, rfl⟩ := List.mem_map.mp hg
    exact newest p hp
  refine ⟨⟨?_, ?_, ?_, ?_, ?_, h.layout.ascending, h.layout.positive, h.layout.recordable⟩,
    fun m i current => (h.current m i current).snoc newest rfl,
    fun i m write => (h.inFlight i m write).snoc newest rfl, h.slot, h.unmarked⟩
  · rw [placeSegment_last files, h.layout.files_eq]
    simp
  · intro p hp
    rcases List.mem_append.mp hp with old | new
    · exact h.layout.written p old
    · simp only [List.mem_singleton] at new
      subst new
      simp [segmentBytes, header]
  · intro p hp
    rcases List.mem_append.mp hp with old | new
    · exact h.layout.synced_le p old
    · simp only [List.mem_singleton] at new
      subst new
      simpa [header] using synced
  · refine List.pairwise_append.mpr ⟨h.layout.ordered, by simp, ?_⟩
    intro p hp q hq
    simp only [List.mem_singleton] at hq
    subst hq
    exact ⟨newest p hp, fun e he => above e (h.layout.mem_appended hp he)⟩
  · simpa using h.layout.entries

theorem coveredBy_remove {f : Frontier} {p : Segment} {j orphan : Nat}
    (behind : f.activeSegmentSeqNo < orphan) :
    coveredBy truncated (segs.filter fun q => q.1.startSeqNo ≠ orphan) f p j
      = coveredBy truncated segs f p j := by
  unfold coveredBy
  rw [List.filter_filter]
  congr 3
  refine List.filter_congr fun q _ => ?_
  by_cases less : q.1.startSeqNo < f.activeSegmentSeqNo
  · have : q.1.startSeqNo ≠ orphan := by omega
    simp [less, this]
  · simp [less]

theorem MarkerCovers.remove {f : Frontier} {p : Segment} {j orphan : Nat}
    (covers : MarkerCovers codec truncated segs f p j) (behind : f.activeSegmentSeqNo < orphan) :
    MarkerCovers codec truncated (segs.filter fun q => q.1.startSeqNo ≠ orphan) f p j where
  member := List.mem_filter.mpr ⟨covers.member, by have := covers.start; simp; omega⟩
  start := covers.start
  count := covers.count
  length := covers.length
  earlier := fun q hq => covers.earlier q (List.mem_filter.mp hq).1
  later := fun q hq => covers.later q (List.mem_filter.mp hq).1
  highest := (coveredBy_remove behind).symm ▸ covers.highest

theorem MarkerHolds.remove {f : Frontier} (h : MarkerHolds codec truncated owed segs f) {orphan : Nat}
    (behind : f.activeSegmentSeqNo < orphan) :
    MarkerHolds codec truncated owed (segs.filter fun q => q.1.startSeqNo ≠ orphan) f := by
  obtain ⟨p, j, covers, synced, holds⟩ := h
  exact ⟨p, j, covers.remove behind, synced, (coveredBy_remove behind).symm ▸ holds⟩

private theorem flatMap_filter_bare {segs : List Segment} {orphan : Nat}
    (bare : ∀ q ∈ segs, q.1.startSeqNo = orphan → q.2 = []) :
    (segs.filter fun q => q.1.startSeqNo ≠ orphan).flatMap Prod.snd = segs.flatMap Prod.snd := by
  induction segs with
  | nil => rfl
  | cons q rest ih =>
    have rests := ih fun r hr => bare r (by simp [hr])
    by_cases here : q.1.startSeqNo = orphan
    · rw [List.filter_cons_of_neg (by simpa using here), rests]
      simp [bare q (by simp) here]
    · rw [List.filter_cons_of_pos (by simpa using here)]
      simp only [List.flatMap_cons, rests]

theorem DiskInv.remove (h : DiskInv codec truncated appended owed disk segs) {orphan : Nat}
    {m : CommitMarkerState} {i : Nat} (current : readCommitMarker disk.marker = some (m, i))
    (quiet : disk.markerWrite = none) (behind : m.activeSegmentSeqNo < orphan) :
    DiskInv codec truncated appended owed
      { disk with segments := removeSegment disk.segments orphan }
      (segs.filter fun q => q.1.startSeqNo ≠ orphan) := by
  obtain ⟨p, j, covers, _, _⟩ := h.current m i current
  refine ⟨⟨?_, ?_, ?_, ?_, ?_, h.layout.ascending, h.layout.positive, h.layout.recordable⟩,
    ?_, ?_, h.slot, h.unmarked⟩
  · rw [h.layout.files_eq, removeSegment, List.filter_map]
    rfl
  · exact fun q hq => h.layout.written q (List.mem_filter.mp hq).1
  · exact fun q hq => h.layout.synced_le q (List.mem_filter.mp hq).1
  · exact h.layout.ordered.filter _
  · rw [← h.layout.entries]
    congr 1
    -- The removed segment holds no entries, being behind the marker's.
    exact flatMap_filter_bare fun q hq same =>
      covers.later q hq (by simp only [frontier_activeSegmentSeqNo]; omega)
  · intro m' i' current'
    rw [show readCommitMarker disk.marker = some (m', i') from current'] at current
    simp only [Option.some.injEq, Prod.mk.injEq] at current
    exact (h.current m' i' current').remove (by simp [current.1, behind])
  · intro i' m' write
    rw [show disk.markerWrite = some (i', m') from write] at quiet
    cases quiet

theorem coveredBy_append {f : Frontier} {p : Segment} {j : Nat} {group : List ReplicationLogEntry}
    (covers : MarkerCovers codec truncated segs f p j) :
    coveredBy truncated
      (segs.map fun q => if q.1.startSeqNo = f.activeSegmentSeqNo
        then (q.1.append (frames codec group), q.2 ++ group) else q) f
      (p.1.append (frames codec group), p.2 ++ group) j = coveredBy truncated segs f p j := by
  unfold coveredBy
  rw [List.take_append_of_le_length covers.count, List.filter_map, List.flatMap_map]
  congr 2
  have filters : segs.filter ((fun q : Segment => decide (q.1.startSeqNo < f.activeSegmentSeqNo)) ∘
      fun q => if q.1.startSeqNo = f.activeSegmentSeqNo
        then (q.1.append (frames codec group), q.2 ++ group) else q)
      = segs.filter fun q => decide (q.1.startSeqNo < f.activeSegmentSeqNo) := by
    refine List.filter_congr fun q _ => ?_
    by_cases here : q.1.startSeqNo = f.activeSegmentSeqNo <;> simp [here, SegmentFile.append]
  rw [filters]
  refine List.flatMap_congr fun q hq => ?_
  have less := (List.mem_filter.mp hq).2
  rw [if_neg (by simp at less; omega)]

theorem MarkerCovers.append {f : Frontier} {p : Segment} {j : Nat}
    (covers : MarkerCovers codec truncated segs f p j) (group : List ReplicationLogEntry) :
    MarkerCovers codec truncated
      (segs.map fun q => if q.1.startSeqNo = f.activeSegmentSeqNo
        then (q.1.append (frames codec group), q.2 ++ group) else q) f
      (p.1.append (frames codec group), p.2 ++ group) j where
  member := List.mem_map.mpr ⟨p, covers.member, if_pos covers.start⟩
  start := covers.start
  count := by
    have := covers.count
    simp only [List.length_append]
    omega
  length := by
    rw [List.take_append_of_le_length covers.count]
    exact covers.length
  earlier := by
    intro q hq less
    obtain ⟨r, hr, rfl⟩ := List.mem_map.mp hq
    by_cases here : r.1.startSeqNo = f.activeSegmentSeqNo
    · simp [here, SegmentFile.append] at less
    · simp only [if_neg here] at less ⊢
      exact covers.earlier r hr less
  later := by
    intro q hq greater
    obtain ⟨r, hr, rfl⟩ := List.mem_map.mp hq
    by_cases here : r.1.startSeqNo = f.activeSegmentSeqNo
    · simp [here, SegmentFile.append] at greater
    · simp only [if_neg here] at greater ⊢
      exact covers.later r hr greater
  highest := by
    rw [coveredBy_append covers]
    exact covers.highest

theorem MarkerHolds.append {f : Frontier} (h : MarkerHolds codec truncated owed segs f)
    (group : List ReplicationLogEntry) :
    MarkerHolds codec truncated owed
      (segs.map fun q => if q.1.startSeqNo = f.activeSegmentSeqNo
        then (q.1.append (frames codec group), q.2 ++ group) else q) f := by
  obtain ⟨p, j, covers, synced, holds⟩ := h
  refine ⟨_, j, covers.append group, synced, ?_⟩
  rw [coveredBy_append covers]
  exact holds

theorem DiskInv.append (h : DiskInv codec truncated appended owed disk segs) {key : Nat}
    {p : Segment} (member : p ∈ segs) (start : p.1.startSeqNo = key) (whole : Whole codec p)
    (last : ∀ q ∈ segs, q.1.startSeqNo ≤ key)
    (group : List ReplicationLogEntry) (ascending : Ascending (appended ++ group))
    (positive : ∀ e ∈ group, 0 < e.seqNo) (recordable : ∀ e ∈ group, Recordable codec e)
    (current : ∀ m i, readCommitMarker disk.marker = some (m, i) → m.activeSegmentSeqNo = key)
    (inFlight : ∀ i m, disk.markerWrite = some (i, m) → m.activeSegmentSeqNo = key) :
    DiskInv codec truncated (appended ++ group) owed
      { disk with segments := updateSegment disk.segments key (·.append (frames codec group)) }
      (segs.map fun q => if q.1.startSeqNo = key
        then (q.1.append (frames codec group), q.2 ++ group) else q) := by
  have unique : ∀ q ∈ segs, q.1.startSeqNo = key → q = p := fun q hq here =>
    h.layout.start_inj hq member (here.trans start.symm)
  refine ⟨⟨?_, ?_, ?_, ?_, ?_, ascending, ?_, ?_⟩, ?_, ?_, h.slot, h.unmarked⟩
  · rw [h.layout.files_eq, updateSegment_files, List.map_map]
    refine List.map_congr_left fun q _ => ?_
    by_cases here : q.1.startSeqNo = key <;> simp [here]
  · intro q hq
    obtain ⟨r, hr, rfl⟩ := List.mem_map.mp hq
    by_cases here : r.1.startSeqNo = key
    · rw [if_pos here, unique r hr here]
      simp only [SegmentFile.append, segmentBytes, frames_append, ← List.append_assoc]
      rw [show p.1.bytes = segmentBytes codec p.2 from whole, segmentBytes]
    · rw [if_neg here]
      exact h.layout.written r hr
  · intro q hq
    obtain ⟨r, hr, rfl⟩ := List.mem_map.mp hq
    have synced := h.layout.synced_le r hr
    by_cases here : r.1.startSeqNo = key
    · simp only [if_pos here, SegmentFile.append, List.length_append]
      omega
    · simpa [here] using synced
  · rw [List.pairwise_map]
    refine h.layout.ordered.imp_of_mem ?_
    intro a b ha hb order
    have lastB := last b hb
    have notKey : a.1.startSeqNo ≠ key := by have := order.1; omega
    rw [if_neg notKey]
    by_cases here : b.1.startSeqNo = key
    · simpa [here, SegmentFile.append] using order
    · simpa [here] using order
  · -- The segment is the last one, so its new entries are the last of all.
    obtain ⟨pre, rfl, before⟩ := h.layout.split_last member (start ▸ last)
    rw [← h.layout.entries]
    have others : ∀ q ∈ pre, q.1.startSeqNo ≠ key := fun q hq => by
      have := before q hq
      omega
    simp only [List.map_append, List.flatMap_append, List.map_cons, List.map_nil, if_pos start]
    have same : (pre.map fun q => if q.1.startSeqNo = key
        then (q.1.append (frames codec group), q.2 ++ group) else q) = pre := by
      conv_rhs => rw [← List.map_id pre]
      exact List.map_congr_left fun q hq => by simp [others q hq]
    rw [same]
    simp
  · intro e he
    rcases List.mem_append.mp he with old | new
    · exact h.layout.positive e old
    · exact positive e new
  · intro e he
    rcases List.mem_append.mp he with old | new
    · exact h.layout.recordable e old
    · exact recordable e new
  · intro m i read
    have active := current m i read
    have moved := (h.current m i read).append group
    rwa [frontier_activeSegmentSeqNo, active] at moved
  · intro i m write
    have active := inFlight i m write
    have moved := (h.inFlight i m write).append group
    rwa [frontier_activeSegmentSeqNo, active] at moved

/-- Once the newest segment ends where the marker does, the log is what the
marker covers: entries that were lost are forgotten. -/
theorem DiskInv.adopt (h : DiskInv codec truncated appended owed disk segs)
    (quiet : disk.markerWrite = none) {m : CommitMarkerState} {i : Nat}
    (read : readCommitMarker disk.marker = some (m, i)) {p : Segment} {j : Nat}
    (covers : MarkerCovers codec truncated segs m.frontier p j)
    (whole : p.1.bytes = segmentBytes codec (p.2.take j)) (synced : p.1.synced = p.1.bytes.length)
    (last : ∀ q ∈ segs, q.1.startSeqNo ≤ m.activeSegmentSeqNo) :
    DiskInv codec truncated (coveredBy truncated segs m.frontier p j)
      (coveredBy truncated segs m.frontier p j) disk
      (segs.map fun q => (q.1, if q.1.startSeqNo = m.activeSegmentSeqNo then q.2.take j else q.2)) ∧
    ∀ q ∈ segs.map fun q => (q.1, if q.1.startSeqNo = m.activeSegmentSeqNo then q.2.take j else q.2),
      Whole codec q ∧ Sealed codec q := by
  have start : p.1.startSeqNo = m.activeSegmentSeqNo := covers.start
  obtain ⟨pre, rfl, before⟩ := h.layout.split_last covers.member (start ▸ last)
  rw [start] at before
  -- Only the newest segment changes its entries.
  have relabelled : ((pre ++ [p]).map fun q =>
      (q.1, if q.1.startSeqNo = m.activeSegmentSeqNo then q.2.take j else q.2))
      = pre ++ [(p.1, p.2.take j)] := by
    rw [List.map_append, List.map_singleton, if_pos start]
    congr 1
    conv_rhs => rw [← List.map_id pre]
    exact List.map_congr_left fun q hq => by
      have := before q hq
      rw [if_neg (by omega)]
      rfl
  have filtered : ∀ q : Segment, q.1.startSeqNo = m.activeSegmentSeqNo →
      (pre ++ [q]).filter (fun q => q.1.startSeqNo < m.frontier.activeSegmentSeqNo) = pre :=
    fun q same => filter_earlier same before (by simp)
  have covered : coveredBy truncated (pre ++ [p]) m.frontier p j
      = truncated ++ pre.flatMap Prod.snd ++ p.2.take j := by
    rw [coveredBy, filtered p start]
  have covered' : coveredBy truncated (pre ++ [(p.1, p.2.take j)]) m.frontier (p.1, p.2.take j) j
      = coveredBy truncated (pre ++ [p]) m.frontier p j := by
    rw [covered, coveredBy, filtered (p.1, p.2.take j) start, List.take_take, Nat.min_self]
  have sub : (coveredBy truncated (pre ++ [p]) m.frontier p j).Sublist appended := by
    rw [covered, ← h.layout.entries]
    simp only [List.flatMap_append, List.flatMap_cons, List.flatMap_nil, List.append_nil,
      List.append_assoc]
    exact (List.Sublist.refl _).append ((List.Sublist.refl _).append (List.take_sublist _ _))
  have isSealed : ∀ q ∈ pre, Sealed codec q := fun q hq =>
    covers.earlier q (by simp [hq]) (before q hq)
  have holds : MarkerHolds codec truncated (coveredBy truncated (pre ++ [p]) m.frontier p j)
      (pre ++ [(p.1, p.2.take j)]) m.frontier := by
    refine ⟨(p.1, p.2.take j), j, ⟨by simp, start, by have := covers.count; simp; omega, ?_, ?_, ?_, ?_⟩,
      ?_, ?_⟩
    · simp only [List.take_take, Nat.min_self]
      exact covers.length
    · intro q hq less
      rcases List.mem_append.mp hq with old | new
      · exact isSealed q old
      · simp only [List.mem_singleton] at new
        subst new
        simp [start] at less
    · intro q hq greater
      rcases List.mem_append.mp hq with old | new
      · have := before q old
        simp only [frontier_activeSegmentSeqNo] at greater
        omega
      · simp only [List.mem_singleton] at new
        subst new
        simp [start] at greater
    · rw [covered']
      exact covers.highest
    · exact Nat.le_of_eq (by rw [covers.length, ← whole, synced])
    · rw [covered']
      exact fun e he => he
  rw [relabelled]
  refine ⟨⟨⟨?_, ?_, ?_, ?_, ?_, h.layout.ascending.sublist sub,
    fun e he => h.layout.positive e (sub.subset he),
    fun e he => h.layout.recordable e (sub.subset he)⟩, ?_, ?_, h.slot, ?_⟩, ?_⟩
  · rw [h.layout.files_eq]; simp
  · intro q hq
    rcases List.mem_append.mp hq with old | new
    · exact h.layout.written q (by simp [old])
    · simp only [List.mem_singleton] at new
      subst new
      exact whole ▸ List.prefix_rfl
  · intro q hq
    rcases List.mem_append.mp hq with old | new
    · exact h.layout.synced_le q (by simp [old])
    · simp only [List.mem_singleton] at new
      subst new
      exact Nat.le_of_eq synced
  · have ordered := List.pairwise_append.mp h.layout.ordered
    refine List.pairwise_append.mpr ⟨ordered.1, by simp, ?_⟩
    intro q hq r hr
    simp only [List.mem_singleton] at hr
    subst hr
    exact ordered.2.2 q hq p (by simp)
  · rw [covered]; simp
  · intro m' i' read'
    rw [read] at read'
    simp only [Option.some.injEq, Prod.mk.injEq] at read'
    exact read'.1 ▸ holds
  · simp [quiet]
  · simp [read]
  · intro q hq
    rcases List.mem_append.mp hq with old | new
    · have mem : q ∈ pre ++ [p] := by simp [old]
      exact ⟨(isSealed q old).whole (h.layout.written q mem) (h.layout.synced_le q mem), isSealed q old⟩
    · simp only [List.mem_singleton] at new
      subst new
      exact ⟨whole, by rw [Sealed, ← whole, synced]⟩

theorem DiskInv.adopt_bare (h : DiskInv codec truncated appended owed disk segs)
    (quiet : disk.markerWrite = none) (missing : readCommitMarker disk.marker = none)
    (bare : ∀ q ∈ segs, q.1.bytes = writeSegmentHeader ∧ q.1.synced = segmentHeaderSize) :
    DiskInv codec [] [] [] disk (segs.map fun q => (q.1, [])) ∧
    ∀ q ∈ segs.map fun q => ((q.1, []) : Segment), Whole codec q ∧ Sealed codec q := by
  refine ⟨⟨⟨?_, ?_, ?_, ?_, ?_, List.Pairwise.nil, by simp, by simp⟩, ?_, ?_, h.slot, ?_⟩, ?_⟩
  · rw [h.layout.files_eq, List.map_map]
    rfl
  · intro q hq
    obtain ⟨r, hr, rfl⟩ := List.mem_map.mp hq
    rw [(bare r hr).1]
    exact List.prefix_append _ _
  · intro q hq
    obtain ⟨r, hr, rfl⟩ := List.mem_map.mp hq
    exact h.layout.synced_le r hr
  · rw [List.pairwise_map]
    exact h.layout.ordered.imp fun order => ⟨order.1, by simp⟩
  · simp
  · intro m i read
    rw [missing] at read
    cases read
  · intro i m write
    rw [quiet] at write
    cases write
  · exact fun _ => ⟨rfl, rfl⟩
  · intro q hq
    obtain ⟨r, hr, rfl⟩ := List.mem_map.mp hq
    obtain ⟨bytes, synced⟩ := bare r hr
    exact ⟨by simp [Whole, segmentBytes, bytes], by simp [Sealed, segmentBytes, synced]⟩

end Narsil.Durability
