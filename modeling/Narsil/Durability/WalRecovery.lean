import Narsil.Durability.DiskInvariant

/-!
# What recovery reads after a crash

Under the disk invariant, `replayWal` reads back a prefix of what was appended
that holds everything owed.
-/
namespace Narsil.Durability

variable {codec : EntryCodec} {truncated appended owed : List ReplicationLogEntry} {disk : Disk}
  {segs : List Segment}

theorem checkSegmentHeader_written (rest : Bytes) :
    checkSegmentHeader (writeSegmentHeader ++ rest) = .ok () := by
  have length : ¬ (writeSegmentHeader ++ rest).length < segmentHeaderSize := by simp
  have magic : (writeSegmentHeader ++ rest).take walMagic.length = walMagic := rfl
  have version : ¬ (writeSegmentHeader ++ rest).getD 4 0 > walFormatVersion := by
    change ¬ ((1 : UInt8) &&& 0xff) > 1
    decide
  rw [checkSegmentHeader, if_neg length, if_neg (by simp [magic]), if_neg version]

theorem readDurableRegion_written (entries : List ReplicationLogEntry) (post : Bytes)
    (recordable : ∀ e ∈ entries, Recordable codec e) (ascending : Ascending entries) :
    readDurableRegion codec (segmentBytes codec entries ++ post) (segmentBytes codec entries).length
      = .ok entries := by
  have read := readDurableFrames_frames writeSegmentHeader post [] entries
    recordable (by simpa using ascending)
  simp only [readDurableRegion, segmentBytes, List.append_assoc, checkSegmentHeader_written,
    List.length_append, writeSegmentHeader_length] at read ⊢
  rw [if_neg (by simp [segmentHeaderSize])]
  simpa using read

theorem split_written {bytes : Bytes} {entries : List ReplicationLogEntry}
    (recordable : ∀ e ∈ entries, Recordable codec e) (written : bytes <+: segmentBytes codec entries)
    (header : segmentHeaderSize ≤ bytes.length) :
    ∃ k tail, k ≤ entries.length ∧ Torn codec tail ∧
      bytes = segmentBytes codec (entries.take k) ++ tail ∧
      ∀ j, (segmentBytes codec (entries.take j)).length ≤ bytes.length →
        entries.take j <+: entries.take k := by
  obtain ⟨k, tail, bound, torn, cut, least⟩ :=
    take_frames entries recordable (bytes.length - segmentHeaderSize)
  have layout : bytes = writeSegmentHeader ++ (frames codec entries).take (bytes.length - segmentHeaderSize) := by
    have := List.prefix_iff_eq_take.mp written
    rw [segmentBytes, List.take_append] at this
    rwa [List.take_of_length_le (by simpa using header)] at this
  refine ⟨k, tail, bound, torn, ?_, ?_⟩
  · rw [layout, cut, segmentBytes, List.append_assoc]
  · intro j fits
    apply least
    rw [segmentBytes_length] at fits
    omega

theorem readTailBeyondFrontier_written (durable found : List ReplicationLogEntry) (tail : Bytes)
    (lastDurableSeqNo : Nat) (recordable : ∀ e ∈ found, Recordable codec e)
    (ascending : Ascending found) (above : ∀ e ∈ found, lastDurableSeqNo < e.seqNo)
    (torn : Torn codec tail) :
    readTailBeyondFrontier codec (segmentBytes codec (durable ++ found) ++ tail)
        (segmentBytes codec durable).length lastDurableSeqNo
      = ⟨found, (segmentBytes codec (durable ++ found)).length⟩ := by
  have start : max (segmentBytes codec durable).length segmentHeaderSize
      = (segmentBytes codec durable).length := by rw [segmentBytes_length]; omega
  have layout : segmentBytes codec (durable ++ found) ++ tail
      = segmentBytes codec durable ++ (frames codec found ++ tail) := by simp [segmentBytes]
  have total : (segmentBytes codec (durable ++ found)).length
      = (segmentBytes codec durable).length + (frames codec found).length := by
    simp [segmentBytes, Nat.add_assoc]
  simp only [readTailBeyondFrontier, start, layout, total]
  split
  next nothing =>
    -- Nothing lies beyond the frontier, so no entry was found there either.
    have none : found = [] := by
      cases found with
      | nil => rfl
      | cons e rest =>
        have : (frameRecord codec e).length = _ := frameRecord_length e
        simp only [List.length_append, frames_cons] at nothing
        omega
    subst none
    simp
  next =>
    have read := readTailFrames_frames (segmentBytes codec durable) tail
      lastDurableSeqNo [] found recordable ascending above torn
    simpa using read

private theorem read_sealed (m : CommitMarkerState) (pre : List Segment) (rest : List SegmentFile)
    (high : Nat) (more : List SegmentRead)
    (before : ∀ q ∈ pre, q.1.startSeqNo < m.activeSegmentSeqNo)
    (whole : ∀ q ∈ pre, Whole codec q) (recordable : ∀ q ∈ pre, ∀ e ∈ q.2, Recordable codec e)
    (ascending : ∀ q ∈ pre, Ascending q.2)
    (read : readSegmentsInOrder codec m rest (max high (highestSeqNo (pre.flatMap Prod.snd)))
      = .ok more) :
    readSegmentsInOrder codec m (pre.map Prod.fst ++ rest) high
      = .ok (pre.map (fun q => ⟨q.2, none⟩) ++ more) := by
  induction pre generalizing high with
  | nil => simpa using read
  | cons q pre ih =>
    have less := before q (by simp)
    have bytes : q.1.bytes = segmentBytes codec q.2 := whole q (by simp)
    have region := readDurableRegion_written q.2 [] (recordable q (by simp))
      (ascending q (by simp))
    simp only [List.append_nil] at region
    have later := ih (max high (highestSeqNo q.2)) (fun r hr => before r (by simp [hr]))
      (fun r hr => whole r (by simp [hr])) (fun r hr => recordable r (by simp [hr]))
      (fun r hr => ascending r (by simp [hr]))
      (by simpa [highestSeqNo_append, Nat.max_assoc] using read)
    have headerOk : checkSegmentHeader (segmentBytes codec q.2) = .ok () :=
      checkSegmentHeader_written _
    simp only [List.map_cons, List.cons_append, readSegmentsInOrder]
    rw [if_neg (by omega), if_pos less, bytes, headerOk]
    simp only [region, later, bind, Except.bind]

private theorem read_orphans (codec : EntryCodec) (m : CommitMarkerState) (post : List Segment) (high : Nat)
    (after : ∀ q ∈ post, m.activeSegmentSeqNo < q.1.startSeqNo) :
    readSegmentsInOrder codec m (post.map Prod.fst) high = .ok [] := by
  induction post with
  | nil => rfl
  | cons q post ih =>
    have greater := after q (by simp)
    simp only [List.map_cons, readSegmentsInOrder]
    rw [if_pos greater]
    exact ih fun r hr => after r (by simp [hr])

/-- What recovery has read when the marker's frontier ends behind entry `j` of
segment `p` and whole frames reach to entry `k`. -/
structure ReadsTo (codec : EntryCodec) (disk : Disk) (segs : List Segment) (m : CommitMarkerState)
    (p : Segment) (j k : Nat) (read : WalReadResult) : Prop where
  marker : read.marker = m
  segments : read.segments = disk.segments.map SegmentFile.startSeqNo
  durable : read.durableEntries
    = (segs.filter fun q => q.1.startSeqNo < m.frontier.activeSegmentSeqNo).flatMap Prod.snd
      ++ p.2.take j
  tail : read.activeTail = some
    ⟨p.1.startSeqNo, (p.2.take k).drop j, (segmentBytes codec (p.2.take k)).length, p.1.bytes.length⟩
  highest : read.highestReadFromWal = highestSeqNo read.durableEntries
  order : j ≤ k
  count : k ≤ p.2.length
  clean : segmentBytes codec (p.2.take k) <+: p.1.bytes

theorem readWalSegments_reads (h : DiskInv codec truncated appended owed disk segs)
    {m : CommitMarkerState} {i : Nat} (current : readCommitMarker disk.marker = some (m, i)) :
    ∃ p j k read, MarkerCovers codec truncated segs m.frontier p j ∧
      m.durableByteLength ≤ p.1.synced ∧ (∀ e ∈ owed, e ∈ coveredBy truncated segs m.frontier p j) ∧
      readWalSegments codec disk = .ok (some read) ∧ ReadsTo codec disk segs m p j k read := by
  obtain ⟨p, j, covers, synced, holds⟩ := h.current m i current
  obtain ⟨pre, post, split, before, after⟩ := h.layout.split_at covers.member
  have start : p.1.startSeqNo = m.activeSegmentSeqNo := covers.start
  have length : m.durableByteLength = (segmentBytes codec (p.2.take j)).length := covers.length
  have syncedLe := h.layout.synced_le p covers.member
  have inAppended : ∀ q ∈ segs, ∀ e ∈ q.2, e ∈ appended := fun q hq e he => h.layout.mem_appended hq he
  have recordable : ∀ q ∈ segs, ∀ e ∈ q.2, Recordable codec e :=
    fun q hq e he => h.layout.recordable e (inAppended q hq e he)
  have entries : appended = (truncated ++ pre.flatMap Prod.snd) ++ (p.2 ++ post.flatMap Prod.snd) := by
    rw [← h.layout.entries, split]; simp
  have ascending := h.layout.ascending
  have ascendingOf : ∀ q ∈ segs, Ascending q.2 := by
    intro q hq
    obtain ⟨l, r, same⟩ := List.append_of_mem hq
    have whole : appended = (truncated ++ l.flatMap Prod.snd) ++ (q.2 ++ r.flatMap Prod.snd) := by
      rw [← h.layout.entries, same]; simp
    rw [whole] at ascending
    exact ascending.append_right.append_left
  simp only [frontier_durableByteLength] at synced
  have headerFits : segmentHeaderSize ≤ p.1.bytes.length := by
    rw [segmentBytes_length] at length
    omega
  obtain ⟨k, torn, bound, isTorn, bytes, least⟩ := split_written (recordable p covers.member)
    (h.layout.written p covers.member) headerFits
  have order : p.2.take j <+: p.2.take k := least j (by omega)
  have jk : j ≤ k := by
    have shorter := order.length_le
    have := covers.count
    rw [List.length_take, List.length_take] at shorter
    omega
  have foundEntries : p.2.take k = p.2.take j ++ (p.2.take k).drop j := by
    have := List.take_append_drop j (p.2.take k)
    rwa [List.take_take, Nat.min_eq_left jk, eq_comm] at this
  -- The filter of the covered segments is the part of the list before `p`.
  have filtered : (segs.filter fun q => q.1.startSeqNo < m.frontier.activeSegmentSeqNo) = pre := by
    rw [split]
    exact filter_earlier covers.start (covers.start ▸ before) (covers.start ▸ after)
  have covered : coveredBy truncated segs m.frontier p j
      = truncated ++ pre.flatMap Prod.snd ++ p.2.take j := by
    rw [coveredBy, filtered]
  have wholePre : ∀ q ∈ pre, Whole codec q := by
    intro q hq
    have mem : q ∈ segs := by rw [split]; simp [hq]
    have isSealed := covers.earlier q mem (by
      have := before q hq
      simp only [CommitMarkerState.frontier]; omega)
    exact isSealed.whole (h.layout.written q mem) (h.layout.synced_le q mem)
  -- Entries beyond the frontier are numbered above all that it covers.
  have above : ∀ e ∈ (p.2.take k).drop j,
      max (highestSeqNo (pre.flatMap Prod.snd ++ p.2.take j)) m.highestDurableSeqNo < e.seqNo := by
    intro e he
    have eMem : e ∈ (p.2.drop j) ++ post.flatMap Prod.snd := by
      apply List.mem_append_left
      rw [List.drop_take] at he
      exact List.mem_of_mem_take he
    have splitAt : appended = (truncated ++ pre.flatMap Prod.snd ++ p.2.take j)
        ++ (p.2.drop j ++ post.flatMap Prod.snd) := by
      conv_lhs => rw [entries, ← List.take_append_drop j p.2]
      simp only [List.append_assoc]
    have below : ∀ a ∈ truncated ++ pre.flatMap Prod.snd ++ p.2.take j, a.seqNo < e.seqNo := by
      rw [splitAt] at ascending
      exact fun a ha => ascending.lt_of_append ha eMem
    have positive := h.layout.positive e (by rw [splitAt]; exact List.mem_append_right _ eMem)
    have bound : highestSeqNo (truncated ++ pre.flatMap Prod.snd ++ p.2.take j) < e.seqNo :=
      Nat.lt_of_le_pred positive (highestSeqNo_le fun a ha => Nat.le_pred_of_lt (below a ha))
    have highest := covers.highest
    rw [covered] at highest
    simp only [frontier_highestDurableSeqNo, highestSeqNo_append] at highest bound ⊢
    omega
  -- The three parts of the listing, read in turn.
  have ascendingP := ascendingOf p covers.member
  have recordableP := recordable p covers.member
  have region : readDurableRegion codec p.1.bytes m.durableByteLength = .ok (p.2.take j) := by
    have read := readDurableRegion_written (p.2.take j)
      (frames codec ((p.2.take k).drop j) ++ torn)
      (fun e he => recordableP e (List.mem_of_mem_take he))
      (ascendingP.sublist (List.take_sublist j p.2))
    rw [length, bytes, foundEntries]
    simpa [segmentBytes] using read
  have beyond : ∀ last, (∀ e ∈ (p.2.take k).drop j, last < e.seqNo) →
      readTailBeyondFrontier codec p.1.bytes m.durableByteLength last
        = ⟨(p.2.take k).drop j, (segmentBytes codec (p.2.take k)).length⟩ := by
    intro last higher
    have read := readTailBeyondFrontier_written (p.2.take j)
      ((p.2.take k).drop j) torn last
      (fun e he => recordableP e (List.mem_of_mem_take (List.mem_of_mem_drop he)))
      ((ascendingP.sublist (List.take_sublist k p.2)).sublist (List.drop_sublist j _)) higher isTorn
    rwa [← foundEntries, ← bytes, ← length] at read
  have last := read_orphans codec m post
    (max (max 0 (highestSeqNo (pre.flatMap Prod.snd))) (highestSeqNo (p.2.take j)))
    (fun q hq => by have := after q hq; omega)
  have active : readSegmentsInOrder codec m (p.1 :: post.map Prod.fst)
      (max 0 (highestSeqNo (pre.flatMap Prod.snd)))
      = .ok [⟨p.2.take j, some ⟨p.1.startSeqNo, (p.2.take k).drop j,
          (segmentBytes codec (p.2.take k)).length, p.1.bytes.length⟩⟩] := by
    have found := beyond (max (max (max 0 (highestSeqNo (pre.flatMap Prod.snd)))
      (highestSeqNo (p.2.take j))) m.highestDurableSeqNo) (fun e he => by
        have := above e he
        rw [highestSeqNo_append] at this
        simpa using this)
    simp only [readSegmentsInOrder]
    rw [if_neg (by omega), if_neg (by omega)]
    simp only [region, found, last, bind, Except.bind]
  have all := read_sealed m pre (p.1 :: post.map Prod.fst) 0 _
    (fun q hq => by have := before q hq; omega) wholePre
    (fun q hq => recordable q (by rw [split]; simp [hq]))
    (fun q hq => ascendingOf q (by rw [split]; simp [hq])) active
  have fileList : disk.segments = pre.map Prod.fst ++ p.1 :: post.map Prod.fst := by
    rw [h.layout.files_eq, split]; simp
  have durable : (pre.map (fun q : Segment => (⟨q.2, none⟩ : SegmentRead))).flatMap
      SegmentRead.durableEntries = pre.flatMap Prod.snd := by
    rw [List.flatMap_map]
  have noTail : ∀ tail : Option ActiveTail,
      (pre.map (fun q : Segment => (⟨q.2, none⟩ : SegmentRead))).foldl
        (fun tail segment => segment.activeTail <|> tail) tail = tail := by
    intro tail
    rw [List.foldl_map]
    simp
  refine ⟨p, j, k,
    { marker := m
      segments := disk.segments.map SegmentFile.startSeqNo
      durableEntries := pre.flatMap Prod.snd ++ p.2.take j
      activeTail := some ⟨p.1.startSeqNo, (p.2.take k).drop j,
        (segmentBytes codec (p.2.take k)).length, p.1.bytes.length⟩
      highestReadFromWal := highestSeqNo (pre.flatMap Prod.snd ++ p.2.take j) },
    covers, synced, holds, ?_, ⟨rfl, rfl, ?_, rfl, rfl, jk, bound, ?_⟩⟩
  · rw [← fileList] at all
    simp only [readWalSegments, current, all, bind, Except.bind, List.flatMap_append,
      List.foldl_append, durable, noTail]
    simp
  · exact filtered ▸ rfl
  · rw [bytes]
    exact List.prefix_append _ _

private theorem foldl_replayEntry (entries : List ReplicationLogEntry) (ascending : Ascending entries)
    (position : ReplayPosition) :
    (entries.foldl replayEntry position).applied
        = position.applied ++ entries.filter (fun e => position.highestSeqNo < e.seqNo) ∧
    (entries.foldl replayEntry position).highestSeqNo
        = max position.highestSeqNo (highestSeqNo entries) := by
  induction entries generalizing position with
  | nil => simp
  | cons e rest ih =>
    obtain ⟨applied, highest⟩ := ih (List.pairwise_cons.mp ascending).2 (replayEntry position e)
    rw [List.foldl_cons, applied, highest, highestSeqNo_cons]
    by_cases skipped : e.seqNo ≤ position.highestSeqNo
    · rw [List.filter_cons_of_neg (by simpa using skipped)]
      simp only [replayEntry, if_pos skipped, true_and]
      omega
    · -- Later entries are numbered above this one, hence above where the replay stood.
      have later : rest.filter (fun a => e.seqNo < a.seqNo)
          = rest.filter (fun a => position.highestSeqNo < a.seqNo) := by
        refine List.filter_congr fun a ha => ?_
        have := (List.pairwise_cons.mp ascending).1 a ha
        simp only [decide_eq_decide]
        omega
      rw [List.filter_cons_of_pos (by simpa using skipped)]
      simp only [replayEntry, if_neg skipped, later, List.append_assoc, List.cons_append,
        List.nil_append, true_and]
      omega

/-- What recovery may rely on in the result of a replay. -/
structure Recovers (truncated appended owed : List ReplicationLogEntry) (fromSeqNoExclusive : Nat)
    (replay : Replay) : Prop where
  isPrefix : truncated ++ replay.entries <+: appended
  owed : ∀ e ∈ owed, e ∈ truncated ++ replay.entries
  applied : replay.position.applied = replay.entries.filter fun e => fromSeqNoExclusive < e.seqNo
  highest : replay.position.highestSeqNo = max fromSeqNoExclusive (highestSeqNo replay.entries)

theorem ReadsTo.entries {m : CommitMarkerState} {p : Segment} {j k : Nat} {read : WalReadResult}
    (reads : ReadsTo codec disk segs m p j k read) :
    read.durableEntries ++ read.activeTail.elim [] ActiveTail.entries
      = (segs.filter fun q => q.1.startSeqNo < m.frontier.activeSegmentSeqNo).flatMap Prod.snd
        ++ p.2.take k := by
  have order := reads.order
  have split := List.take_append_drop j (p.2.take k)
  rw [List.take_take, Nat.min_eq_left order] at split
  rw [reads.durable, reads.tail]
  simp [split]

theorem prefix_covered {m : CommitMarkerState} {p : Segment} {j : Nat} (k : Nat)
    (layout : Layout codec truncated appended disk.segments segs)
    (covers : MarkerCovers codec truncated segs m.frontier p j) :
    coveredBy truncated segs m.frontier p k <+: appended := by
  obtain ⟨pre, post, rfl, before, after⟩ := layout.split_at covers.member
  have start := covers.start
  have filtered := filter_earlier start (start ▸ before) (start ▸ after)
  rw [coveredBy, filtered, ← layout.entries]
  simp only [List.flatMap_append, List.flatMap_cons, ← List.append_assoc]
  exact (List.prefix_append_right_inj _).mpr (List.take_prefix _ _) |>.trans (List.prefix_append _ _)

theorem replayWal_recovers (h : DiskInv codec truncated appended owed disk segs)
    (fromSeqNoExclusive : Nat) (below : ∀ e ∈ truncated, e.seqNo ≤ fromSeqNoExclusive)
    {m : CommitMarkerState} {i : Nat} (current : readCommitMarker disk.marker = some (m, i)) :
    ∃ p j k read replay, MarkerCovers codec truncated segs m.frontier p j ∧
      m.durableByteLength ≤ p.1.synced ∧ ReadsTo codec disk segs m p j k read ∧
      replay.read = some read ∧ replayWal codec disk fromSeqNoExclusive = .ok replay ∧
      Recovers truncated appended owed fromSeqNoExclusive replay := by
  obtain ⟨p, j, k, read, covers, synced, holds, ok, reads⟩ := readWalSegments_reads h current
  have entries := reads.entries
  have isPrefix := prefix_covered k h.layout covers
  have ascending : Ascending (read.durableEntries ++ read.activeTail.elim [] ActiveTail.entries) := by
    have whole : Ascending _ := h.layout.ascending.sublist isPrefix.sublist
    rw [coveredBy, List.append_assoc] at whole
    exact entries ▸ whole.append_right
  obtain ⟨applied, highest⟩ := foldl_replayEntry _ ascending ⟨[], fromSeqNoExclusive, 0⟩
  -- No durable record is missing: the marker's number is covered by what was read.
  have present : ¬ max fromSeqNoExclusive read.highestReadFromWal < read.marker.highestDurableSeqNo := by
    have bound := covers.highest
    have dropped := highestSeqNo_le below
    rw [coveredBy, List.append_assoc, highestSeqNo_append] at bound
    rw [reads.marker, reads.highest, reads.durable]
    simp only [frontier_highestDurableSeqNo] at bound
    omega
  refine ⟨p, j, k, read, ⟨_, some read⟩, covers, synced, reads, rfl, ?_, ⟨?_, ?_, applied, highest⟩⟩
  · simp only [replayWal, ok, bind, Except.bind]
    rw [if_neg present]
  · simpa only [Replay.entries, Option.elim_some, entries, coveredBy, List.append_assoc]
      using isPrefix
  · intro e he
    have covered := holds e he
    simp only [Replay.entries, Option.elim_some, entries]
    rw [coveredBy, List.append_assoc] at covered
    rcases List.mem_append.mp covered with old | new
    · exact List.mem_append_left _ old
    · refine List.mem_append_right _ ?_
      rcases List.mem_append.mp new with earlier | active
      · exact List.mem_append_left _ earlier
      · exact List.mem_append_right _ (List.take_subset_take_left _ reads.order active)

theorem replayWal_unmarked (fromSeqNoExclusive : Nat)
    (missing : readCommitMarker disk.marker = none) :
    replayWal codec disk fromSeqNoExclusive = .ok ⟨⟨[], fromSeqNoExclusive, 0⟩, none⟩ := by
  simp [replayWal, readWalSegments, missing, bind, Except.bind]

end Narsil.Durability
