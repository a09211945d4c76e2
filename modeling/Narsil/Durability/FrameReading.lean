import Narsil.Durability.FrameFormat

/-!
# The format of a segment

A segment is a valid header and frames of ascending entries, ending at its last
byte. The strict reader accepts exactly the segments; the lenient one finds the
longest run of frames behind a boundary.
-/
namespace Narsil.Durability

open Serialization

/-- Bytes that are one frame for each entry, and nothing else. -/
inductive Framed (codec : EntryCodec) : List ReplicationLogEntry → Bytes → Prop where
  | nil : Framed codec [] []
  | cons {entry : ReplicationLogEntry} {entries : List ReplicationLogEntry} {frame rest : Bytes}
      (head : Frame codec entry frame) (tail : Framed codec entries rest) :
      Framed codec (entry :: entries) (frame ++ rest)

/-- Eight bytes with the magic of the log and a format version this release knows. -/
structure ValidHeader (header : Bytes) : Prop where
  size : header.length = segmentHeaderSize
  magic : header.take walMagic.length = walMagic
  version : header.getD 4 0 ≤ walFormatVersion

/-- A whole segment that holds `entries`. -/
structure SegmentOf (codec : EntryCodec) (bytes : Bytes) (entries : List ReplicationLogEntry) :
    Prop where
  header : ValidHeader (bytes.take segmentHeaderSize)
  framed : Framed codec entries (bytes.drop segmentHeaderSize)
  ascending : Ascending entries

variable {codec : EntryCodec} {data : Bytes} {start stop : Nat}

theorem Framed.append {xs ys : List ReplicationLogEntry} {front back : Bytes}
    (h : Framed codec xs front) (h' : Framed codec ys back) :
    Framed codec (xs ++ ys) (front ++ back) := by
  induction h with
  | nil => exact h'
  | cons head _ ih =>
    rw [List.append_assoc]
    exact .cons head ih

private theorem region_split (ordered : start ≤ stop) :
    data = data.take start ++ ((data.take stop).drop start ++ data.drop stop) := by
  have whole : (data.take stop).take start ++ (data.take stop).drop start = data.take stop :=
    List.take_append_drop start (data.take stop)
  rw [List.take_take, Nat.min_eq_left ordered] at whole
  rw [← List.append_assoc, whole, List.take_append_drop]

private theorem region_frame {frame : Bytes} (fits : start + frame.length ≤ stop)
    (front : data.drop start = frame ++ data.drop (start + frame.length)) :
    (data.take stop).drop start = frame ++ (data.take stop).drop (start + frame.length) := by
  rw [List.drop_take, List.drop_take, front, List.take_append,
    List.take_of_length_le (by omega)]
  congr 2
  omega

private theorem read_region {entry : ReplicationLogEntry} {frame rest : Bytes} {limit : Nat}
    (head : Frame codec entry frame) (ordered : start ≤ stop) (inside : stop ≤ data.length)
    (region : (data.take stop).drop start = frame ++ rest) (bounded : stop ≤ limit) :
    readFrame codec data start limit = .ok (entry, start + frame.length) ∧
      start + frame.length ≤ stop ∧ (data.take stop).drop (start + frame.length) = rest := by
  have sizes := congrArg List.length region
  simp only [List.length_drop, List.length_take, List.length_append] at sizes
  have front : (data.take start).length = start := by
    rw [List.length_take]
    omega
  have layout := @region_split data start stop ordered
  rw [region, List.append_assoc] at layout
  have read := head.read (data.take start) (rest ++ data.drop stop) limit (by omega)
  rw [← layout, front] at read
  refine ⟨read, by omega, ?_⟩
  rw [← List.drop_drop, region, List.drop_left]

theorem readDurableFrames_of_framed {region : Bytes} {entries : List ReplicationLogEntry}
    (framed : Framed codec entries region) (read : List ReplicationLogEntry)
    (ordered : start ≤ stop) (inside : stop ≤ data.length)
    (atRegion : (data.take stop).drop start = region) (ascending : Ascending (read ++ entries)) :
    readDurableFrames codec data stop start read = .ok (read ++ entries) := by
  induction framed generalizing start read with
  | nil =>
    have empty := congrArg List.length atRegion
    simp only [List.length_drop, List.length_take, List.length_nil] at empty
    rw [readDurableFrames, if_neg (by omega), List.append_nil]
  | @cons entry entries frame rest head _ ih =>
    obtain ⟨parsed, bounded, behind⟩ := read_region head ordered inside atRegion (Nat.le_refl stop)
    have size := List.length_pos_of_ne_nil head.ne_nil
    rw [readDurableFrames, if_pos (by omega)]
    split
    next fault failed => rw [parsed] at failed; cases failed
    next entry' frameEnd succeeded =>
      rw [parsed] at succeeded
      cases succeeded
      have follows : ¬ (read.getLast?.any fun previous => decide (entry.seqNo ≤ previous.seqNo)) := by
        cases last : read.getLast? with
        | none => simp
        | some previous =>
          have lower := ascending.lt_of_append (List.mem_of_getLast? last)
            (by simp : entry ∈ entry :: entries)
          simpa using lower
      rw [if_neg follows]
      have next := ih (read ++ [entry]) bounded behind (by simpa using ascending)
      simpa using next

theorem framed_of_readDurableFrames (inside : stop ≤ data.length) (ordered : start ≤ stop)
    (read entries : List ReplicationLogEntry) (ascending : Ascending read)
    (h : readDurableFrames codec data stop start read = .ok entries) :
    ∃ more, entries = read ++ more ∧ Framed codec more ((data.take stop).drop start) ∧
      Ascending entries := by
  fun_induction readDurableFrames codec data stop start read with
  | case1 => cases h
  | case2 => cases h
  | case3 offset read before entry frameEnd parsed follows ih =>
    obtain ⟨frame, head, rfl, front⟩ := frame_of_read inside parsed
    have bounded := (readFrame_advances parsed).2
    -- The guard compares with the last entry read, which is the highest of them.
    have next : Ascending (read ++ [entry]) := by
      refine List.pairwise_append.mpr ⟨ascending, List.pairwise_singleton _ _, ?_⟩
      intro earlier early last isLast
      rw [List.mem_singleton.mp isLast]
      have nonempty : read ≠ [] := List.ne_nil_of_mem early
      have split := List.dropLast_concat_getLast nonempty
      have above : (read.getLast nonempty).seqNo < entry.seqNo := by
        simpa [List.getLast?_eq_some_getLast nonempty] using follows
      rw [← split] at early ascending
      rcases List.mem_append.mp early with inFront | isTop
      · exact Nat.lt_trans (ascending.lt_of_append inFront (by simp)) above
      · rw [List.mem_singleton.mp isTop]
        exact above
    obtain ⟨more, rfl, framed, all⟩ := ih bounded next h
    refine ⟨entry :: more, by simp, ?_, all⟩
    rw [region_frame bounded front]
    exact .cons head framed
  | case4 offset read past =>
    cases h
    refine ⟨[], by simp, ?_, ascending⟩
    rw [List.drop_eq_nil_of_le (by rw [List.length_take]; omega)]
    exact .nil

theorem checkSegmentHeader_iff (data : Bytes) :
    checkSegmentHeader data = .ok () ↔ ValidHeader (data.take segmentHeaderSize) := by
  have magicSize : min walMagic.length segmentHeaderSize = walMagic.length := by decide
  have byte : (data.take segmentHeaderSize).getD 4 0 = data.getD 4 0 := by
    simp [List.getD_eq_getElem?_getD, segmentHeaderSize]
  simp only [checkSegmentHeader]
  constructor
  · intro h
    split_ifs at h with short magic version
    refine ⟨by rw [List.length_take]; omega, ?_, ?_⟩
    · rw [List.take_take, magicSize]
      exact not_not.mp magic
    · rw [byte]
      exact UInt8.not_lt.mp version
  · rintro ⟨size, magic, version⟩
    rw [List.length_take] at size
    rw [List.take_take, magicSize] at magic
    rw [byte] at version
    rw [if_neg (by omega), if_neg (not_not.mpr magic), if_neg (UInt8.not_lt.mpr version)]

theorem readDurableRegion_iff (data : Bytes) (durableByteLength : Nat)
    (entries : List ReplicationLogEntry) :
    readDurableRegion codec data durableByteLength = .ok entries ↔
      durableByteLength ≤ data.length ∧ SegmentOf codec (data.take durableByteLength) entries := by
  constructor
  · intro h
    simp only [readDurableRegion] at h
    split at h
    · cases h
    next valid =>
      split_ifs at h with outside
      have inside : segmentHeaderSize ≤ durableByteLength ∧ durableByteLength ≤ data.length := by
        omega
      obtain ⟨more, rfl, framed, ascending⟩ :=
        framed_of_readDurableFrames inside.2 inside.1 [] entries List.Pairwise.nil h
      refine ⟨inside.2, ?_, framed, ascending⟩
      rw [List.take_take, Nat.min_eq_left inside.1]
      exact (checkSegmentHeader_iff data).mp valid
  · rintro ⟨inside, header, framed, ascending⟩
    have size := header.size
    rw [List.length_take, List.length_take] at size
    have atLeast : segmentHeaderSize ≤ durableByteLength := by omega
    rw [List.take_take, Nat.min_eq_left atLeast] at header
    simp only [readDurableRegion, (checkSegmentHeader_iff data).mpr header]
    rw [if_neg (by omega)]
    exact readDurableFrames_of_framed framed [] atLeast inside rfl ascending

/-- Entries framed between two offsets, ascending above `floor`. -/
structure TailRun (codec : EntryCodec) (data : Bytes) (floor start : Nat)
    (entries : List ReplicationLogEntry) (stop : Nat) : Prop where
  ordered : start ≤ stop
  inside : stop ≤ data.length
  framed : Framed codec entries ((data.take stop).drop start)
  ascending : Ascending entries
  above : ∀ e ∈ entries, floor < e.seqNo

theorem readTailFrames_run (floor : Nat) (read : List ReplicationLogEntry)
    (inside : start ≤ data.length) :
    ∃ run stop, readTailFrames codec data start floor read = ⟨read ++ run, stop⟩ ∧
      TailRun codec data floor start run stop := by
  have standsStill : ∀ offset floor, offset ≤ data.length →
      TailRun codec data floor offset [] offset := by
    intro offset floor bounded
    refine ⟨Nat.le_refl _, bounded, ?_, List.Pairwise.nil, by simp⟩
    rw [List.drop_eq_nil_of_le (by rw [List.length_take]; omega)]
    exact .nil
  fun_induction readTailFrames codec data start floor read with
  | case1 offset floor read before fault parsed =>
    exact ⟨[], offset, by simp, standsStill offset floor inside⟩
  | case2 offset floor read before entry frameEnd parsed back =>
    exact ⟨[], offset, by simp, standsStill offset floor inside⟩
  | case3 offset floor read before entry frameEnd parsed forward ih =>
    obtain ⟨frame, head, rfl, front⟩ := frame_of_read (Nat.le_refl _) parsed
    have bounded := (readFrame_advances parsed).2
    obtain ⟨run, stop, found, tail⟩ := ih bounded
    refine ⟨entry :: run, stop, by simp [found], ?_⟩
    have reached := tail.ordered
    refine ⟨by omega, tail.inside, ?_, List.pairwise_cons.mpr ⟨tail.above, tail.ascending⟩, ?_⟩
    · rw [region_frame reached front]
      exact .cons head tail.framed
    · intro e isIn
      rcases List.mem_cons.mp isIn with rfl | later
      · omega
      · have := tail.above e later
        omega
  | case4 offset floor read past =>
    exact ⟨[], offset, by simp, standsStill offset floor inside⟩

theorem readTailFrames_longest {floor : Nat} {run : List ReplicationLogEntry}
    (read : List ReplicationLogEntry) (h : TailRun codec data floor start run stop) :
    ∃ more, (readTailFrames codec data start floor read).entries = read ++ run ++ more ∧
      stop ≤ (readTailFrames codec data start floor read).cleanEnd := by
  obtain ⟨ordered, inside, framed, ascending, above⟩ := h
  generalize atRegion : (data.take stop).drop start = region at framed
  induction framed generalizing start floor read with
  | nil =>
    have empty := congrArg List.length atRegion
    simp only [List.length_drop, List.length_take, List.length_nil] at empty
    obtain ⟨more, furthest, found, tail⟩ :=
      @readTailFrames_run codec data start floor read (Nat.le_trans ordered inside)
    have reached := tail.ordered
    rw [found]
    exact ⟨more, by simp, by simp only; omega⟩
  | @cons entry entries frame rest head _ ih =>
    obtain ⟨parsed, bounded, behind⟩ := read_region head ordered inside atRegion inside
    have size := List.length_pos_of_ne_nil head.ne_nil
    have higher := above entry (by simp)
    have parts := List.pairwise_cons.mp ascending
    obtain ⟨more, found, furthest⟩ :=
      ih (read ++ [entry]) bounded parts.2 parts.1 behind
    rw [readTailFrames, if_pos (by omega)]
    split
    next fault failed => rw [parsed] at failed; cases failed
    next entry' frameEnd succeeded =>
      rw [parsed] at succeeded
      cases succeeded
      rw [if_neg (by omega)]
      exact ⟨more, by simpa using found, furthest⟩

end Narsil.Durability

/-!
## Reading back what was framed

What the two readers of a segment answer on bytes the writer produced, whole or
cut at any point.
-/
namespace Narsil.Durability

open Serialization

/-- The encoding of an entry survives the codec and fits a record. -/
structure Recordable (codec : EntryCodec) (entry : ReplicationLogEntry) : Prop where
  decodes : decodeWalEntry codec (codec.encode entry) = some entry
  nonempty : 0 < (codec.encode entry).length
  fits : (codec.encode entry).length ≤ maxWalRecordBytes

/-- The bytes of a list of records. -/
def frames (codec : EntryCodec) (entries : List ReplicationLogEntry) : Bytes :=
  entries.flatMap (frameRecord codec)

variable {codec : EntryCodec}

@[simp] theorem frames_nil : frames codec [] = [] := rfl

@[simp] theorem frames_cons (entry : ReplicationLogEntry) (rest : List ReplicationLogEntry) :
    frames codec (entry :: rest) = frameRecord codec entry ++ frames codec rest := rfl

@[simp] theorem frames_append (xs ys : List ReplicationLogEntry) :
    frames codec (xs ++ ys) = frames codec xs ++ frames codec ys := by
  simp [frames]

theorem prefix_frames {xs ys : List ReplicationLogEntry} (h : xs <+: ys) :
    frames codec xs <+: frames codec ys := by
  obtain ⟨rest, rfl⟩ := h
  rw [frames_append]
  exact List.prefix_append _ _

@[simp] theorem writeSegmentHeader_length : writeSegmentHeader.length = segmentHeaderSize := rfl

theorem frameRecord_length (entry : ReplicationLogEntry) :
    (frameRecord codec entry).length = (codec.encode entry).length + 8 := by
  simp [frameRecord]
  omega

theorem Recordable.frame {entry : ReplicationLogEntry} (recordable : Recordable codec entry) :
    Frame codec entry (frameRecord codec entry) :=
  .around (codec.encode entry) recordable.nonempty recordable.fits recordable.decodes

theorem readFrame_torn (pre torn rest : Bytes) (entry : ReplicationLogEntry)
    (recordable : Recordable codec entry) (cut : torn ++ rest = frameRecord codec entry)
    (missing : rest ≠ []) :
    ∃ fault, readFrame codec (pre ++ torn) pre.length (pre ++ torn).length = .error fault := by
  have size : (frameRecord codec entry).length = _ := frameRecord_length entry
  have lengths := congrArg List.length cut
  have restPos := List.length_pos_of_ne_nil missing
  simp only [List.length_append] at lengths
  by_cases short : pre.length + 4 > (pre ++ torn).length
  · exact ⟨.lengthOverruns, by simp only [readFrame, recordLengthSize]; rw [if_pos short]⟩
  · -- The length field is whole, and it announces more bytes than are left.
    simp only [List.length_append] at short
    have fits := recordable.fits
    have field : getUint32 (pre ++ torn) pre.length = (codec.encode entry).length := by
      have whole := getUint32_setUint32 pre
        (codec.encode entry ++ setUint32 (crc32 (codec.encode entry)))
        (codec.encode entry).length (by simp only [maxWalRecordBytes] at fits; omega)
      have same : setUint32 (codec.encode entry).length
          ++ (codec.encode entry ++ setUint32 (crc32 (codec.encode entry))) = torn ++ rest := by
        rw [cut]; simp [frameRecord]
      rw [same] at whole
      simp only [getUint32, List.drop_left] at whole ⊢
      rwa [List.take_append_of_le_length (by omega)] at whole
    have nonempty := recordable.nonempty
    refine ⟨.recordOverruns, ?_⟩
    simp only [readFrame, recordLengthSize, frameCrcSize, field, List.length_append]
    rw [if_neg (by omega), if_neg (by omega), if_pos (by omega)]

theorem framed_frames (entries : List ReplicationLogEntry)
    (recordable : ∀ e ∈ entries, Recordable codec e) : Framed codec entries (frames codec entries) := by
  induction entries with
  | nil => exact .nil
  | cons entry rest ih =>
    rw [frames_cons]
    exact .cons (recordable entry (by simp)).frame (ih fun e later => recordable e (by simp [later]))

theorem readDurableFrames_frames (pre post : Bytes) (read entries : List ReplicationLogEntry)
    (recordable : ∀ e ∈ entries, Recordable codec e) (ascending : Ascending (read ++ entries)) :
    readDurableFrames codec (pre ++ (frames codec entries ++ post))
      (pre.length + (frames codec entries).length) pre.length read = .ok (read ++ entries) := by
  apply readDurableFrames_of_framed (framed_frames entries recordable) read (by omega) (by simp) ?_
    ascending
  rw [← List.append_assoc, List.take_left' (by simp), List.drop_left]

/-- What a crash may leave behind the last whole frame: nothing, or a proper
prefix of a frame. -/
def Torn (codec : EntryCodec) (tail : Bytes) : Prop :=
  tail = [] ∨ ∃ entry rest, Recordable codec entry ∧ rest ≠ [] ∧ tail ++ rest = frameRecord codec entry

theorem readTailFrames_frames (pre tail : Bytes) (previous : Nat)
    (read entries : List ReplicationLogEntry) (recordable : ∀ e ∈ entries, Recordable codec e)
    (ascending : Ascending entries) (above : ∀ e ∈ entries, previous < e.seqNo)
    (torn : Torn codec tail) :
    readTailFrames codec (pre ++ (frames codec entries ++ tail)) pre.length previous read
      = ⟨read ++ entries, pre.length + (frames codec entries).length⟩ := by
  induction entries generalizing pre previous read with
  | nil =>
    rw [readTailFrames]
    split
    · rcases torn with rfl | ⟨entry, rest, recordable, missing, cut⟩
      · simp at *
      · obtain ⟨fault, stops⟩ := readFrame_torn pre tail rest entry recordable cut missing
        simp only [frames_nil, List.nil_append, List.append_nil, List.length_nil, Nat.add_zero]
        split
        · rfl
        next succeeded => rw [stops] at succeeded; cases succeeded
    · simp
  | cons entry rest ih =>
    have whole := (recordable entry (by simp)).frame.read pre (frames codec rest ++ tail)
      (pre ++ (frames codec (entry :: rest) ++ tail)).length (by simp)
    have size : (frameRecord codec entry).length = _ := frameRecord_length entry
    rw [readTailFrames, if_pos (by rw [List.length_append, List.length_append, frames_cons, List.length_append, size]; omega)]
    have layout : pre ++ (frames codec (entry :: rest) ++ tail)
        = pre ++ (frameRecord codec entry ++ (frames codec rest ++ tail)) := by simp
    rw [layout] at whole ⊢
    split
    next fault failed => rw [whole] at failed; cases failed
    next parsed frameEnd succeeded =>
      rw [whole] at succeeded
      cases succeeded
      have higher := above entry (by simp)
      rw [if_neg (by omega)]
      have next := ih (pre ++ frameRecord codec entry) entry.seqNo (read ++ [entry])
        (fun e he => recordable e (by simp [he])) (List.pairwise_cons.mp ascending).2
        (List.pairwise_cons.mp ascending).1
      simpa [Nat.add_assoc] using next

theorem take_frames (entries : List ReplicationLogEntry)
    (recordable : ∀ e ∈ entries, Recordable codec e) (n : Nat) :
    ∃ k tail, k ≤ entries.length ∧ Torn codec tail ∧
      (frames codec entries).take n = frames codec (entries.take k) ++ tail ∧
      (∀ j, (frames codec (entries.take j)).length ≤ n → entries.take j <+: entries.take k) := by
  induction entries generalizing n with
  | nil => exact ⟨0, [], by simp, Or.inl rfl, by simp, by simp⟩
  | cons entry rest ih =>
    by_cases inside : n < (frameRecord codec entry).length
    · refine ⟨0, (frameRecord codec entry).take n, by simp, ?_, ?_, ?_⟩
      · refine Or.inr ⟨entry, (frameRecord codec entry).drop n, recordable entry (by simp), ?_,
          List.take_append_drop _ _⟩
        intro empty
        have := congrArg List.length empty
        simp at this
        omega
      · simp [List.take_append_of_le_length (Nat.le_of_lt inside)]
      · intro j fits
        cases j with
        | zero => simp
        | succ j => simp at fits; omega
    · obtain ⟨k, tail, bound, torn, cut, least⟩ :=
        ih (fun e he => recordable e (by simp [he])) (n - (frameRecord codec entry).length)
      refine ⟨k + 1, tail, by simpa using bound, torn, ?_, ?_⟩
      · rw [frames_cons, List.take_append, List.take_of_length_le (by omega), cut]
        simp
      · intro j fits
        cases j with
        | zero => simp
        | succ j =>
          simp only [List.take_succ_cons, frames_cons, List.length_append] at fits ⊢
          exact List.cons_prefix_cons.mpr ⟨rfl, least j (by omega)⟩

end Narsil.Durability
