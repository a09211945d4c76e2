import Narsil.Durability.LogReader

/-!
# What a read of the log returns

A source is read as its records from the first wanted one on, unless counting leads past its end.
-/
namespace Narsil.Durability

open Serialization

variable {codec : EntryCodec}

structure StoredSegment (codec : EntryCodec) where
  startSeqNo : Nat
  header : Bytes
  records : List (LogRecord codec)

def recordBytes (records : List (LogRecord codec)) : Bytes := records.flatMap LogRecord.bytes

def StoredSegment.bytes (segment : StoredSegment codec) : Bytes := segment.header ++ recordBytes segment.records

/-- Numbers ascend from the start of the segment on, with gaps anywhere. -/
structure StoredSegment.Valid (segment : StoredSegment codec) : Prop where
  headerSize : segment.header.length = segmentHeaderSize
  isHeader : checkSegmentHeader segment.header = .ok ()
  ascending : segment.records.Pairwise fun before after => before.entry.seqNo < after.entry.seqNo
  fromStart : ∀ record ∈ segment.records, segment.startSeqNo ≤ record.entry.seqNo

theorem recordBytes_cons (record : LogRecord codec) (rest : List (LogRecord codec)) :
    recordBytes (record :: rest) = record.bytes ++ recordBytes rest := List.flatMap_cons

theorem recordBytes_append (records others : List (LogRecord codec)) :
    recordBytes (records ++ others) = recordBytes records ++ recordBytes others := List.flatMap_append

theorem length_le_recordBytes (records : List (LogRecord codec)) : records.length ≤ (recordBytes records).length := by
  induction records with
  | nil => exact Nat.zero_le _
  | cons record rest ih =>
    rw [recordBytes_cons, List.length_append, List.length_cons, record.bytes_length]
    omega

section Frames
variable (afterSeqNo upToSeqNo maxBytes : Nat)

/-- The loop over frames, without the counting. -/
def readInTurn : List LogFrame → LogRead → Bool × LogRead
  | [], read => (false, read)
  | frame :: rest, read =>
    if frame.seqNo ≤ afterSeqNo then readInTurn rest read
    else if frame.seqNo > upToSeqNo then (true, read)
    else if read.frames.length > 0 ∧ read.bytes + frame.payload.length > maxBytes then (true, read)
    else if frame.seqNo = upToSeqNo then (true, read.push frame)
    else readInTurn rest (read.push frame)

variable {afterSeqNo upToSeqNo maxBytes} {frames others : List LogFrame} {read : LogRead}

theorem readInTurn_skip (before : ∀ frame ∈ frames, frame.seqNo ≤ afterSeqNo) :
    readInTurn afterSeqNo upToSeqNo maxBytes (frames ++ others) read =
      readInTurn afterSeqNo upToSeqNo maxBytes others read := by
  induction frames with
  | nil => rfl
  | cons frame rest ih =>
    obtain ⟨first, before⟩ := List.forall_mem_cons.mp before
    rw [List.cons_append, readInTurn, if_pos first, ih before]

theorem readInTurn_congr {other : Nat} (behind : ∀ frame ∈ frames, afterSeqNo < frame.seqNo ∧ other < frame.seqNo) :
    readInTurn afterSeqNo upToSeqNo maxBytes frames read = readInTurn other upToSeqNo maxBytes frames read := by
  induction frames generalizing read with
  | nil => rfl
  | cons frame rest ih =>
    obtain ⟨first, behind⟩ := List.forall_mem_cons.mp behind
    have later : ¬ frame.seqNo ≤ afterSeqNo := by omega
    have later' : ¬ frame.seqNo ≤ other := by omega
    rw [readInTurn, readInTurn, if_neg later, if_neg later', ih behind]

theorem readInTurn_append (read : LogRead) : readInTurn afterSeqNo upToSeqNo maxBytes (frames ++ others) read =
    match readInTurn afterSeqNo upToSeqNo maxBytes frames read with
    | (true, found) => (true, found)
    | (false, found) => readInTurn afterSeqNo upToSeqNo maxBytes others found := by
  induction frames generalizing read with
  | nil => rfl
  | cons frame rest ih =>
    rw [List.cons_append, readInTurn, readInTurn]
    split
    · exact ih read
    · split
      · rfl
      · split
        · rfl
        · split
          · rfl
          · exact ih _

theorem mem_readInTurn {frame : LogFrame}
    (member : frame ∈ (readInTurn afterSeqNo upToSeqNo maxBytes frames read).2.frames) :
    frame ∈ read.frames ∨ frame ∈ frames := by
  induction frames generalizing read with
  | nil => exact .inl member
  | cons first rest ih =>
    have pushed : frame ∈ (read.push first).frames → frame ∈ read.frames ∨ frame ∈ first :: rest := by
      intro inside
      rcases List.mem_append.mp inside with old | new
      · exact .inl old
      · exact .inr (List.mem_cons.mpr (.inl (List.mem_singleton.mp new)))
    rw [readInTurn] at member
    split at member
    · exact (ih member).imp_right (List.mem_cons_of_mem _)
    · split at member
      · exact .inl member
      · split at member
        · exact .inl member
        · split at member
          · exact pushed member
          · rcases ih member with old | new
            · exact pushed old
            · exact .inr (List.mem_cons_of_mem _ new)

end Frames

def totalBytes (frames : List LogFrame) : Nat := (frames.map fun frame => frame.payload.length).sum

theorem totalBytes_cons (frame : LogFrame) (rest : List LogFrame) :
    totalBytes (frame :: rest) = frame.payload.length + totalBytes rest := List.sum_cons

theorem totalBytes_append (frames others : List LogFrame) :
    totalBytes (frames ++ others) = totalBytes frames + totalBytes others := by
  rw [totalBytes, List.map_append, List.sum_append, totalBytes, totalBytes]

def wantedFrames (afterSeqNo upToSeqNo : Nat) (frames : List LogFrame) : List LogFrame :=
  frames.filter fun frame => decide (afterSeqNo < frame.seqNo) && decide (frame.seqNo ≤ upToSeqNo)

/-- The longest run from the front that fits the limit, a single frame fitting any limit. -/
structure LongestRun (maxBytes : Nat) (wanted run : List LogFrame) : Prop where
  starts : run <+: wanted
  fits : run.length ≤ 1 ∨ totalBytes run ≤ maxBytes
  longest : ∀ other, other <+: wanted → (other.length ≤ 1 ∨ totalBytes other ≤ maxBytes) → other.length ≤ run.length

section Longest
variable {afterSeqNo upToSeqNo maxBytes : Nat} {frames : List LogFrame}

theorem wantedFrames_beyond (beyond : ∀ frame ∈ frames, upToSeqNo < frame.seqNo) :
    wantedFrames afterSeqNo upToSeqNo frames = [] := by
  refine List.filter_eq_nil_iff.mpr fun frame member => ?_
  have high := beyond frame member
  simp
  omega

theorem wantedFrames_nothing (none_ : upToSeqNo ≤ afterSeqNo) (frames : List LogFrame) :
    wantedFrames afterSeqNo upToSeqNo frames = [] := by
  refine List.filter_eq_nil_iff.mpr fun frame _ => ?_
  simp
  omega

theorem readInTurn_spec (ascending : frames.Pairwise fun before after => before.seqNo < after.seqNo) (read : LogRead) :
    ∃ run, (readInTurn afterSeqNo upToSeqNo maxBytes frames read).2 =
        { read with frames := read.frames ++ run, bytes := read.bytes + totalBytes run } ∧
      run <+: wantedFrames afterSeqNo upToSeqNo frames ∧
      (run = [] ∨ (read.frames ++ run).length ≤ 1 ∨ read.bytes + totalBytes run ≤ maxBytes) ∧
      (run = wantedFrames afterSeqNo upToSeqNo frames ∨ ∃ next,
        run ++ [next] <+: wantedFrames afterSeqNo upToSeqNo frames ∧ 0 < (read.frames ++ run).length ∧
          maxBytes < read.bytes + totalBytes run + next.payload.length) := by
  induction frames generalizing read with
  | nil => exact ⟨[], by simp [readInTurn, totalBytes], List.nil_prefix, .inl rfl, .inl rfl⟩
  | cons frame rest ih =>
    obtain ⟨above, ascending⟩ := List.pairwise_cons.mp ascending
    rw [readInTurn]
    by_cases passed : frame.seqNo ≤ afterSeqNo
    · have same : wantedFrames afterSeqNo upToSeqNo (frame :: rest) = wantedFrames afterSeqNo upToSeqNo rest :=
        List.filter_cons_of_neg (by simp; omega)
      rw [if_pos passed, same]
      exact ih ascending read
    · rw [if_neg passed]
      by_cases beyond : frame.seqNo > upToSeqNo
      · have nothing : wantedFrames afterSeqNo upToSeqNo (frame :: rest) = [] := by
          refine wantedFrames_beyond (List.forall_mem_cons.mpr ⟨beyond, fun later member => ?_⟩)
          have := above later member
          omega
        rw [if_pos beyond, nothing]
        exact ⟨[], by simp [totalBytes], List.nil_prefix, .inl rfl, .inl rfl⟩
      · have same : wantedFrames afterSeqNo upToSeqNo (frame :: rest) =
            frame :: wantedFrames afterSeqNo upToSeqNo rest := List.filter_cons_of_pos (by simp; omega)
        rw [if_neg beyond, same]
        by_cases full : read.frames.length > 0 ∧ read.bytes + frame.payload.length > maxBytes
        · rw [if_pos full]
          exact ⟨[], by simp [totalBytes], List.nil_prefix, .inl rfl,
            .inr ⟨frame, by simp, by simpa using full.1, by simpa [totalBytes] using full.2⟩⟩
        · rw [if_neg full]
          have pushed_fits : (read.frames ++ [frame]).length ≤ 1 ∨ read.bytes + totalBytes [frame] ≤ maxBytes := by
            simp only [List.length_append, List.length_singleton, totalBytes_cons]
            simp only [totalBytes, List.map_nil, List.sum_nil]
            omega
          by_cases last : frame.seqNo = upToSeqNo
          · have nothing : wantedFrames afterSeqNo upToSeqNo rest = [] := by
              refine wantedFrames_beyond fun later member => ?_
              have := above later member
              omega
            rw [if_pos last, nothing]
            exact ⟨[frame], by simp [LogRead.push, totalBytes], List.prefix_rfl, .inr pushed_fits, .inl rfl⟩
          · rw [if_neg last]
            obtain ⟨run, result, starts, fits, ends⟩ := ih ascending (read.push frame)
            refine ⟨frame :: run, ?_, by simpa using starts, ?_, ?_⟩
            · rw [result]
              simp [LogRead.push, totalBytes_cons, Nat.add_assoc]
            · right
              rcases fits with rfl | fits
              · exact pushed_fits
              · simpa [LogRead.push, totalBytes_cons, Nat.add_assoc] using fits
            · rcases ends with rfl | ⟨next, more, positive, tooMuch⟩
              · exact .inl rfl
              · refine .inr ⟨next, by simpa using more, by rw [List.length_append, List.length_cons]; omega, ?_⟩
                simpa [LogRead.push, totalBytes_cons, Nat.add_assoc] using tooMuch

theorem readInTurn_longest (ascending : frames.Pairwise fun before after => before.seqNo < after.seqNo) :
    ∃ run, (readInTurn afterSeqNo upToSeqNo maxBytes frames ⟨[], 0, false⟩).2 = ⟨run, totalBytes run, false⟩ ∧
      LongestRun maxBytes (wantedFrames afterSeqNo upToSeqNo frames) run := by
  obtain ⟨run, result, starts, fits, ends⟩ := readInTurn_spec ascending ⟨[], 0, false⟩
  simp only [List.nil_append, Nat.zero_add] at result fits ends
  refine ⟨run, result, starts, ?_, fun other isPrefix small => ?_⟩
  · rcases fits with rfl | fits
    · exact .inl (Nat.zero_le _)
    · exact fits
  · rcases ends with rfl | ⟨next, more, positive, tooMuch⟩
    · exact isPrefix.length_le
    · by_contra longer
      have within : run ++ [next] <+: other := by
        refine List.prefix_of_prefix_length_le more isPrefix ?_
        rw [List.length_append, List.length_singleton]
        omega
      obtain ⟨rest, rfl⟩ := within
      simp only [totalBytes_append, totalBytes_cons, List.length_append, List.length_singleton] at small
      omega

end Longest

section Source
variable {file : Bytes} {cursor : CursorFile} {startSeqNo afterSeqNo upToSeqNo maxBytes : Nat}

theorem offsetAfter_yields (readable : Readable cursor file) (records : List (LogRecord codec)) (skip : Nat) {offset : Nat}
    {more : Bytes} (here : file.drop offset = recordBytes records ++ more)
    (ends : offset + (recordBytes records).length = cursor.limit) :
    Yields file (offsetAfter cursor skip offset) (offset + (recordBytes (records.take skip)).length) := by
  induction skip generalizing records offset with
  | zero => exact .pure _
  | succ skip ih =>
    rw [offsetAfter]
    cases records with
    | nil =>
      rw [recordBytes, List.flatMap_nil, List.length_nil] at ends
      rw [if_neg (by omega)]
      exact .pure _
    | cons record rest =>
      rw [recordBytes_cons, List.length_append] at ends
      rw [recordBytes_cons, List.append_assoc] at here
      have size := record.bytes_length
      rw [if_pos (by omega)]
      have behind : file.drop (offset + record.bytes.length) = recordBytes rest ++ more := by
        rw [← List.drop_drop, here, List.drop_left]
      have next := ih rest behind (by omega)
      rw [List.take_succ_cons, recordBytes_cons, List.length_append, ← Nat.add_assoc]
      exact (frameLengthAt_yields readable here (by omega)).bind next

theorem readFrames_yields (readable : Readable cursor file) (records : List (LogRecord codec)) {steps offset : Nat}
    (checksNumbering : Bool) (read : LogRead) {more : Bytes} (here : file.drop offset = recordBytes records ++ more)
    (ends : offset + (recordBytes records).length = cursor.limit) (enough : records.length < steps)
    (kept : ∀ record ∈ records.head?, ¬ (checksNumbering = true ∧ record.frame.seqNo ≠ max (afterSeqNo + 1) startSeqNo ∧
      record.frame.seqNo > afterSeqNo)) :
    Yields file (readFrames codec cursor startSeqNo afterSeqNo upToSeqNo maxBytes steps offset checksNumbering read)
      (readInTurn afterSeqNo upToSeqNo maxBytes (records.map LogRecord.frame) read) := by
  induction records generalizing steps offset checksNumbering read with
  | nil =>
    obtain ⟨steps, rfl⟩ := Nat.exists_eq_succ_of_ne_zero (Nat.ne_of_gt enough)
    rw [recordBytes, List.flatMap_nil, List.length_nil] at ends
    rw [readFrames, if_neg (by omega)]
    exact .pure _
  | cons record rest ih =>
    obtain ⟨steps, rfl⟩ := Nat.exists_eq_succ_of_ne_zero (Nat.ne_of_gt (Nat.lt_of_le_of_lt (Nat.zero_le _) enough))
    rw [recordBytes_cons, List.length_append] at ends
    rw [recordBytes_cons, List.append_assoc] at here
    rw [List.length_cons] at enough
    have size := record.bytes_length
    have behind : file.drop (offset + record.bytes.length) = recordBytes rest ++ more := by
      rw [← List.drop_drop, here, List.drop_left]
    have unchecked : ∀ record ∈ rest.head?, ¬ (false = true ∧ record.frame.seqNo ≠ max (afterSeqNo + 1) startSeqNo ∧
        record.frame.seqNo > afterSeqNo) := fun _ _ checks => Bool.noConfusion checks.1
    have ends_behind : offset + record.bytes.length + (recordBytes rest).length = cursor.limit := by omega
    rw [readFrames, if_pos (by omega)]
    refine (frameLengthAt_yields readable here (by omega)).bind ((frameAt_yields readable here (by omega)).bind ?_)
    rw [if_neg (kept record rfl), List.map_cons, readInTurn]
    by_cases passed : record.frame.seqNo ≤ afterSeqNo
    · simp only [if_pos passed]
      exact ih false read behind ends_behind (by omega) unchecked
    · simp only [if_neg passed]
      by_cases beyond : record.frame.seqNo > upToSeqNo
      · simp only [if_pos beyond]
        exact .pure _
      · simp only [if_neg beyond]
        by_cases full : read.frames.length > 0 ∧ read.bytes + record.frame.payload.length > maxBytes
        · simp only [if_pos full]
          exact .pure _
        · simp only [if_neg full]
          by_cases last : record.frame.seqNo = upToSeqNo
          · simp only [if_pos last]
            exact .pure _
          · simp only [if_neg last]
            exact ih false _ behind ends_behind (by omega) unchecked

theorem readFrames_counted (readable : Readable cursor file) {before : List (LogRecord codec)} {record : LogRecord codec}
    {rest : List (LogRecord codec)} {steps : Nat} (read : LogRead) {more : Bytes}
    (all : file.drop segmentHeaderSize = recordBytes (before ++ record :: rest) ++ more)
    (ends : segmentHeaderSize + (recordBytes (before ++ record :: rest)).length = cursor.limit)
    (enough : (before ++ record :: rest).length + 1 < steps) (wanted : afterSeqNo < record.frame.seqNo)
    (counted : record.frame.seqNo = max (afterSeqNo + 1) startSeqNo →
      ∀ frame ∈ before.map LogRecord.frame, frame.seqNo ≤ afterSeqNo) :
    Yields file (readFrames codec cursor startSeqNo afterSeqNo upToSeqNo maxBytes steps
        (segmentHeaderSize + (recordBytes before).length) true read)
      (readInTurn afterSeqNo upToSeqNo maxBytes ((before ++ record :: rest).map LogRecord.frame) read) := by
  obtain ⟨steps, rfl⟩ := Nat.exists_eq_succ_of_ne_zero (Nat.ne_of_gt (Nat.lt_of_le_of_lt (Nat.zero_le _) enough))
  have size := record.bytes_length
  have here : file.drop (segmentHeaderSize + (recordBytes before).length) = recordBytes (record :: rest) ++ more := by
    rw [← List.drop_drop, all, recordBytes_append, List.append_assoc, List.drop_left]
  have ends_here := ends
  rw [recordBytes_append, List.length_append, ← Nat.add_assoc] at ends_here
  have first := here
  rw [recordBytes_cons, List.append_assoc] at first
  have inside : segmentHeaderSize + (recordBytes before).length + record.bytes.length ≤ cursor.limit := by
    rw [recordBytes_cons, List.length_append] at ends_here
    omega
  by_cases same : record.frame.seqNo = max (afterSeqNo + 1) startSeqNo
  · rw [List.map_append, readInTurn_skip (counted same)]
    refine readFrames_yields readable (record :: rest) true read here ends_here ?_ ?_
    · rw [List.length_append] at enough
      omega
    · rintro _ ⟨⟩
      exact fun checks => checks.2.1 same
  · rw [readFrames, if_pos (by omega)]
    refine (frameLengthAt_yields readable first inside).bind ((frameAt_yields readable first inside).bind ?_)
    rw [if_pos ⟨rfl, same, wanted⟩]
    exact readFrames_yields readable _ false read all ends (by omega) fun _ _ checks => Bool.noConfusion checks.1

theorem counted_le {records before rest : List (LogRecord codec)} {record : LogRecord codec} {start : Nat}
    (ascending : records.Pairwise fun before after => before.entry.seqNo < after.entry.seqNo)
    (fromStart : ∀ record ∈ records, start ≤ record.entry.seqNo) (split : records = before ++ record :: rest) :
    start + before.length ≤ record.frame.seqNo := by
  induction before generalizing records start with
  | nil => exact fromStart record (by rw [split]; exact List.mem_cons_self)
  | cons first before ih =>
    subst split
    obtain ⟨above, ascending⟩ := List.pairwise_cons.mp ascending
    have low := fromStart first List.mem_cons_self
    have step := @ih _ (first.entry.seqNo + 1) ascending (fun other member => above other member) rfl
    rw [List.length_cons]
    omega

end Source

/-- A source whose readable bytes are those of the segment. -/
structure Backed (directory : PartitionDirectory) (source : LogSource) (segment : StoredSegment codec) : Prop where
  starts : source.startSeqNo = segment.startSeqNo
  stored : ∃ file, directory.file source.key = some file ∧ file.take source.readableBytes = segment.bytes ∧
    source.readableBytes ≤ file.length

/-- The segment counts past its end: none of its records is looked at. -/
def CountsPast (segment : StoredSegment codec) (afterSeqNo : Nat) : Prop :=
  segment.records.length ≤ afterSeqNo + 1 - segment.startSeqNo

instance (segment : StoredSegment codec) (afterSeqNo : Nat) : Decidable (CountsPast segment afterSeqNo) :=
  inferInstanceAs (Decidable (_ ≤ _))

def StoredSegment.frames (segment : StoredSegment codec) : List LogFrame := segment.records.map LogRecord.frame

theorem readSource_reads {directory : PartitionDirectory} {source : LogSource} {segment : StoredSegment codec}
    (valid : segment.Valid) (backed : Backed directory source segment) (afterSeqNo upToSeqNo maxBytes : Nat)
    (read : LogRead) : readSource codec directory source afterSeqNo upToSeqNo maxBytes read =
      .ok (if CountsPast segment afterSeqNo then (false, read)
        else readInTurn afterSeqNo upToSeqNo maxBytes segment.frames read) := by
  obtain ⟨starts, file, present, bytes, within⟩ := backed
  have readable : Readable (source.cursor directory) file := ⟨present, within⟩
  have front : file = segment.bytes ++ file.drop source.readableBytes := by
    rw [← bytes, List.take_append_drop]
  have size : source.readableBytes = segmentHeaderSize + (recordBytes segment.records).length := by
    have length := congrArg List.length bytes
    rw [List.length_take_of_le within, StoredSegment.bytes, List.length_append, valid.headerSize] at length
    exact length
  have header : checkSegmentHeader (file.take segmentHeaderSize) = .ok () := by
    rw [front, StoredSegment.bytes, List.append_assoc, ← valid.headerSize, List.take_left]
    exact valid.isHeader
  have all : file.drop segmentHeaderSize = recordBytes segment.records ++ file.drop source.readableBytes := by
    conv => lhs; rw [front]
    rw [StoredSegment.bytes, List.append_assoc, ← valid.headerSize, List.drop_left]
  have ends : segmentHeaderSize + (recordBytes segment.records).length = (source.cursor directory).limit := size.symm
  have few := length_le_recordBytes segment.records
  have counts := offsetAfter_yields readable segment.records (afterSeqNo + 1 - source.startSeqNo) all ends
  have reads : Yields file (do
      checkHeader (source.cursor directory)
      let offset ← offsetAfter (source.cursor directory) (afterSeqNo + 1 - source.startSeqNo) segmentHeaderSize
      readFrames codec (source.cursor directory) source.startSeqNo afterSeqNo upToSeqNo maxBytes
        (2 * source.readableBytes + 2) offset true read)
      (if CountsPast segment afterSeqNo then (false, read)
        else readInTurn afterSeqNo upToSeqNo maxBytes segment.frames read) := by
    refine (checkHeader_yields readable (by rw [← ends]; omega) header).bind (counts.bind ?_)
    rw [starts]
    by_cases past : CountsPast segment afterSeqNo
    · rw [if_pos past, List.take_of_length_le past, readFrames, if_neg (by rw [← ends]; omega)]
      exact .pure _
    · rw [if_neg past]
      have inside : afterSeqNo + 1 - segment.startSeqNo < segment.records.length := Nat.lt_of_not_ge past
      -- The records that were counted, the one they lead to, and the others.
      have split := (List.take_append_drop (afterSeqNo + 1 - segment.startSeqNo) segment.records).symm
      rw [List.drop_eq_getElem_cons inside] at split
      have low := counted_le valid.ascending valid.fromStart split
      rw [List.length_take_of_le (Nat.le_of_lt inside)] at low
      rw [StoredSegment.frames]
      have enough : segment.records.length + 1 < 2 * source.readableBytes + 2 := by omega
      have ascending := valid.ascending
      rw [split] at all ends enough ascending
      have counted : (segment.records[afterSeqNo + 1 - segment.startSeqNo]).frame.seqNo =
          max (afterSeqNo + 1) segment.startSeqNo →
            ∀ frame ∈ (segment.records.take (afterSeqNo + 1 - segment.startSeqNo)).map LogRecord.frame,
              frame.seqNo ≤ afterSeqNo := by
        intro same frame member
        obtain ⟨earlier, inTaken, rfl⟩ := List.mem_map.mp member
        have before := (List.pairwise_append.mp ascending).2.2 earlier inTaken _ List.mem_cons_self
        have some_skip : 0 < afterSeqNo + 1 - segment.startSeqNo := by
          by_contra none_
          rw [Nat.eq_zero_of_not_pos none_, List.take_zero] at inTaken
          exact List.not_mem_nil inTaken
        have lt : earlier.frame.seqNo < (segment.records[afterSeqNo + 1 - segment.startSeqNo]).frame.seqNo := before
        omega
      have read_all := @readFrames_counted codec file (source.cursor directory) segment.startSeqNo afterSeqNo upToSeqNo
        maxBytes readable _ _ _ _ read _ all ends enough (by omega) counted
      rw [← split] at read_all
      exact read_all
  obtain ⟨after, done, -⟩ := reads CursorState.fresh (Follows.fresh file)
  rw [readSource]
  exact congrArg (Except.map Prod.fst) done

section Sources
variable {directory : PartitionDirectory} {afterSeqNo upToSeqNo maxBytes : Nat}

def framesOf (segments : List (StoredSegment codec)) : List LogFrame := segments.flatMap StoredSegment.frames

/-- Valid segments, each behind the records of those before it. -/
structure Stored (segments : List (StoredSegment codec)) : Prop where
  valid : ∀ segment ∈ segments, segment.Valid
  ordered : segments.Pairwise fun before after =>
    before.startSeqNo < after.startSeqNo ∧ ∀ record ∈ before.records, record.entry.seqNo < after.startSeqNo

theorem Stored.tail {segment : StoredSegment codec} {rest : List (StoredSegment codec)} (stored : Stored (segment :: rest)) :
    Stored rest :=
  ⟨(List.forall_mem_cons.mp stored.valid).2, (List.pairwise_cons.mp stored.ordered).2⟩

theorem mem_framesOf {segments : List (StoredSegment codec)} {frame : LogFrame} : frame ∈ framesOf segments ↔
    ∃ segment ∈ segments, ∃ record ∈ segment.records, record.frame = frame := by
  simp only [framesOf, List.mem_flatMap, StoredSegment.frames, List.mem_map]

theorem Stored.ascending {segments : List (StoredSegment codec)} (stored : Stored segments) :
    (framesOf segments).Pairwise fun before after => before.seqNo < after.seqNo := by
  induction segments with
  | nil => exact .nil
  | cons segment rest ih =>
    have valid := stored.valid segment List.mem_cons_self
    obtain ⟨behind, -⟩ := List.pairwise_cons.mp stored.ordered
    refine List.pairwise_append.mpr ⟨List.pairwise_map.mpr valid.ascending, ih stored.tail, fun before inFirst after later => ?_⟩
    obtain ⟨record, inside, rfl⟩ := List.mem_map.mp inFirst
    obtain ⟨other, isOther, entry, within, rfl⟩ := mem_framesOf.mp later
    have low : record.frame.seqNo < other.startSeqNo := (behind other isOther).2 record inside
    have high : other.startSeqNo ≤ entry.frame.seqNo := (stored.valid other (List.mem_cons_of_mem _ isOther)).fromStart entry within
    omega

/-- The number a source is read from: the last one that was read. -/
def lastRead (afterSeqNo : Nat) (read : LogRead) : Nat :=
  max afterSeqNo ((read.frames.getLast?.map LogFrame.seqNo).getD afterSeqNo)

theorem lastRead_lt {read : LogRead} {bound : Nat} (after : afterSeqNo < bound) (frames : ∀ frame ∈ read.frames, frame.seqNo < bound) :
    lastRead afterSeqNo read < bound := by
  rw [lastRead]
  cases last : read.frames.getLast? with
  | none => simpa using after
  | some frame =>
    have low := frames frame (List.mem_of_getLast? last)
    simp only [Option.map_some, Option.getD_some]
    omega

theorem readSources_reads {sources : List LogSource} {segments : List (StoredSegment codec)}
    (backed : List.Forall₂ (Backed directory) sources segments) (stored : Stored segments) (read : LogRead)
    (after : ∀ segment ∈ segments, afterSeqNo < segment.startSeqNo ∧ ∀ frame ∈ read.frames, frame.seqNo < segment.startSeqNo) :
    readSources codec directory afterSeqNo upToSeqNo maxBytes sources read =
      .ok (readInTurn afterSeqNo upToSeqNo maxBytes (framesOf segments) read).2 := by
  induction backed generalizing read with
  | nil => rfl
  | @cons source segment sources segments first _ ih =>
    obtain ⟨⟨behind, behindRead⟩, others⟩ := List.forall_mem_cons.mp after
    have valid := stored.valid segment List.mem_cons_self
    obtain ⟨order, -⟩ := List.pairwise_cons.mp stored.ordered
    have low := lastRead_lt behind behindRead
    have same : (if CountsPast segment (lastRead afterSeqNo read) then (false, read)
        else readInTurn (lastRead afterSeqNo read) upToSeqNo maxBytes segment.frames read) =
          readInTurn afterSeqNo upToSeqNo maxBytes segment.frames read := by
      have congr : readInTurn (lastRead afterSeqNo read) upToSeqNo maxBytes segment.frames read =
          readInTurn afterSeqNo upToSeqNo maxBytes segment.frames read := by
        refine readInTurn_congr fun frame member => ?_
        obtain ⟨record, inside, rfl⟩ := List.mem_map.mp member
        have high : segment.startSeqNo ≤ record.frame.seqNo := valid.fromStart record inside
        omega
      split
      · next past =>
        -- Nothing is skipped in a segment behind the position, so only an empty one ends the counting.
        have empty : segment.records = [] := List.length_eq_zero_iff.mp (by rw [CountsPast] at past; omega)
        rw [StoredSegment.frames, empty]
        rfl
      · exact congr
    rw [readSources, ← lastRead, readSource_reads valid first, same, framesOf, List.flatMap_cons, readInTurn_append]
    cases found : readInTurn afterSeqNo upToSeqNo maxBytes segment.frames read with
    | mk done next =>
      cases done with
      | true => rfl
      | false =>
        refine ih stored.tail next fun other isOther => ⟨(others other isOther).1, fun frame member => ?_⟩
        have held : frame ∈ (readInTurn afterSeqNo upToSeqNo maxBytes segment.frames read).2.frames := by
          rw [found]
          exact member
        rcases mem_readInTurn held with old | new
        · exact (others other isOther).2 frame old
        · obtain ⟨record, inside, rfl⟩ := List.mem_map.mp new
          exact (order other isOther).2 record inside

end Sources

end Narsil.Durability
