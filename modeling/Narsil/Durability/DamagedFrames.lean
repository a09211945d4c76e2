import Narsil.Durability.ExactFraming
import Narsil.Serialization.Crc32Combine

/-!
# Damaged records of the log

A record with a run of other bytes in its payload fails its checksum. The strict reader refuses
the region, and the lenient one stops before the record.
-/
namespace Narsil.Durability

open Serialization

variable {codec : EntryCodec} {entry : ReplicationLogEntry} {found : Bytes}

/-- The record of an entry as it is found on the disk. -/
def damagedRecord (codec : EntryCodec) (entry : ReplicationLogEntry) (found : Bytes) : Bytes :=
  setUint32 (codec.encode entry).length ++ (found ++ setUint32 (crc32 (codec.encode entry)))

/-- A record that can be written, with other bytes in one run of its payload. -/
structure DamagedRecord (codec : EntryCodec) (entry : ReplicationLogEntry) (found : Bytes) : Prop where
  recordable : Recordable codec entry
  damaged : Damaged (codec.encode entry) found
  other : found ≠ codec.encode entry

theorem DamagedRecord.length (record : DamagedRecord codec entry found) :
    found.length = (codec.encode entry).length := by
  obtain ⟨front, burst, others, back, written, rfl, same, -⟩ := record.damaged
  rw [written]
  simp only [List.length_append, same]

theorem readFrame_damaged (record : DamagedRecord codec entry found) (pre post : Bytes) {limit : Nat}
    (within : pre.length + (damagedRecord codec entry found).length ≤ limit) :
    readFrame codec (pre ++ (damagedRecord codec entry found ++ post)) pre.length limit = .error .checksumMismatch := by
  -- The length field is the one written, so the payload found is what the checksum is tested against.
  have size := record.length
  have nonempty := record.recordable.nonempty
  have fits := record.recordable.fits
  have small : (codec.encode entry).length < 2 ^ 32 := by
    simp only [maxWalRecordBytes] at fits
    omega
  have length := getUint32_setUint32 pre (found ++ (setUint32 (crc32 (codec.encode entry)) ++ post)) _ small
  have checksum := getUint32_setUint32 (pre ++ (setUint32 (codec.encode entry).length ++ found)) post
    (crc32 (codec.encode entry)) (crc32_lt _)
  have crcStart : (pre ++ (setUint32 (codec.encode entry).length ++ found)).length =
      pre.length + 4 + (codec.encode entry).length := by
    simp only [List.length_append, setUint32_length, size]
    omega
  have body : ((pre ++ (setUint32 (codec.encode entry).length ++ (found ++ (setUint32 (crc32 (codec.encode entry)) ++
      post)))).drop (pre.length + 4)).take (codec.encode entry).length = found := by
    rw [← List.append_assoc, List.drop_left' (by simp), ← size, List.take_left' rfl]
  have differs : crc32 found ≠ crc32 (codec.encode entry) := fun equal => record.other (record.damaged.same equal)
  simp only [damagedRecord, List.length_append, setUint32_length] at within
  rw [crcStart] at checksum
  simp only [List.append_assoc] at checksum
  simp only [damagedRecord, readFrame, recordLengthSize, frameCrcSize, List.append_assoc, length, body, checksum]
  rw [if_neg (by omega), if_neg (by omega), if_neg (by omega), if_pos differs]

/-- The strict reader comes to the record and fails there. -/
theorem readDurableFrames_damaged (record : DamagedRecord codec entry found) (pre post : Bytes) {stop : Nat}
    (read before : List ReplicationLogEntry) (recordable : ∀ e ∈ before, Recordable codec e)
    (ascending : Ascending (read ++ before))
    (within : pre.length + (frames codec before).length + (damagedRecord codec entry found).length ≤ stop) :
    readDurableFrames codec (pre ++ (frames codec before ++ (damagedRecord codec entry found ++ post))) stop pre.length
      read = .error (corrupt FrameFault.checksumMismatch.message) := by
  have some_bytes : 0 < (damagedRecord codec entry found).length := by
    simp only [damagedRecord, List.length_append, setUint32_length]
    omega
  -- The induction is on the records before the damaged one, each of which is whole.
  induction before generalizing pre read with
  | nil =>
    have fails := readFrame_damaged record pre post within
    rw [frames_nil, List.nil_append, readDurableFrames, if_pos (by omega)]
    split
    next fault failed => rw [fails] at failed; cases failed; rfl
    next succeeded => rw [fails] at succeeded; cases succeeded
  | cons first rest ih =>
    rw [frames_cons, List.length_append] at within
    have size := @frameRecord_length codec first
    have whole := (recordable first List.mem_cons_self).frame.read pre (frames codec rest ++
      (damagedRecord codec entry found ++ post)) stop (by omega)
    rw [frames_cons, List.append_assoc, readDurableFrames, if_pos (by omega)]
    split
    next fault failed => rw [whole] at failed; cases failed
    next parsed frameEnd succeeded =>
      rw [whole] at succeeded
      cases succeeded
      have follows : ¬ (read.getLast?.any fun previous => decide (first.seqNo ≤ previous.seqNo)) := by
        cases last : read.getLast? with
        | none => simp
        | some previous => simpa using ascending.lt_of_append (List.mem_of_getLast? last) (List.mem_cons_self ..)
      rw [if_neg follows]
      have next := ih (pre ++ frameRecord codec first) (read ++ [first])
        (fun e here => recordable e (List.mem_cons_of_mem _ here)) (by simpa using ascending) (by rw [List.length_append]; omega)
      simpa [Nat.add_assoc] using next

/-- The lenient reader has read what stands before the record when it stops. -/
theorem readTailFrames_damaged (record : DamagedRecord codec entry found) (pre post : Bytes) (previous : Nat)
    (read before : List ReplicationLogEntry) (recordable : ∀ e ∈ before, Recordable codec e)
    (ascending : Ascending before) (above : ∀ e ∈ before, previous < e.seqNo) :
    readTailFrames codec (pre ++ (frames codec before ++ (damagedRecord codec entry found ++ post))) pre.length previous
      read = ⟨read ++ before, pre.length + (frames codec before).length⟩ := by
  induction before generalizing pre previous read with
  | nil =>
    have inside : pre.length + (damagedRecord codec entry found).length ≤
        (pre ++ (damagedRecord codec entry found ++ post)).length := by
      simp only [List.length_append]
      omega
    have fails := readFrame_damaged record pre post inside
    rw [frames_nil, List.nil_append, readTailFrames]
    split
    · split
      · simp
      next succeeded => rw [fails] at succeeded; cases succeeded
    · simp
  | cons first rest ih =>
    have size := @frameRecord_length codec first
    have whole := (recordable first List.mem_cons_self).frame.read pre (frames codec rest ++
      (damagedRecord codec entry found ++ post)) (pre ++ (frameRecord codec first ++ (frames codec rest ++
      (damagedRecord codec entry found ++ post)))).length (by simp only [List.length_append]; omega)
    rw [frames_cons, List.append_assoc, readTailFrames, if_pos (by simp only [List.length_append]; omega)]
    split
    next fault failed => rw [whole] at failed; cases failed
    next parsed frameEnd succeeded =>
      rw [whole] at succeeded
      cases succeeded
      have higher := above first List.mem_cons_self
      rw [if_neg (by omega)]
      have next := ih (pre ++ frameRecord codec first) first.seqNo (read ++ [first])
        (fun e here => recordable e (List.mem_cons_of_mem _ here)) (List.pairwise_cons.mp ascending).2
        (List.pairwise_cons.mp ascending).1
      simpa [Nat.add_assoc] using next

/-- Whatever stands before and behind a damaged record, no reader gives an entry for it. -/
theorem damagedRecord_never_read (record : DamagedRecord codec entry found) (covered before : List ReplicationLogEntry)
    (post : Bytes) (recordable : ∀ e ∈ covered ++ before, Recordable codec e) (ascending : Ascending (covered ++ before))
    (lastDurableSeqNo : Nat) (above : ∀ e ∈ before, lastDurableSeqNo < e.seqNo) :
    let written := segmentBytes codec (covered ++ before)
    let data := written ++ (damagedRecord codec entry found ++ post)
    (∀ durableByteLength, written.length + (damagedRecord codec entry found).length ≤ durableByteLength →
      durableByteLength ≤ data.length →
      readDurableRegion codec data durableByteLength = .error (corrupt FrameFault.checksumMismatch.message)) ∧
    readTailBeyondFrontier codec data (segmentBytes codec covered).length lastDurableSeqNo = ⟨before, written.length⟩ := by
  intro written data
  constructor
  · intro durableByteLength reaches inside
    have within : writeSegmentHeader.length + (frames codec (covered ++ before)).length +
        (damagedRecord codec entry found).length ≤ durableByteLength := by
      rwa [← List.length_append]
    have fails := readDurableFrames_damaged record writeSegmentHeader post [] (covered ++ before) recordable
      (by simpa using ascending) within
    simp only [data, written, segmentBytes, List.append_assoc, readDurableRegion, checkSegmentHeader_written] at inside ⊢
    rw [if_neg (by simp only [written, segmentBytes, List.length_append, writeSegmentHeader_length] at reaches; omega)]
    exact fails
  · have layout : data = segmentBytes codec covered ++
        (frames codec before ++ (damagedRecord codec entry found ++ post)) := by
      simp only [data, written, segmentBytes, frames_append, List.append_assoc]
    have least : segmentHeaderSize ≤ (segmentBytes codec covered).length := by
      rw [segmentBytes, List.length_append, writeSegmentHeader_length]
      omega
    have stops := readTailFrames_damaged record (segmentBytes codec covered) post lastDurableSeqNo [] before
      (fun e here => recordable e (List.mem_append_right _ here)) (List.pairwise_append.mp ascending).2.1 above
    rw [layout, readTailBeyondFrontier_eq least (by rw [List.length_append]; omega), stops]
    simp only [written, segmentBytes, frames_append, List.length_append, List.nil_append, Nat.add_assoc]

/-- A removal is read, and the one behind it has another first byte. -/
theorem damagedRecord_never_read_sample :
    let found := 0x99 :: (samplePayload 1).tail
    let written := segmentBytes sampleCodec [sampleEntry 1]
    readTailBeyondFrontier sampleCodec (written ++ (damagedRecord sampleCodec (sampleEntry 1) found ++ []))
      (segmentBytes sampleCodec []).length 0 = ⟨[sampleEntry 1], written.length⟩ :=
  have record : DamagedRecord sampleCodec (sampleEntry 1) (0x99 :: (samplePayload 1).tail) :=
    ⟨sampleEntry_recordable, ⟨[], [0x88], [0x99], (samplePayload 1).tail, rfl, rfl, rfl, by decide⟩, by decide⟩
  (damagedRecord_never_read record [] [sampleEntry 1] [] (by simpa using sampleEntry_recordable) (by decide) 0
    (by decide)).2

end Narsil.Durability
