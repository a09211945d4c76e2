import Narsil.Replication.SnapshotStream

/-!
# What a snapshot stream assembles

The spool file is at every moment the accepted chunks in the order of their offsets,
and never more than the declared size. A stream that settles hands out exactly that
file under the checksum of its header; one that failed has no file and stays failed.
-/
namespace Narsil.Replication

open Serialization (Number Decoded Fields crc32 crc32Init crc32Update crc32Final)

/-- A frame with what the disk does while it is handled. -/
structure ReceivedFrame where
  frame : Bytes
  events : SpoolEvents

section
variable {decode : Bytes → Except String Decoded}

def handleFrames (decode : Bytes → Except String Decoded) (state : SnapshotStreamState)
    (frames : List ReceivedFrame) : SnapshotStreamState :=
  frames.foldl (fun state received =>
    handleIncomingSnapshotFrame decode received.events state received.frame) state

/-- The chunk a frame carries, where it has the shape of one. -/
def chunkOf (decode : Bytes → Except String Decoded) (frame : Bytes) : Option SnapshotChunkPayload :=
  match decode frame with
  | .ok (.object record) =>
    match classifyFrameShape record with
    | .chunk payload => if isErrorEnvelope record then none else some payload
    | _ => none
  | _ => none

/-- The chunk a stream accepts with a frame: one that comes after the first frame and
leaves the stream without a failure. -/
def acceptedChunk (decode : Bytes → Except String Decoded) (state : SnapshotStreamState)
    (received : ReceivedFrame) : Option SnapshotChunkPayload :=
  if state.firstFrameSeen ∧
    (handleIncomingSnapshotFrame decode received.events state received.frame).failure = none then
    chunkOf decode received.frame
  else none

def acceptedChunks (decode : Bytes → Except String Decoded) :
    SnapshotStreamState → List ReceivedFrame → List SnapshotChunkPayload
  | _, [] => []
  | state, received :: rest =>
    (acceptedChunk decode state received).toList ++ acceptedChunks decode
      (handleIncomingSnapshotFrame decode received.events state received.frame) rest

/-- The bytes of some chunks, one after another. -/
def concatenated (chunks : List SnapshotChunkPayload) : Bytes :=
  (chunks.map SnapshotChunkPayload.data).flatten

/-- Each chunk begins where the ones before it end. -/
def InOffsetOrder (start : Nat) : List SnapshotChunkPayload → Prop
  | [] => True
  | chunk :: rest => chunk.offset = .integer start ∧ InOffsetOrder (start + chunk.data.length) rest

theorem inOffsetOrder_append (start : Nat) (chunks : List SnapshotChunkPayload)
    (chunk : SnapshotChunkPayload) : InOffsetOrder start (chunks ++ [chunk]) ↔
      InOffsetOrder start chunks ∧ chunk.offset = .integer ↑(start + (concatenated chunks).length) := by
  induction chunks generalizing start with
  | nil => simp [InOffsetOrder, concatenated]
  | cons first rest ih =>
    simp only [List.cons_append, InOffsetOrder, ih, concatenated, List.map_cons, List.flatten_cons,
      List.length_append, and_assoc, Nat.add_assoc]

theorem concatenated_append (chunks : List SnapshotChunkPayload) (chunk : SnapshotChunkPayload) :
    concatenated (chunks ++ [chunk]) = concatenated chunks ++ chunk.data := by
  simp [concatenated]

/-! ## The invariant of a stream -/

/-- The declared header and size of a stream match what was asked for. -/
def MatchesRequest (expectation : SnapshotStreamExpectation) (header : ReplicationSnapshotHeader) :
    Prop :=
  header.indexName = expectation.indexName ∧
    ∀ partitionId, expectation.partitionId = some partitionId → header.partitionId = partitionId

/-- An end that names the header's partition, size and checksum. -/
def MatchesHeader (header : ReplicationSnapshotHeader) (totalBytes : Nat)
    (endPayload : SnapshotEndPayload) : Prop :=
  endPayload.indexName = header.indexName ∧ endPayload.partitionId = .integer header.partitionId ∧
    endPayload.totalBytes = .integer totalBytes ∧ endPayload.checksum = .integer header.checksum

/-- A stream that was started and has not failed: its file is the accepted chunks. -/
structure Open (state : SnapshotStreamState) (accepted : List SnapshotChunkPayload)
    (header : ReplicationSnapshotHeader) (totalBytes : Nat) : Prop where
  headerIs : state.header = some header
  totalIs : state.totalBytes = some totalBytes
  spool : state.spool = some ⟨crc32Update crc32Init (concatenated accepted), (concatenated accepted).length⟩
  file : state.file = some (concatenated accepted)
  order : InOffsetOrder 0 accepted
  named : ∀ chunk ∈ accepted, chunk.indexName = header.indexName ∧
    chunk.partitionId = .integer header.partitionId
  accumulated : state.accumulatedBytes = (concatenated accepted).length
  nextOffset : state.expectedNextOffset = (concatenated accepted).length
  written : state.written = (concatenated accepted).length
  bounded : (concatenated accepted).length ≤ totalBytes
  ends : ∀ endPayload, state.endPayload = some endPayload → MatchesHeader header totalBytes endPayload
  seen : state.firstFrameSeen = true

/-- A stream that has not started, is open, or has failed and left no file. -/
inductive StreamInv (state : SnapshotStreamState) (accepted : List SnapshotChunkPayload) : Prop where
  | fresh (header : state.header = none) (totalBytes : state.totalBytes = none)
      (spool : state.spool = none) (file : state.file = none) (written : state.written = 0)
      (failure : state.failure = none) (seen : state.firstFrameSeen = false)
      (nothing : accepted = []) (counts : state.accumulatedBytes = 0 ∧ state.expectedNextOffset = 0)
      (noEnd : state.endPayload = none)
  | started (header : ReplicationSnapshotHeader) (totalBytes : Nat) (failure : state.failure = none)
      (isOpen : Open state accepted header totalBytes)
  | failed (failure : SnapshotStreamFailure) (isFailed : state.failure = some failure)
      (spool : state.spool = none) (file : state.file = none)
      (written : state.written ≤ state.totalBytes.getD 0)

variable {state : SnapshotStreamState} {accepted : List SnapshotChunkPayload}

namespace SnapshotStreamState

theorem fail_spec (code : SnapshotErrorCode) (message : String) (whole : state.failure = none)
    (file : state.spool = none → state.file = none) :
    (state.fail code message).failure = some ⟨code, message⟩ ∧
      (state.fail code message).spool = none ∧ (state.fail code message).file = none ∧
      (state.fail code message).written = state.written ∧
      (state.fail code message).totalBytes = state.totalBytes := by
  rw [fail, whole]
  simp only [releaseSpool]
  cases spool : state.spool with
  | none => exact ⟨rfl, rfl, file spool, rfl, rfl⟩
  | some _ => exact ⟨rfl, rfl, rfl, rfl, rfl⟩

end SnapshotStreamState

theorem StreamInv.of_fail (code : SnapshotErrorCode) (message : String) (whole : state.failure = none)
    (file : state.spool = none → state.file = none) (written : state.written ≤ state.totalBytes.getD 0) :
    StreamInv (state.fail code message) accepted := by
  obtain ⟨failure, spool, file, same, total⟩ := SnapshotStreamState.fail_spec code message whole file
  exact .failed _ failure spool file (by rw [same, total]; exact written)

/-! ## One frame -/

theorem StreamInv.of_whole (inv : StreamInv state accepted) (whole : state.failure = none) :
    (state.spool = none → state.file = none) ∧ state.written ≤ state.totalBytes.getD 0 := by
  cases inv with
  | fresh _ _ _ file written => exact ⟨fun _ => file, by omega⟩
  | started header totalBytes _ isOpen =>
    refine ⟨fun closed => ?_, ?_⟩
    · rw [isOpen.spool] at closed
      cases closed
    · rw [isOpen.written, isOpen.totalIs]
      exact isOpen.bounded
  | failed failure isFailed =>
    rw [whole] at isFailed
    cases isFailed

theorem StreamInv.start {record : Fields} {events : SpoolEvents} (inv : StreamInv state accepted)
    (whole : state.failure = none) (unseen : state.firstFrameSeen = false) :
    StreamInv ({ state with firstFrameSeen := true }.applyStartPayload events record) accepted := by
  obtain ⟨file, written⟩ := inv.of_whole whole
  have failing : ∀ code message, StreamInv
      (SnapshotStreamState.fail { state with firstFrameSeen := true } code message) accepted :=
    fun code message => .of_fail code message whole file written
  rw [SnapshotStreamState.applyStartPayload]
  cases read : readStart state.expectation record with
  | error failure => exact failing _ _
  | ok declared =>
    obtain ⟨header, totalBytes⟩ := declared
    cases events.openFails with
    | some cause => exact failing _ _
    | none =>
      cases inv with
      | failed failure isFailed =>
        rw [whole] at isFailed
        cases isFailed
      | started _ _ _ isOpen =>
        rw [isOpen.seen] at unseen
        cases unseen
      | fresh _ _ _ _ bytes _ _ nothing counts noEnd =>
        -- The first chunk is awaited at offset 0.
        subst nothing
        refine .started header totalBytes whole ⟨rfl, rfl, rfl, rfl, trivial, by simp, counts.1,
          counts.2, bytes, Nat.zero_le _, ?_, rfl⟩
        intro endPayload isEnd
        simp only [noEnd] at isEnd
        cases isEnd

theorem StreamInv.open_ (inv : StreamInv state accepted) (whole : state.failure = none)
    (seen : state.firstFrameSeen = true) : ∃ header totalBytes, Open state accepted header totalBytes := by
  cases inv with
  | fresh _ _ _ _ _ _ unseen =>
    rw [seen] at unseen
    cases unseen
  | started header totalBytes _ isOpen => exact ⟨header, totalBytes, isOpen⟩
  | failed failure isFailed =>
    rw [whole] at isFailed
    cases isFailed

theorem StreamInv.end_ {payload : SnapshotEndPayload}
    (inv : StreamInv state accepted) (whole : state.failure = none) (seen : state.firstFrameSeen = true) :
    StreamInv (state.applyEndPayload payload) accepted := by
  obtain ⟨file, written⟩ := inv.of_whole whole
  have failing : ∀ code message, StreamInv (state.fail code message) accepted :=
    fun code message => .of_fail code message whole file written
  obtain ⟨header, totalBytes, isOpen⟩ := inv.open_ whole seen
  rw [SnapshotStreamState.applyEndPayload, isOpen.headerIs, isOpen.totalIs]
  simp only
  split
  · exact failing _ _
  next sameIndex =>
  split
  · exact failing _ _
  next samePartition =>
  split
  · exact failing _ _
  next sameTotal =>
  split
  · exact failing _ _
  next sameChecksum =>
  refine .started header totalBytes whole ⟨rfl, rfl, isOpen.spool, isOpen.file, isOpen.order, isOpen.named, isOpen.accumulated, isOpen.nextOffset, isOpen.written,
    isOpen.bounded, ?_, seen⟩
  intro endPayload isEnd
  obtain rfl : payload = endPayload := Option.some.inj isEnd
  exact ⟨not_not.mp sameIndex, not_not.mp samePartition, (Number.safe_eq_some (not_not.mp sameTotal)).1,
    (Number.safe_eq_some (not_not.mp sameChecksum)).1⟩

theorem spoolWrite_spec (events : SpoolEvents) (state : SnapshotStreamState)
    (spool : SnapshotSpoolWriter) (data : Bytes) :
    (∃ cause reached, state.spoolWrite events spool data = ({ state with
        file := state.file.map (· ++ data.take reached),
        written := state.written + (data.take reached).length }, some cause)) ∨
      state.spoolWrite events spool data = ({ state with
        spool := some ⟨crc32Update spool.checksumState data, spool.totalBytes + data.length⟩,
        file := state.file.map (· ++ data), written := state.written + data.length }, none) := by
  rw [SnapshotStreamState.spoolWrite]
  cases events.writeFails with
  | none => exact .inr rfl
  | some failure =>
    obtain ⟨cause, reached⟩ := failure
    by_cases empty : data = []
    · right
      subst empty
      simp [crc32Update]
    · left
      simp only [if_neg empty]
      exact ⟨cause, reached, rfl⟩

theorem StreamInv.chunk {payload : SnapshotChunkPayload} {events : SpoolEvents}
    (inv : StreamInv state accepted) (whole : state.failure = none) (seen : state.firstFrameSeen = true) :
    ((state.applyChunkPayload events payload).failure ≠ none ∧
        ∀ accepted, StreamInv (state.applyChunkPayload events payload) accepted) ∨
      (state.applyChunkPayload events payload).failure = none ∧
        StreamInv (state.applyChunkPayload events payload) (accepted ++ [payload]) := by
  have failing : ∀ (state : SnapshotStreamState) (code : SnapshotErrorCode) (message : String),
      state.failure = none → (state.spool = none → state.file = none) →
      state.written ≤ state.totalBytes.getD 0 →
      ((state.fail code message).failure ≠ none ∧
        ∀ accepted, StreamInv (state.fail code message) accepted) := by
    intro state code message whole file written
    have failed := (SnapshotStreamState.fail_spec code message whole file).1
    exact ⟨by rw [failed]; simp, fun _ => .of_fail code message whole file written⟩
  obtain ⟨file, written⟩ := inv.of_whole whole
  have refused := fun code message => failing state code message whole file written
  obtain ⟨header, totalBytes, isOpen⟩ := inv.open_ whole seen
  rw [SnapshotStreamState.applyChunkPayload, isOpen.headerIs, isOpen.totalIs]
  simp only
  split
  · exact .inl (refused _ _)
  next offset isOffset =>
  split
  · exact .inl (refused _ _)
  next partitionId isPartition =>
  split
  · exact .inl (refused _ _)
  next sameIndex =>
  split
  · exact .inl (refused _ _)
  next samePartition =>
  split
  · exact .inl (refused _ _)
  next sameOffset =>
  split
  · exact .inl (refused _ _)
  next withinLimit =>
  split
  · exact .inl (refused _ _)
  next withinTotal =>
  have fits : state.accumulatedBytes + payload.data.length ≤ totalBytes := Nat.not_lt.mp withinTotal
  have bytes := isOpen.written
  have accumulated := isOpen.accumulated
  rw [isOpen.spool]
  simp only
  rcases spoolWrite_spec events state ⟨crc32Update crc32Init (concatenated accepted),
    (concatenated accepted).length⟩ payload.data with ⟨cause, reached, wrote⟩ | wrote
  · -- The bytes before the failing call count, and go with the file.
    rw [wrote]
    have part : (payload.data.take reached).length ≤ payload.data.length := by
      rw [List.length_take]
      exact Nat.min_le_right _ _
    left
    apply failing { state with file := state.file.map (· ++ payload.data.take reached),
                               written := state.written + (payload.data.take reached).length } _ _ whole
    · intro closed
      simp only [isOpen.spool] at closed
      cases closed
    · simp only [isOpen.totalIs, Option.getD_some]
      omega
  · rw [wrote]
    dsimp only
    right
    refine ⟨whole, ?_⟩
    have grown := concatenated_append accepted payload
    have total : (concatenated (accepted ++ [payload])).length
        = (concatenated accepted).length + payload.data.length := by
      rw [grown, List.length_append]
    obtain ⟨isInteger, -⟩ := Number.safe_eq_some isOffset
    have here : offset = state.expectedNextOffset := not_not.mp sameOffset
    refine .started header totalBytes whole ⟨isOpen.headerIs, isOpen.totalIs, ?_, ?_, ?_, ?_, ?_,
      ?_, ?_, ?_, isOpen.ends, seen⟩
    · simp only [grown, crc32Update, List.foldl_append, List.length_append]
    · simp only [isOpen.file, Option.map_some, grown]
    · rw [inOffsetOrder_append, isInteger, here, isOpen.nextOffset, Nat.zero_add]
      exact ⟨isOpen.order, rfl⟩
    · intro chunk isIn
      rcases List.mem_append.mp isIn with earlier | isLast
      · exact isOpen.named chunk earlier
      · obtain rfl := List.mem_singleton.mp isLast
        obtain ⟨isNumber, -⟩ := Number.safe_eq_some isPartition
        exact ⟨not_not.mp sameIndex, by rw [isNumber, not_not.mp samePartition]⟩
    · rw [total, accumulated]
    · rw [total, here, isOpen.nextOffset]
    · rw [total, bytes]
    · rw [total]
      omega

theorem StreamInv.frame (inv : StreamInv state accepted) (received : ReceivedFrame) :
    StreamInv (handleIncomingSnapshotFrame decode received.events state received.frame)
      (accepted ++ (acceptedChunk decode state received).toList) := by
  cases failed : state.failure with
  | some failure =>
    -- A failed stream ignores the frame.
    have same : handleIncomingSnapshotFrame decode received.events state received.frame = state := by
      rw [handleIncomingSnapshotFrame, if_pos (by rw [failed]; rfl)]
    rw [acceptedChunk, same, if_neg (by rw [failed]; simp)]
    simpa using inv
  | none =>
    obtain ⟨file, written⟩ := inv.of_whole failed
    have noFailure : ¬ state.failure.isSome = true := by rw [failed]; simp
    have failing : ∀ code message, handleIncomingSnapshotFrame decode received.events state received.frame
        = state.fail code message → StreamInv (handleIncomingSnapshotFrame decode received.events state
          received.frame) (accepted ++ (acceptedChunk decode state received).toList) := by
      intro code message same
      rw [same]
      exact .of_fail code message failed file written
    rw [handleIncomingSnapshotFrame, if_neg noFailure] at failing ⊢
    rw [acceptedChunk, handleIncomingSnapshotFrame, if_neg noFailure, chunkOf] at failing ⊢
    cases decoded : decode received.frame with
    | error _ =>
      rw [decoded] at failing
      exact failing _ _ rfl
    | ok value =>
      rw [decoded] at failing
      cases value with
      | object record =>
        simp only [handleIncomingSnapshotRecord, if_neg noFailure] at failing ⊢
        by_cases isError : isErrorEnvelope record = true
        · rw [if_pos isError] at failing
          rw [if_pos isError]
          exact failing _ _ rfl
        · rw [if_neg isError]
          by_cases seen : state.firstFrameSeen = true
          · rw [if_neg (by simp [seen])]
            cases shape : classifyFrameShape record with
            | chunk payload =>
              have step := @StreamInv.chunk state accepted payload received.events inv failed seen
              simp only [shape, seen, true_and, isError] at failing ⊢
              rcases step with ⟨lost, failed⟩ | ⟨kept, taken⟩
              · simpa [lost] using failed accepted
              · simpa [kept] using taken
            | end_ payload =>
              simpa [shape] using @StreamInv.end_ state accepted payload inv failed seen
            | unknown =>
              rw [if_neg isError, if_neg (by simp [seen]), shape] at failing
              exact failing _ _ rfl
          · have started := @StreamInv.start state accepted record received.events inv failed
              (by simpa using seen)
            rw [if_pos (by simp [seen])]
            simpa [seen] using started
      | _ => exact failing _ _ rfl

/-! ## A whole stream -/

theorem StreamInv.frames (inv : StreamInv state accepted) (frames : List ReceivedFrame) :
    StreamInv (handleFrames decode state frames) (accepted ++ acceptedChunks decode state frames) := by
  induction frames generalizing state accepted with
  | nil => simpa [handleFrames, acceptedChunks] using inv
  | cons received rest ih =>
    have later := ih (@StreamInv.frame decode state accepted inv received)
    rwa [acceptedChunks, ← List.append_assoc]

theorem StreamInv.create (expectation : SnapshotStreamExpectation) :
    StreamInv (createSnapshotStreamState expectation) [] :=
  .fresh rfl rfl rfl rfl rfl rfl rfl rfl ⟨rfl, rfl⟩ rfl

/-- What the first frame declares. -/
def declaredBy (decode : Bytes → Except String Decoded) (expectation : SnapshotStreamExpectation) :
    List ReceivedFrame → Option (ReplicationSnapshotHeader × Nat)
  | [] => none
  | first :: _ =>
    match decode first.frame with
    | .ok (.object record) => (readStart expectation record).toOption
    | _ => none

theorem readStart_ok {expectation : SnapshotStreamExpectation} {record : Fields}
    {header : ReplicationSnapshotHeader} {totalBytes : Nat}
    (h : readStart expectation record = .ok (header, totalBytes)) : MatchesRequest expectation header := by
  rw [readStart] at h
  split at h
  · cases h
  next indexName checksum partitionId lastSeqNo primaryTerm total _ =>
  split at h
  · cases h
  next sameIndex =>
  split at h
  · cases h
  next samePartition =>
  split at h
  · cases h
  split at h
  · cases h
  next isPartition =>
  split at h
  · cases h
  split at h
  · cases h
  split at h
  · cases h
  cases h
  refine ⟨not_not.mp sameIndex, ?_⟩
  intro expected isExpected
  rw [isExpected] at samePartition
  have same : partitionId = .integer expected := by simpa using samePartition
  obtain ⟨number, -⟩ := Number.safe_eq_some isPartition
  rw [same] at number
  exact (Int.ofNat.inj (Number.integer.inj number)).symm

theorem declared_matches {expectation : SnapshotStreamExpectation} {frames : List ReceivedFrame}
    {header : ReplicationSnapshotHeader} {totalBytes : Nat}
    (h : declaredBy decode expectation frames = some (header, totalBytes)) :
    MatchesRequest expectation header := by
  cases frames with
  | nil => cases h
  | cons first rest =>
    rw [declaredBy] at h
    split at h
    next record _ =>
      cases read : readStart expectation record with
      | error failure => rw [read] at h; cases h
      | ok declared =>
        rw [read] at h
        obtain rfl : declared = (header, totalBytes) := Option.some.inj h
        exact readStart_ok read
    next => cases h

/-- Nothing but a first frame sets the header and the size. -/
def SameStart (state state' : SnapshotStreamState) : Prop :=
  state'.header = state.header ∧ state'.totalBytes = state.totalBytes ∧
    state'.firstFrameSeen = state.firstFrameSeen

theorem sameStart_fail (code : SnapshotErrorCode) (message : String) :
    SameStart state (state.fail code message) := by
  rw [SnapshotStreamState.fail]
  split
  · exact ⟨rfl, rfl, rfl⟩
  · simp only [SnapshotStreamState.releaseSpool]
    split <;> exact ⟨rfl, rfl, rfl⟩

theorem sameStart_chunk (events : SpoolEvents) (payload : SnapshotChunkPayload) :
    SameStart state (state.applyChunkPayload events payload) := by
  rw [SnapshotStreamState.applyChunkPayload]
  split
  next =>
    repeat' split
    all_goals first
      | exact sameStart_fail _ _
      | skip
    next spool _ _ written cause wrote =>
      rcases spoolWrite_spec events state spool payload.data with ⟨_, _, same⟩ | same
      · rw [same] at wrote
        cases wrote
        exact sameStart_fail _ _
      · rw [same] at wrote
        cases wrote
    next spool _ _ written wrote =>
      rcases spoolWrite_spec events state spool payload.data with ⟨_, _, same⟩ | same
      · rw [same] at wrote
        cases wrote
      · rw [same] at wrote
        cases wrote
        exact ⟨rfl, rfl, rfl⟩
  next => exact sameStart_fail _ _

theorem sameStart_end (payload : SnapshotEndPayload) : SameStart state (state.applyEndPayload payload) := by
  rw [SnapshotStreamState.applyEndPayload]
  repeat' split
  all_goals first
    | exact sameStart_fail _ _
    | exact ⟨rfl, rfl, rfl⟩

theorem sameStart_frame (past : state.failure.isSome = true ∨ state.firstFrameSeen = true)
    (received : ReceivedFrame) :
    SameStart state (handleIncomingSnapshotFrame decode received.events state received.frame) := by
  rw [handleIncomingSnapshotFrame]
  split
  · exact ⟨rfl, rfl, rfl⟩
  next whole =>
  have seen := past.resolve_left whole
  split
  · exact sameStart_fail _ _
  next record _ =>
    rw [handleIncomingSnapshotRecord, if_neg whole]
    split
    · exact sameStart_fail _ _
    · split
      · exact sameStart_chunk _ _
      · exact sameStart_end _
      · exact sameStart_fail _ _
  · exact sameStart_fail _ _

theorem handleFrames_failed (failed : state.failure.isSome = true) (frames : List ReceivedFrame) :
    handleFrames decode state frames = state := by
  induction frames with
  | nil => rfl
  | cons received rest ih =>
    have same : handleIncomingSnapshotFrame decode received.events state received.frame = state := by
      rw [handleIncomingSnapshotFrame, if_pos failed]
    rw [handleFrames, List.foldl_cons, same]
    exact ih

theorem sameStart_frames (past : state.failure.isSome = true ∨ state.firstFrameSeen = true)
    (frames : List ReceivedFrame) : SameStart state (handleFrames decode state frames) := by
  induction frames generalizing state with
  | nil => exact ⟨rfl, rfl, rfl⟩
  | cons received rest ih =>
    rcases past with failed | seen
    · rw [handleFrames_failed failed]
      exact ⟨rfl, rfl, rfl⟩
    · obtain ⟨header, total, first⟩ := @sameStart_frame decode state (.inr seen) received
      obtain ⟨header', total', first'⟩ := ih (.inr (first.trans seen))
      exact ⟨header'.trans header, total'.trans total, first'.trans first⟩

theorem declared_frames (expectation : SnapshotStreamExpectation) (frames : List ReceivedFrame)
    {totalBytes : Nat} (isTotal : (handleFrames decode (createSnapshotStreamState expectation)
      frames).totalBytes = some totalBytes) :
    ∃ header, declaredBy decode expectation frames = some (header, totalBytes) ∧
      (handleFrames decode (createSnapshotStreamState expectation) frames).header = some header := by
  cases frames with
  | nil => cases isTotal
  | cons first rest =>
    rw [handleFrames, List.foldl_cons, ← handleFrames] at isTotal ⊢
    generalize isNext : handleIncomingSnapshotFrame decode first.events
      (createSnapshotStreamState expectation) first.frame = next at isTotal ⊢
    have failing : ∀ code message, next = (createSnapshotStreamState expectation).fail code message →
        ∃ header, declaredBy decode expectation (first :: rest) = some (header, totalBytes) ∧
          (handleFrames decode next rest).header = some header := by
      rintro code message rfl
      rw [(sameStart_frames (.inl rfl) rest).2.1] at isTotal
      cases isTotal
    have seenFailing : ∀ code message, next
        = SnapshotStreamState.fail { createSnapshotStreamState expectation with firstFrameSeen := true }
          code message → ∃ header, declaredBy decode expectation (first :: rest)
            = some (header, totalBytes) ∧ (handleFrames decode next rest).header = some header := by
      rintro code message rfl
      rw [(sameStart_frames (.inl rfl) rest).2.1] at isTotal
      cases isTotal
    rw [handleIncomingSnapshotFrame, if_neg (by simp [createSnapshotStreamState])] at isNext
    cases decoded : decode first.frame with
    | error _ =>
      rw [decoded] at isNext
      exact failing _ _ isNext.symm
    | ok value =>
      rw [decoded] at isNext
      cases value with
      | object record =>
        simp only [handleIncomingSnapshotRecord] at isNext
        rw [if_neg (by simp [createSnapshotStreamState])] at isNext
        split at isNext
        · exact failing _ _ isNext.symm
        · rw [if_pos (by simp [createSnapshotStreamState]), SnapshotStreamState.applyStartPayload] at isNext
          cases read : readStart expectation record with
          | error failure =>
            rw [show (createSnapshotStreamState expectation).expectation = expectation from rfl,
              read] at isNext
            exact seenFailing _ _ isNext.symm
          | ok declared =>
            rw [show (createSnapshotStreamState expectation).expectation = expectation from rfl,
              read] at isNext
            simp only at isNext
            cases opened : first.events.openFails with
            | some cause =>
              rw [opened] at isNext
              exact seenFailing _ _ isNext.symm
            | none =>
              rw [opened] at isNext
              have same := @sameStart_frames decode next (.inr (by rw [← isNext])) rest
              rw [same.2.1, ← isNext] at isTotal
              obtain ⟨header, total⟩ := declared
              obtain rfl : total = totalBytes := Option.some.inj isTotal
              refine ⟨header, ?_, ?_⟩
              · rw [declaredBy, decoded]
                simp only [read, Except.toOption]
              · rw [same.1, ← isNext]
      | _ => exact failing _ _ isNext.symm

/-! ## A closed stream -/

theorem closed_fail (closed : state.spool = none) (code : SnapshotErrorCode) (message : String) :
    (state.fail code message).spool = none := by
  rw [SnapshotStreamState.fail]
  split
  · exact closed
  · simp only [SnapshotStreamState.releaseSpool, closed]

theorem closed_frame (closed : state.spool = none)
    (past : state.failure.isSome = true ∨ state.firstFrameSeen = true) (received : ReceivedFrame) :
    (handleIncomingSnapshotFrame decode received.events state received.frame).spool = none := by
  have failing := closed_fail closed
  rw [handleIncomingSnapshotFrame]
  split
  · exact closed
  next whole =>
  have seen := past.resolve_left whole
  split
  · exact failing _ _
  next record _ =>
    rw [handleIncomingSnapshotRecord, if_neg whole]
    split
    · exact failing _ _
    · split
      · simp only [SnapshotStreamState.applyChunkPayload, closed]
        repeat' split
        all_goals exact failing _ _
      · rw [SnapshotStreamState.applyEndPayload]
        repeat' split
        all_goals first
          | exact failing _ _
          | exact closed
      · exact failing _ _
  · exact failing _ _

theorem closed_frames (closed : state.spool = none)
    (past : state.failure.isSome = true ∨ state.firstFrameSeen = true) (frames : List ReceivedFrame) :
    (handleFrames decode state frames).spool = none := by
  induction frames generalizing state with
  | nil => exact closed
  | cons received rest ih =>
    rcases past with failed | seen
    · rw [handleFrames_failed failed]
      exact closed
    · have same := (@sameStart_frame decode state (.inr seen) received).2.2
      exact ih (closed_frame closed (.inr seen) received) (.inr (same.trans seen))

theorem failed_fail (code : SnapshotErrorCode) (message : String) :
    (state.fail code message).failure.isSome = true := by
  rw [SnapshotStreamState.fail]
  split
  next failure failed => rw [failed]; rfl
  next =>
    simp only [SnapshotStreamState.releaseSpool]
    split <;> rfl

theorem past_frame (received : ReceivedFrame) :
    (handleIncomingSnapshotFrame decode received.events state received.frame).failure.isSome = true ∨
      (handleIncomingSnapshotFrame decode received.events state received.frame).firstFrameSeen = true := by
  rw [handleIncomingSnapshotFrame]
  split
  next failed => exact .inl failed
  next whole =>
  split
  · exact .inl (failed_fail _ _)
  next record _ =>
    rw [handleIncomingSnapshotRecord, if_neg whole]
    split
    · exact .inl (failed_fail _ _)
    · split
      · rw [SnapshotStreamState.applyStartPayload]
        split
        · exact .inl (failed_fail _ _)
        · split
          · exact .inl (failed_fail _ _)
          · exact .inr rfl
      next unseen =>
        have seen : state.firstFrameSeen = true := not_not.mp unseen
        right
        split
        · rw [(sameStart_chunk _ _).2.2, seen]
        · rw [(sameStart_end _).2.2, seen]
        · rw [(sameStart_fail _ _).2.2, seen]
  · exact .inl (failed_fail _ _)

theorem past_frames (received : ReceivedFrame) (rest : List ReceivedFrame) :
    (handleFrames decode state (received :: rest)).failure.isSome = true ∨
      (handleFrames decode state (received :: rest)).firstFrameSeen = true := by
  have first := @past_frame decode state received
  rw [handleFrames, List.foldl_cons, ← handleFrames]
  rcases first with failed | seen
  · rw [handleFrames_failed failed]
    exact .inl failed
  · exact .inr ((sameStart_frames (.inr seen) rest).2.2.trans seen)

/-! ## Settling -/

theorem releaseSpool_failed (closed : state.spool = none → state.file = none) :
    state.releaseSpool.file = none ∧ state.releaseSpool.spool = none := by
  rw [SnapshotStreamState.releaseSpool]
  cases spool : state.spool with
  | none => exact ⟨closed spool, spool⟩
  | some _ => exact ⟨rfl, rfl⟩

/-- What a settled stream hands out. -/
structure Assembled (decode : Bytes → Except String Decoded) (expectation : SnapshotStreamExpectation)
    (frames : List ReceivedFrame) (accepted : List SnapshotChunkPayload)
    (success : SnapshotStreamSuccess) : Prop where
  /-- The spooled bytes are the accepted chunks in the order of their offsets. -/
  contents : success.snapshot.contents = concatenated accepted
  order : InOffsetOrder 0 accepted
  /-- The header and the size are those of the first frame. -/
  declared : declaredBy decode expectation frames
    = some (success.header, success.snapshot.contents.length)
  checksum : crc32 success.snapshot.contents = success.header.checksum
  sized : success.snapshot.totalBytes = success.snapshot.contents.length ∧
    success.snapshot.checksum = crc32 success.snapshot.contents
  /-- The end frame names the header's index, partition, size and checksum. -/
  ends : MatchesHeader success.header success.snapshot.contents.length success.endPayload
  request : MatchesRequest expectation success.header
  named : ∀ chunk ∈ accepted, chunk.indexName = success.header.indexName ∧
    chunk.partitionId = .integer success.header.partitionId

theorem acceptedChunks_sublist (state : SnapshotStreamState) (frames : List ReceivedFrame) :
    (acceptedChunks decode state frames).Sublist
      (frames.filterMap fun received => chunkOf decode received.frame) := by
  induction frames generalizing state with
  | nil => exact List.Sublist.refl _
  | cons received rest ih =>
    have later := ih (handleIncomingSnapshotFrame decode received.events state received.frame)
    rw [acceptedChunks, List.filterMap_cons, acceptedChunk]
    cases chunk : chunkOf decode received.frame with
    | none => simpa using later
    | some payload =>
      split
      · simpa using later
      · simpa using later.cons payload

theorem settle_error {failure : SnapshotStreamFailure} {state' : SnapshotStreamState}
    (h : settleSnapshotStream state = (state', .error failure)) : state' = state := by
  rw [settleSnapshotStream] at h
  repeat' split at h
  all_goals first
    | exact (Prod.mk.inj h).1.symm
    | cases (Prod.mk.inj h).2

theorem settle_closed (closed : state.spool = none) :
    ∃ failure, (settleSnapshotStream state).2 = .error failure := by
  rw [settleSnapshotStream]
  repeat' split
  all_goals first
    | exact ⟨_, rfl⟩
    | skip
  all_goals simp_all

theorem finalize_error {failure : SnapshotStreamFailure} {state' : SnapshotStreamState}
    (inv : StreamInv state accepted) (h : finalizeSnapshotStream state = (state', .error failure)) :
    state' = state.releaseSpool ∧ state'.file = none ∧ state'.spool = none := by
  have released : state' = state.releaseSpool := by
    rw [finalizeSnapshotStream] at h
    split at h
    · cases (Prod.mk.inj h).2
    next same _ settled =>
      rw [settle_error settled] at h
      exact (Prod.mk.inj h).1.symm
  have closed : state.spool = none → state.file = none := by
    cases whole : state.failure with
    | none => exact (inv.of_whole whole).1
    | some failure =>
      cases inv with
      | failed _ _ _ file => exact fun _ => file
      | fresh _ _ _ file => exact fun _ => file
      | started _ _ whole' =>
        rw [whole] at whole'
        cases whole'
  obtain ⟨file, spool⟩ := releaseSpool_failed closed
  rw [released]
  exact ⟨rfl, file, spool⟩

theorem finalize_closed (closed : state.spool = none) :
    ∃ failure, (finalizeSnapshotStream state).2 = .error failure := by
  obtain ⟨failure, refused⟩ := settle_closed closed
  cases settled : settleSnapshotStream state with
  | mk last result =>
    rw [settled] at refused
    simp only at refused
    rw [finalizeSnapshotStream, settled, refused]
    exact ⟨failure, rfl⟩

theorem finalize_ok {success : SnapshotStreamSuccess} {state' : SnapshotStreamState}
    (inv : StreamInv state accepted) (h : finalizeSnapshotStream state = (state', .ok success)) :
    Open state accepted success.header (concatenated accepted).length ∧
      state.endPayload = some success.endPayload ∧
      success.snapshot = ⟨concatenated accepted, (concatenated accepted).length,
        crc32 (concatenated accepted)⟩ ∧
      crc32 (concatenated accepted) = success.header.checksum := by
  rw [finalizeSnapshotStream] at h
  split at h
  next settledState settled success' isSettled =>
    obtain rfl : success' = success := Except.ok.inj (Prod.mk.inj h).2
    rw [settleSnapshotStream] at isSettled
    split at isSettled
    · cases (Prod.mk.inj isSettled).2
    next whole =>
    split at isSettled
    next header totalBytes isHeader isTotal =>
      split at isSettled
      · cases (Prod.mk.inj isSettled).2
      next endPayload isEnd =>
      split at isSettled
      · cases (Prod.mk.inj isSettled).2
      next all =>
      split at isSettled
      · cases (Prod.mk.inj isSettled).2
      next spool isSpool =>
      split at isSettled
      · cases (Prod.mk.inj isSettled).2
      next checked =>
      obtain rfl := Except.ok.inj (Prod.mk.inj isSettled).2
      cases inv with
      | fresh none_ =>
        rw [isHeader] at none_
        cases none_
      | failed failure isFailed =>
        rw [whole] at isFailed
        cases isFailed
      | started header' total' _ isOpen =>
        obtain rfl : header' = header := Option.some.inj (isOpen.headerIs.symm.trans isHeader)
        obtain rfl : total' = totalBytes := Option.some.inj (isOpen.totalIs.symm.trans isTotal)
        obtain rfl := Option.some.inj (isOpen.spool.symm.trans isSpool)
        have total : (concatenated accepted).length = total' := by
          rw [← isOpen.accumulated]
          exact not_not.mp all
        subst total
        refine ⟨isOpen, isEnd, ?_, not_not.mp checked⟩
        rw [isOpen.file]
        rfl
    next => cases (Prod.mk.inj isSettled).2
  next => cases (Prod.mk.inj h).2

/-- A snapshot stream settles only as what its accepted chunks make up; it never writes
more than was declared; a stream that failed stays failed and keeps no file; and a
stream that did not settle keeps no file and, once it was begun, never settles later. -/
theorem finalizeSnapshotStream_assembles (decode : Bytes → Except String Decoded)
    (expectation : SnapshotStreamExpectation) (frames : List ReceivedFrame) :
    let created := createSnapshotStreamState expectation
    let state := handleFrames decode created frames
    let accepted := acceptedChunks decode created frames
    accepted.Sublist (frames.filterMap fun received => chunkOf decode received.frame) ∧
    (∀ success, (finalizeSnapshotStream state).2 = .ok success →
      Assembled decode expectation frames accepted success) ∧
    state.written ≤ ((declaredBy decode expectation frames).map Prod.snd).getD 0 ∧
    (∀ failure, state.failure = some failure → state.file = none ∧ ∀ more,
      (handleFrames decode state more).failure = some failure ∧
      (handleFrames decode state more).file = none ∧
      (finalizeSnapshotStream (handleFrames decode state more)).2 = .error failure) ∧
    (∀ failure, (finalizeSnapshotStream state).2 = .error failure →
      (finalizeSnapshotStream state).1.file = none ∧ ∀ more, frames ≠ [] ∨ more = [] →
        ∃ again, (finalizeSnapshotStream
          (handleFrames decode (finalizeSnapshotStream state).1 more)).2 = .error again) := by
  intro created state accepted
  have inv : StreamInv state accepted := (StreamInv.create expectation).frames frames
  have declared := @declared_frames decode expectation frames
  refine ⟨acceptedChunks_sublist created frames, ?_, ?_, ?_, ?_⟩
  · intro success settles
    cases settled : finalizeSnapshotStream state with
    | mk last result =>
    rw [settled] at settles
    obtain rfl : result = .ok success := settles
    obtain ⟨isOpen, isEnd, snapshot, checksum⟩ := finalize_ok inv settled
    obtain ⟨header, isDeclared, isHeader⟩ := declared isOpen.totalIs
    obtain rfl : success.header = header := Option.some.inj (isOpen.headerIs.symm.trans isHeader)
    refine ⟨?_, isOpen.order, ?_, ?_, ?_, ?_, ?_, isOpen.named⟩
    · rw [snapshot]
    · rw [snapshot]
      exact isDeclared
    · rw [snapshot]
      exact checksum
    · rw [snapshot]
      exact ⟨rfl, rfl⟩
    · rw [snapshot]
      exact isOpen.ends _ isEnd
    · exact declared_matches isDeclared
  · have bounded : state.written ≤ state.totalBytes.getD 0 := by
      cases inv with
      | fresh _ _ _ _ written => omega
      | started header totalBytes _ isOpen =>
        rw [isOpen.written, isOpen.totalIs]
        exact isOpen.bounded
      | failed _ _ _ _ written => exact written
    cases total : state.totalBytes with
    | none =>
      rw [total, Option.getD_none] at bounded
      omega
    | some totalBytes =>
      obtain ⟨header, isDeclared, -⟩ := declared total
      rw [isDeclared]
      rwa [total] at bounded
  · intro failure failed
    cases inv with
    | fresh _ _ _ _ _ whole =>
      rw [whole] at failed
      cases failed
    | started _ _ whole =>
      rw [whole] at failed
      cases failed
    | failed _ _ _ file =>
      refine ⟨file, fun more => ?_⟩
      rw [handleFrames_failed (by rw [failed]; rfl)]
      refine ⟨failed, file, ?_⟩
      rw [finalizeSnapshotStream, settleSnapshotStream, failed]
  · intro failure fails
    cases settled : finalizeSnapshotStream state with
    | mk last result =>
    rw [settled] at fails
    obtain rfl : result = .error failure := fails
    obtain ⟨released, file, closed⟩ := finalize_error inv settled
    refine ⟨file, fun more begun => finalize_closed ?_⟩
    simp only
    rcases begun with some_ | rfl
    · obtain ⟨first, rest, rfl⟩ := List.exists_cons_of_ne_nil some_
      apply closed_frames closed
      -- Releasing the spool changes neither the failure nor what has been seen.
      rw [released, SnapshotStreamState.releaseSpool]
      split <;> exact past_frames first rest
    · exact closed

end

end Narsil.Replication
