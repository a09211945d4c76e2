import Narsil.DeviceQueue.Records
import Narsil.Serialization.ValueForms

/-!
# The write queue of a device

A write is put at the end of the log before it is queued, and so is the removal of writes;
a log that holds little else than removed writes is replaced. Opening reads the log again,
and cuts off what is behind its last whole frame.
-/
namespace Narsil.DeviceQueue

open Serialization

def QUEUE_COMPACTION_BYTES : Nat := 1024 * 1024

structure LiveQueue where
  writes : List (Nat × QueuedWrite)
  recordBytes : List (Nat × Nat)
  nextSequence : Nat

def replayRecord (queue : LiveQueue) (record : QueueRecord) (payloadLength : Nat) : LiveQueue :=
  match record with
  | .next sequence => { queue with nextSequence := max queue.nextSequence sequence }
  | .removed sequences =>
    { queue with
      writes := sequences.foldl Assoc.erase queue.writes
      recordBytes := sequences.foldl Assoc.erase queue.recordBytes }
  | .write queued =>
    { writes := Assoc.set queue.writes queued.sequence queued
      recordBytes := Assoc.set queue.recordBytes queued.sequence payloadLength
      nextSequence := max queue.nextSequence (queued.sequence + 1) }

def replayFrom (codec : ValueCodec) : LiveQueue → List Bytes → Except String LiveQueue
  | queue, [] => .ok queue
  | queue, payload :: payloads =>
    match decodeQueueRecord codec payload with
    | .error message => .error message
    | .ok record => replayFrom codec (replayRecord queue record payload.length) payloads

def replayQueue (codec : ValueCodec) (payloads : List Bytes) : Except String LiveQueue :=
  replayFrom codec ⟨[], [], 1⟩ payloads

structure DeviceStore where
  file : Bytes
  queue : LiveQueue
  queueFileBytes : Nat

/-- The log is read, and cut after its last whole frame. -/
def openStore (codec : ValueCodec) (file : Bytes) : Except String DeviceStore :=
  let read := readFrames file
  (replayQueue codec read.1).map fun queue =>
    { file := file.take read.2, queue, queueFileBytes := read.2 }

def queuedWrites (store : DeviceStore) : List QueuedWrite :=
  (store.queue.writes.map Prod.snd).mergeSort fun left right => left.sequence ≤ right.sequence

/-- A call that the package refuses to encode throws, and changes nothing. -/
def appendWrite (codec : ValueCodec) (store : DeviceStore) (documentId : String) (document : Option Fields) :
    Option (QueuedWrite × DeviceStore) :=
  let queued : QueuedWrite := ⟨store.queue.nextSequence, documentId, document⟩
  (encodeQueueRecord codec (.write queued)).map fun payload =>
    (queued,
      { file := store.file ++ frameOf payload
        queue :=
          { writes := Assoc.set store.queue.writes queued.sequence queued
            recordBytes := Assoc.set store.queue.recordBytes queued.sequence (frameOf payload).length
            nextSequence := store.queue.nextSequence + 1 }
        queueFileBytes := store.queueFileBytes + (frameOf payload).length })

def presentOf (store : DeviceStore) (sequences : List Nat) : List Nat :=
  sequences.filter fun sequence => (Assoc.lookup store.queue.writes sequence).isSome

/-- A removal before the log is replaced, if it is. -/
def recordRemoval (codec : ValueCodec) (store : DeviceStore) (sequences : List Nat) : Option DeviceStore :=
  if presentOf store sequences = [] then none
  else (encodeQueueRecord codec (.removed (presentOf store sequences))).map fun payload =>
    { file := store.file ++ frameOf payload
      queue :=
        { store.queue with
          writes := (presentOf store sequences).foldl Assoc.erase store.queue.writes
          recordBytes := (presentOf store sequences).foldl Assoc.erase store.queue.recordBytes }
      queueFileBytes := store.queueFileBytes + (frameOf payload).length }

def liveQueueBytes (store : DeviceStore) : Nat := (store.queue.recordBytes.map Prod.snd).sum

def compactedRecords (store : DeviceStore) : List QueueRecord :=
  .next store.queue.nextSequence :: (queuedWrites store).map .write

def compactQueue (codec : ValueCodec) (store : DeviceStore) : Option DeviceStore :=
  ((compactedRecords store).mapM (encodeQueueRecord codec)).map fun payloads =>
    { store with file := framesOf payloads, queueFileBytes := (framesOf payloads).length }

def removeWrites (codec : ValueCodec) (store : DeviceStore) (sequences : List Nat) : DeviceStore :=
  match recordRemoval codec store sequences with
  | none => store
  | some removed =>
    if QUEUE_COMPACTION_BYTES < removed.queueFileBytes ∧ liveQueueBytes removed * 2 < removed.queueFileBytes then
      (compactQueue codec removed).getD removed
    else removed

/-! ### Runs -/

inductive Event
  | append (documentId : String) (document : Option Fields)
  | remove (sequences : List Nat)
  /-- The store is closed, or stops between two calls, and is opened again. -/
  | reopen
  /-- So many bytes of the record are there when the store is opened again. -/
  | tornAppend (documentId : String) (document : Option Fields) (cut : Nat)
  | tornRemove (sequences : List Nat) (cut : Nat)
  /-- The removal is there, and the log was to be replaced but is not. -/
  | uncompactedRemove (sequences : List Nat)

/-- The log after a crash while it grew from one to the other: not all that was added is there. -/
def tornFile (before after : DeviceStore) (cut : Nat) : Bytes :=
  before.file ++ (after.file.drop before.file.length).take (min cut (after.file.length - before.file.length - 1))

/-- The store after an event, and the write it stored. -/
def step (codec : ValueCodec) (store : DeviceStore) : Event → Except String (DeviceStore × List QueuedWrite)
  | .append documentId document =>
    match appendWrite codec store documentId document with
    | none => .ok (store, [])
    | some (queued, later) => .ok (later, [queued])
  | .remove sequences => .ok (removeWrites codec store sequences, [])
  | .reopen => (openStore codec store.file).map (·, [])
  | .tornAppend documentId document cut =>
    match appendWrite codec store documentId document with
    | none => .ok (store, [])
    | some (_, later) => (openStore codec (tornFile store later cut)).map (·, [])
  | .tornRemove sequences cut =>
    match recordRemoval codec store sequences with
    | none => .ok (store, [])
    | some later => (openStore codec (tornFile store later cut)).map (·, [])
  | .uncompactedRemove sequences =>
    match recordRemoval codec store sequences with
    | none => .ok (store, [])
    | some later => (openStore codec later.file).map (·, [])

def run (codec : ValueCodec) : DeviceStore → List Event → Except String (DeviceStore × List QueuedWrite)
  | store, [] => .ok (store, [])
  | store, event :: events =>
    match step codec store event with
    | .error message => .error message
    | .ok (later, stored) => (run codec later events).map fun last => (last.1, stored ++ last.2)

/-! ### The queue that is meant -/

/-- The live writes, and the sequence number no write has had. -/
structure Meant where
  live : List QueuedWrite
  next : Nat

def Meant.present (meant : Meant) (sequences : List Nat) : List Nat :=
  sequences.filter fun sequence => decide (sequence ∈ meant.live.map QueuedWrite.sequence)

def Meant.append (codec : ValueCodec) (meant : Meant) (documentId : String) (document : Option Fields) : Meant :=
  if (encodeQueueRecord codec (.write ⟨meant.next, documentId, document⟩)).isSome then
    ⟨meant.live ++ [⟨meant.next, documentId, document⟩], meant.next + 1⟩
  else meant

def Meant.remove (codec : ValueCodec) (meant : Meant) (sequences : List Nat) : Meant :=
  if (encodeQueueRecord codec (.removed (meant.present sequences))).isSome then
    { meant with live := meant.live.filter fun queued => decide (queued.sequence ∉ sequences) }
  else meant

/-- A record that was cut is as if it were never written. -/
def Meant.step (codec : ValueCodec) (meant : Meant) : Event → Meant
  | .append documentId document => meant.append codec documentId document
  | .remove sequences | .uncompactedRemove sequences => meant.remove codec sequences
  | .reopen | .tornAppend .. | .tornRemove .. => meant

/-! ### Records that are read back -/

/-- A record that is written comes back, and is within the limit of a frame. -/
structure Readable (codec : ValueCodec) (record : QueueRecord) (payload : Bytes) : Prop where
  encoded : encodeQueueRecord codec record = some payload
  decoded : decodeQueueRecord codec payload = .ok record
  short : payload.length ≤ STORE_FRAME_LIMIT_BYTES

/-- The record is within the limit of a frame, its numbers are exact, and the package gives the
    document of a write back as it is. -/
def Meets (codec : ValueCodec) (record : QueueRecord) : Prop :=
  ∀ payload, encodeQueueRecord codec record = some payload → payload.length ≤ STORE_FRAME_LIMIT_BYTES ∧ record.Safe ∧
    match record with
    | .write queued => codec.decode payload = .ok (QueueRecord.write queued).value
    | _ => True

theorem Meets.readable {codec : ValueCodec} {record : QueueRecord} (meets : Meets codec record) {payload : Bytes}
    (encoded : encodeQueueRecord codec record = some payload) : Readable codec record payload := by
  obtain ⟨short, safe, given_back⟩ := meets payload encoded
  have plain_count : ∀ {value : Nat}, value ≤ maxSafeInteger → (countValue value).Plain := fun safe => .count safe
  refine ⟨encoded, decodeQueueRecord_value safe ?_, short⟩
  cases record with
  | write queued => exact given_back
  | next sequence =>
    refine codec.decode_encode (.object (by simp) (by simp) ?_) encoded
    intro field member
    rcases List.mem_cons.mp member with rfl | member
    · exact .string _
    · rcases List.mem_cons.mp member with rfl | member
      · exact plain_count safe
      · exact absurd member List.not_mem_nil
  | removed sequences =>
    refine codec.decode_encode (.object (by simp) (by simp) ?_) encoded
    intro field member
    rcases List.mem_cons.mp member with rfl | member
    · exact .string _
    · rcases List.mem_cons.mp member with rfl | member
      · refine .array fun value inside => ?_
        obtain ⟨sequence, isSequence, rfl⟩ := List.mem_map.mp inside
        exact plain_count (safe sequence isSequence)
      · exact absurd member List.not_mem_nil

/-- The records that an event writes, in the state before it. -/
def Event.Meets (codec : ValueCodec) (store : DeviceStore) : Event → Prop
  | .append documentId document | .tornAppend documentId document _ =>
    DeviceQueue.Meets codec (.write ⟨store.queue.nextSequence, documentId, document⟩)
  | .remove sequences | .tornRemove sequences _ | .uncompactedRemove sequences =>
    DeviceQueue.Meets codec (.removed (presentOf store sequences)) ∧ DeviceQueue.Meets codec (.next store.queue.nextSequence)
  | .reopen => True

def RunMeets (codec : ValueCodec) : DeviceStore → List Event → Prop
  | _, [] => True
  | store, event :: events => event.Meets codec store ∧
    ∀ later stored, step codec store event = .ok (later, stored) → RunMeets codec later events

/-! ### What the log holds -/

def replayed (records : List (QueueRecord × Bytes)) (queue : LiveQueue) : LiveQueue :=
  records.foldl (fun queue record => replayRecord queue record.1 record.2.length) queue

def logOf (records : List (QueueRecord × Bytes)) : Bytes := framesOf (records.map Prod.snd)

/-- The log replays to the queue, which is the one that is meant. -/
structure Inv (codec : ValueCodec) (store : DeviceStore) (meant : Meant) : Prop where
  log : ∃ records : List (QueueRecord × Bytes), (∀ record ∈ records, Readable codec record.1 record.2) ∧
    store.file = logOf records ∧ (replayed records ⟨[], [], 1⟩).writes = store.queue.writes ∧
    (replayed records ⟨[], [], 1⟩).nextSequence = store.queue.nextSequence
  writes : store.queue.writes = meant.live.map fun queued => (queued.sequence, queued)
  next : store.queue.nextSequence = meant.next
  ascending : meant.live.Pairwise fun earlier later => earlier.sequence < later.sequence
  below : ∀ queued ∈ meant.live, queued.sequence < meant.next
  positive : 1 ≤ meant.next
  readable : ∀ queued ∈ meant.live, ∃ payload, Readable codec (.write queued) payload

section Steps
variable {codec : ValueCodec} {store : DeviceStore} {meant : Meant}

theorem replayFrom_records {records : List (QueueRecord × Bytes)}
    (readable : ∀ record ∈ records, Readable codec record.1 record.2) (queue : LiveQueue) :
    replayFrom codec queue (records.map Prod.snd) = .ok (replayed records queue) := by
  induction records generalizing queue with
  | nil => rfl
  | cons record rest ih =>
    obtain ⟨first, others⟩ := List.forall_mem_cons.mp readable
    rw [List.map_cons, replayFrom, first.decoded]
    exact ih others _

theorem Inv.opened (inv : Inv codec store meant) {torn : Bytes} (none_left : nextFrame torn = none) :
    ∃ later, openStore codec (store.file ++ torn) = .ok later ∧ Inv codec later meant := by
  obtain ⟨records, readable, file_is, writes, next⟩ := inv.log
  have short : ∀ payload ∈ records.map Prod.snd, payload.length ≤ STORE_FRAME_LIMIT_BYTES := by
    intro payload member
    obtain ⟨record, isRecord, rfl⟩ := List.mem_map.mp member
    exact (readable record isRecord).short
  have read : readFrames (store.file ++ torn) = (records.map Prod.snd, store.file.length) := by
    rw [file_is]
    exact readFrames_framesOf short none_left
  refine ⟨⟨store.file, replayed records ⟨[], [], 1⟩, store.file.length⟩, ?_, ?_⟩
  · rw [openStore, read]
    dsimp only
    rw [replayQueue, replayFrom_records readable, List.take_left]
    rfl
  · exact { inv with
      log := ⟨records, readable, file_is, rfl, rfl⟩
      writes := writes.trans inv.writes
      next := next.trans inv.next }

theorem log_append {records : List (QueueRecord × Bytes)} (record : QueueRecord × Bytes) :
    logOf (records ++ [record]) = logOf records ++ frameOf record.2 ∧
      replayed (records ++ [record]) ⟨[], [], 1⟩ =
        replayRecord (replayed records ⟨[], [], 1⟩) record.1 record.2.length := by
  constructor
  · rw [logOf, List.map_append, framesOf_append, List.map_singleton]
    rw [show framesOf [record.2] = frameOf record.2 from List.append_nil _]
    rfl
  · rw [replayed, List.foldl_append]
    rfl

theorem not_mem_keys {writes : List QueuedWrite} {next : Nat} (below : ∀ queued ∈ writes, queued.sequence < next) :
    next ∉ (writes.map fun queued => (queued.sequence, queued)).map Prod.fst := by
  rw [List.map_map]
  intro member
  obtain ⟨queued, isQueued, same⟩ := List.mem_map.mp member
  exact Nat.ne_of_lt (below queued isQueued) same

theorem set_last {writes : List QueuedWrite} {queued : QueuedWrite}
    (below : ∀ other ∈ writes, other.sequence < queued.sequence) :
    Assoc.set (writes.map fun queued => (queued.sequence, queued)) queued.sequence queued =
      (writes ++ [queued]).map fun queued => (queued.sequence, queued) := by
  rw [Assoc.set_new queued (not_mem_keys below), List.map_append]
  rfl

theorem foldl_erase (sequences : List Nat) (writes : List QueuedWrite) :
    sequences.foldl Assoc.erase (writes.map fun queued => (queued.sequence, queued)) =
      (writes.filter fun queued => decide (queued.sequence ∉ sequences)).map fun queued => (queued.sequence, queued) := by
  induction sequences generalizing writes with
  | nil => simp
  | cons sequence rest ih =>
    have one : Assoc.erase (writes.map fun queued => (queued.sequence, queued)) sequence =
        (writes.filter fun queued => decide (queued.sequence ≠ sequence)).map fun queued => (queued.sequence, queued) := by
      rw [Assoc.erase, List.filter_map]
      rfl
    rw [List.foldl_cons, one, ih, List.filter_filter]
    congr 1
    apply List.filter_congr
    intro queued _
    simp [Bool.and_comm]

theorem Inv.appended (inv : Inv codec store meant) {documentId : String} {document : Option Fields}
    (meets : Meets codec (.write ⟨store.queue.nextSequence, documentId, document⟩)) {queued : QueuedWrite}
    {later : DeviceStore} (made : appendWrite codec store documentId document = some (queued, later)) :
    queued = ⟨meant.next, documentId, document⟩ ∧ Inv codec later (meant.append codec documentId document) ∧
      ∃ payload, payload.length ≤ STORE_FRAME_LIMIT_BYTES ∧ later.file = store.file ++ frameOf payload := by
  obtain ⟨payload, encoded, made⟩ := Option.map_eq_some_iff.mp made
  obtain ⟨rfl, rfl⟩ := Prod.mk.inj made
  have readable := meets.readable encoded
  rw [inv.next] at readable encoded
  obtain ⟨records, all_readable, file_is, writes, next⟩ := inv.log
  obtain ⟨log_is, replay_is⟩ := @log_append records (.write ⟨meant.next, documentId, document⟩, payload)
  refine ⟨congrArg (fun next => QueuedWrite.mk next documentId document) inv.next, ?_, payload, readable.short, rfl⟩
  rw [Meant.append, encoded, Option.isSome_some, if_pos rfl]
  have set_is : Assoc.set store.queue.writes meant.next (QueuedWrite.mk meant.next documentId document) =
      (meant.live ++ [QueuedWrite.mk meant.next documentId document]).map fun queued => (queued.sequence, queued) := by
    have below : ∀ other ∈ meant.live, other.sequence < (QueuedWrite.mk meant.next documentId document).sequence :=
      inv.below
    rw [inv.writes]
    exact set_last below
  constructor
  · refine ⟨records ++ [(.write ⟨meant.next, documentId, document⟩, payload)], ?_, ?_, ?_, ?_⟩
    · intro record member
      rcases List.mem_append.mp member with old | new
      · exact all_readable record old
      · exact List.mem_singleton.mp new ▸ readable
    · rw [log_is, ← file_is]
    · rw [replay_is, replayRecord]
      dsimp only
      rw [writes, inv.next]
    · rw [replay_is, replayRecord]
      dsimp only
      rw [next, inv.next]
      omega
  · rw [inv.next]
    exact set_is
  · exact congrArg (· + 1) inv.next
  · rw [List.pairwise_append]
    refine ⟨inv.ascending, List.pairwise_singleton _ _, fun earlier isEarlier later isLater => ?_⟩
    rw [List.mem_singleton.mp isLater]
    exact inv.below earlier isEarlier
  · intro other member
    rcases List.mem_append.mp member with old | new
    · exact Nat.lt_succ_of_lt (inv.below other old)
    · rw [List.mem_singleton.mp new]
      exact Nat.lt_succ_self _
  · exact Nat.le_succ_of_le inv.positive
  · intro other member
    rcases List.mem_append.mp member with old | new
    · exact inv.readable other old
    · exact List.mem_singleton.mp new ▸ ⟨payload, readable⟩

theorem Inv.presentOf_eq (inv : Inv codec store meant) (sequences : List Nat) :
    presentOf store sequences = meant.present sequences := by
  apply List.filter_congr
  intro sequence _
  rw [Bool.eq_iff_iff, Assoc.lookup_isSome, inv.writes, List.map_map, decide_eq_true_eq]
  rfl

theorem Inv.remaining (inv : Inv codec store meant) (sequences : List Nat) :
    (presentOf store sequences).foldl Assoc.erase store.queue.writes =
      (meant.live.filter fun queued => decide (queued.sequence ∉ sequences)).map
        fun queued => (queued.sequence, queued) := by
  rw [inv.writes, foldl_erase, inv.presentOf_eq]
  congr 1
  apply List.filter_congr
  intro queued member
  have known : queued.sequence ∈ meant.live.map QueuedWrite.sequence := List.mem_map_of_mem member
  simp only [Meant.present, List.mem_filter, decide_eq_true_eq, known, and_true]

theorem Inv.removed (inv : Inv codec store meant) {sequences : List Nat}
    (meets : Meets codec (.removed (presentOf store sequences))) {later : DeviceStore}
    (made : recordRemoval codec store sequences = some later) :
    Inv codec later (meant.remove codec sequences) ∧
      ∃ payload, payload.length ≤ STORE_FRAME_LIMIT_BYTES ∧ later.file = store.file ++ frameOf payload := by
  obtain ⟨_, made⟩ := Option.ite_none_left_eq_some.mp made
  obtain ⟨payload, encoded, rfl⟩ := Option.map_eq_some_iff.mp made
  have readable := meets.readable encoded
  obtain ⟨records, all_readable, file_is, writes, next⟩ := inv.log
  obtain ⟨log_is, replay_is⟩ := @log_append records (.removed (presentOf store sequences), payload)
  refine ⟨?_, payload, readable.short, rfl⟩
  rw [Meant.remove, ← inv.presentOf_eq, encoded, Option.isSome_some, if_pos rfl]
  have of_live : ∀ {queued}, queued ∈ meant.live.filter (fun queued => decide (queued.sequence ∉ sequences)) →
      queued ∈ meant.live := fun member => (List.mem_filter.mp member).1
  constructor
  · refine ⟨records ++ [(.removed (presentOf store sequences), payload)], ?_, ?_, ?_, ?_⟩
    · intro record member
      rcases List.mem_append.mp member with old | new
      · exact all_readable record old
      · exact List.mem_singleton.mp new ▸ readable
    · rw [log_is, ← file_is]
    · rw [replay_is, replayRecord]
      dsimp only
      rw [writes]
    · rw [replay_is]
      exact next
  · exact inv.remaining sequences
  · exact inv.next
  · exact inv.ascending.sublist List.filter_sublist
  · exact fun queued member => inv.below queued (of_live member)
  · exact inv.positive
  · exact fun queued member => inv.readable queued (of_live member)

theorem Inv.not_removed (inv : Inv codec store meant) {sequences : List Nat}
    (refused : recordRemoval codec store sequences = none) : meant.remove codec sequences = meant := by
  rw [recordRemoval, inv.presentOf_eq] at refused
  rw [Meant.remove]
  split at refused
  · next none_present =>
    have all_stay : (meant.live.filter fun queued => decide (queued.sequence ∉ sequences)) = meant.live := by
      apply List.filter_eq_self.mpr
      intro queued member
      rw [decide_eq_true_eq]
      intro named
      have present : queued.sequence ∈ meant.present sequences :=
        List.mem_filter.mpr ⟨named, decide_eq_true (List.mem_map_of_mem member)⟩
      rw [none_present] at present
      exact absurd present List.not_mem_nil
    rw [all_stay, ite_self]
  · rw [Option.map_eq_none_iff.mp refused]
    rfl

theorem Inv.queuedWrites_eq (inv : Inv codec store meant) : queuedWrites store = meant.live := by
  have values : store.queue.writes.map Prod.snd = meant.live := by
    rw [inv.writes, List.map_map]
    exact List.map_id _
  rw [queuedWrites, values]
  exact List.mergeSort_of_pairwise (inv.ascending.imp fun before => decide_eq_true (Nat.le_of_lt before))

theorem replayed_writes {pairs : List (QueuedWrite × Bytes)} {next : Nat}
    (ascending : (pairs.map Prod.fst).Pairwise fun earlier later => earlier.sequence < later.sequence)
    (below : ∀ pair ∈ pairs, pair.1.sequence < next) {queue : LiveQueue} {front : List QueuedWrite}
    (writes : queue.writes = front.map fun queued => (queued.sequence, queued)) (next_is : queue.nextSequence = next)
    (after : ∀ queued ∈ front, ∀ pair ∈ pairs, queued.sequence < pair.1.sequence) :
    (replayed (pairs.map fun pair => (.write pair.1, pair.2)) queue).writes =
        (front ++ pairs.map Prod.fst).map (fun queued => (queued.sequence, queued)) ∧
      (replayed (pairs.map fun pair => (.write pair.1, pair.2)) queue).nextSequence = next := by
  induction pairs generalizing queue front with
  | nil => exact ⟨writes.trans (by rw [List.map_nil, List.append_nil]), next_is⟩
  | cons pair rest ih =>
    rw [List.map_cons, List.pairwise_cons] at ascending
    obtain ⟨first_below, rest_below⟩ := List.forall_mem_cons.mp below
    have one := @ih ascending.2 rest_below (replayRecord queue (.write pair.1) pair.2.length) (front ++ [pair.1])
      (by
        rw [replayRecord]
        dsimp only
        rw [writes]
        exact set_last fun other member => after other member pair List.mem_cons_self)
      (by
        rw [replayRecord]
        dsimp only
        omega)
      (by
        intro queued member other isOther
        rcases List.mem_append.mp member with old | new
        · exact after queued old other (List.mem_cons_of_mem _ isOther)
        · rw [List.mem_singleton.mp new]
          exact ascending.1 other.1 (List.mem_map_of_mem isOther))
    rw [List.append_assoc] at one
    exact one

theorem Inv.compacted (inv : Inv codec store meant) (meets : Meets codec (.next store.queue.nextSequence))
    {later : DeviceStore} (made : compactQueue codec store = some later) : Inv codec later meant := by
  obtain ⟨payloads, encoded, rfl⟩ := Option.map_eq_some_iff.mp made
  rw [compactedRecords, inv.queuedWrites_eq, List.mapM_cons] at encoded
  obtain ⟨first, first_encoded, encoded⟩ := Option.bind_eq_some_iff.mp encoded
  obtain ⟨rest, rest_encoded, encoded⟩ := Option.bind_eq_some_iff.mp encoded
  obtain rfl : first :: rest = payloads := Option.some.inj encoded
  have first_readable := meets.readable first_encoded
  -- Each live write is encoded as it was when it was put in.
  have rest_pairs : ∀ (live : List QueuedWrite) (rest : List Bytes),
      (live.map QueueRecord.write).mapM (encodeQueueRecord codec) = some rest →
      (∀ queued ∈ live, ∃ payload, Readable codec (.write queued) payload) →
      ∃ pairs : List (QueuedWrite × Bytes), pairs.map Prod.fst = live ∧ pairs.map Prod.snd = rest ∧
        ∀ pair ∈ pairs, Readable codec (.write pair.1) pair.2 := by
    intro live
    induction live with
    | nil =>
      intro rest made _
      exact ⟨[], rfl, Option.some.inj made, nofun⟩
    | cons queued live ih =>
      intro rest made readable
      rw [List.map_cons, List.mapM_cons] at made
      obtain ⟨payload, payload_encoded, made⟩ := Option.bind_eq_some_iff.mp made
      obtain ⟨others, others_encoded, made⟩ := Option.bind_eq_some_iff.mp made
      obtain rfl : payload :: others = rest := Option.some.inj made
      obtain ⟨own, others_readable⟩ := List.forall_mem_cons.mp readable
      obtain ⟨pairs, live_is, rest_is, pairs_readable⟩ := ih others others_encoded others_readable
      obtain ⟨again, own⟩ := own
      obtain rfl : again = payload := Option.some.inj (own.encoded.symm.trans payload_encoded)
      refine ⟨(queued, again) :: pairs, by rw [List.map_cons, live_is], by rw [List.map_cons, rest_is], ?_⟩
      exact List.forall_mem_cons.mpr ⟨own, pairs_readable⟩
  obtain ⟨pairs, live_is, rest_is, pairs_readable⟩ := rest_pairs _ _ rest_encoded inv.readable
  have replay := @replayed_writes pairs meant.next (live_is ▸ inv.ascending)
    (fun pair member => inv.below pair.1 (live_is ▸ List.mem_map_of_mem member))
    (replayRecord ⟨[], [], 1⟩ (.next store.queue.nextSequence) first.length) [] rfl
    (by
      have positive := inv.positive
      have next := inv.next
      rw [replayRecord]
      dsimp only
      omega) nofun
  refine { inv with log :=
    ⟨(.next store.queue.nextSequence, first) :: pairs.map fun pair => (.write pair.1, pair.2), ?_, ?_, ?_, ?_⟩ }
  · intro record member
    rcases List.mem_cons.mp member with rfl | member
    · exact first_readable
    · obtain ⟨pair, isPair, rfl⟩ := List.mem_map.mp member
      exact pairs_readable pair isPair
  · rw [logOf, List.map_cons, List.map_map, ← rest_is]
    rfl
  · refine replay.1.trans ?_
    rw [List.nil_append, live_is]
    exact inv.writes.symm
  · exact replay.2.trans inv.next.symm

theorem Inv.torn (inv : Inv codec store meant) {later : DeviceStore} {payload : Bytes}
    (short : payload.length ≤ STORE_FRAME_LIMIT_BYTES) (grown : later.file = store.file ++ frameOf payload)
    (cut : Nat) : ∃ opened, openStore codec (tornFile store later cut) = .ok opened ∧ Inv codec opened meant := by
  rw [tornFile, grown, List.drop_left, List.length_append, Nat.add_sub_cancel_left]
  apply inv.opened
  apply nextFrame_torn short
  have header := frameOf_length payload
  rw [FRAME_HEADER_BYTES] at header
  omega

/-- Whatever happens next, the store holds the queue that is meant, and a write that is stored
    has a sequence number no write had. -/
theorem Inv.step (inv : Inv codec store meant) {event : Event} (meets : event.Meets codec store) :
    ∃ later stored, step codec store event = .ok (later, stored) ∧ Inv codec later (meant.step codec event) ∧
      (meant.step codec event).live.Sublist (meant.live ++ stored) ∧
      ((stored = [] ∧ (meant.step codec event).next = meant.next) ∨
        ∃ queued, stored = [queued] ∧ queued.sequence = meant.next ∧ (meant.step codec event).next = meant.next + 1) := by
  have removal_keeps : ∀ sequences, (meant.remove codec sequences).live.Sublist (meant.live ++ []) ∧
      (meant.remove codec sequences).next = meant.next := by
    intro sequences
    rw [Meant.remove, List.append_nil]
    split
    · exact ⟨List.filter_sublist, rfl⟩
    · exact ⟨List.Sublist.refl _, rfl⟩
  have unchanged : meant.live.Sublist (meant.live ++ []) := by
    rw [List.append_nil]
  cases event with
  | append documentId document =>
    rw [DeviceQueue.step, Meant.step]
    cases made : appendWrite codec store documentId document with
    | none =>
      have refused : encodeQueueRecord codec (.write ⟨meant.next, documentId, document⟩) = none :=
        inv.next ▸ Option.map_eq_none_iff.mp made
      have same : meant.append codec documentId document = meant := by
        rw [Meant.append, refused]
        rfl
      exact ⟨store, [], rfl, by rw [same]; exact inv, by rw [same]; exact unchanged, Or.inl ⟨rfl, by rw [same]⟩⟩
    | some pair =>
      obtain ⟨queued, later⟩ := pair
      obtain ⟨rfl, later_inv, _⟩ := inv.appended meets made
      have encoded : (encodeQueueRecord codec (.write ⟨meant.next, documentId, document⟩)).isSome = true := by
        obtain ⟨payload, encoded, _⟩ := Option.map_eq_some_iff.mp made
        rw [inv.next] at encoded
        rw [encoded]
        rfl
      refine ⟨later, _, rfl, later_inv, ?_, Or.inr ⟨_, rfl, rfl, ?_⟩⟩
      · rw [Meant.append, if_pos encoded]
      · rw [Meant.append, if_pos encoded]
  | remove sequences =>
    obtain ⟨keeps, next⟩ := removal_keeps sequences
    refine ⟨removeWrites codec store sequences, [], rfl, ?_, keeps, Or.inl ⟨rfl, next⟩⟩
    rw [Meant.step, removeWrites]
    cases made : recordRemoval codec store sequences with
    | none =>
      rw [inv.not_removed made]
      exact inv
    | some removed =>
      have removed_inv := (inv.removed meets.1 made).1
      have same_next : removed.queue.nextSequence = store.queue.nextSequence := by
        rw [removed_inv.next, inv.next, next]
      dsimp only
      split
      · cases compacted : compactQueue codec removed with
        | none => exact removed_inv
        | some later => exact removed_inv.compacted (same_next ▸ meets.2) compacted
      · exact removed_inv
  | reopen =>
    obtain ⟨later, opened, later_inv⟩ := inv.opened nextFrame_nil
    rw [List.append_nil] at opened
    exact ⟨later, [], by rw [DeviceQueue.step, opened]; rfl, later_inv, unchanged, Or.inl ⟨rfl, rfl⟩⟩
  | tornAppend documentId document cut =>
    rw [DeviceQueue.step]
    cases made : appendWrite codec store documentId document with
    | none => exact ⟨store, [], rfl, inv, unchanged, Or.inl ⟨rfl, rfl⟩⟩
    | some pair =>
      obtain ⟨queued, later⟩ := pair
      obtain ⟨_, _, payload, short, grown⟩ := inv.appended meets made
      obtain ⟨opened, is_opened, opened_inv⟩ := inv.torn short grown cut
      exact ⟨opened, [], by dsimp only; rw [is_opened]; rfl, opened_inv, unchanged, Or.inl ⟨rfl, rfl⟩⟩
  | tornRemove sequences cut =>
    rw [DeviceQueue.step]
    cases made : recordRemoval codec store sequences with
    | none => exact ⟨store, [], rfl, inv, unchanged, Or.inl ⟨rfl, rfl⟩⟩
    | some later =>
      obtain ⟨_, payload, short, grown⟩ := inv.removed meets.1 made
      obtain ⟨opened, is_opened, opened_inv⟩ := inv.torn short grown cut
      exact ⟨opened, [], by dsimp only; rw [is_opened]; rfl, opened_inv, unchanged, Or.inl ⟨rfl, rfl⟩⟩
  | uncompactedRemove sequences =>
    obtain ⟨keeps, next⟩ := removal_keeps sequences
    rw [DeviceQueue.step, Meant.step]
    cases made : recordRemoval codec store sequences with
    | none =>
      rw [inv.not_removed made]
      exact ⟨store, [], rfl, inv, unchanged, Or.inl ⟨rfl, rfl⟩⟩
    | some later =>
      obtain ⟨opened, is_opened, opened_inv⟩ := (inv.removed meets.1 made).1.opened nextFrame_nil
      rw [List.append_nil] at is_opened
      exact ⟨opened, [], by dsimp only; rw [is_opened]; rfl, opened_inv, keeps, Or.inl ⟨rfl, next⟩⟩

theorem Inv.run (inv : Inv codec store meant) {events : List Event} (meets : RunMeets codec store events) :
    ∃ later stored, run codec store events = .ok (later, stored) ∧ Inv codec later (events.foldl (Meant.step codec) meant) ∧
      (events.foldl (Meant.step codec) meant).live.Sublist (meant.live ++ stored) ∧
      stored.Pairwise (fun earlier later => earlier.sequence < later.sequence) ∧
      meant.next ≤ later.queue.nextSequence ∧
      ∀ queued ∈ stored, meant.next ≤ queued.sequence ∧ queued.sequence < later.queue.nextSequence := by
  induction events generalizing store meant with
  | nil =>
    exact ⟨store, [], rfl, inv, by rw [List.append_nil]; exact List.Sublist.refl _, List.Pairwise.nil, inv.next.ge, nofun⟩
  | cons event events ih =>
    obtain ⟨now, afterwards⟩ := meets
    obtain ⟨middle, first, stepped, middle_inv, first_live, first_next⟩ := inv.step now
    obtain ⟨later, rest, ran, later_inv, rest_live, ascending, grown, rest_next⟩ := ih middle_inv (afterwards middle first stepped)
    refine ⟨later, first ++ rest, ?_, later_inv, ?_, ?_, ?_, ?_⟩
    · rw [DeviceQueue.run, stepped]
      dsimp only
      rw [ran]
      rfl
    · rw [← List.append_assoc]
      exact rest_live.trans (first_live.append_right rest)
    · rcases first_next with ⟨rfl, _⟩ | ⟨queued, rfl, own, next⟩
      · exact ascending
      · refine List.pairwise_cons.mpr ⟨fun other member => ?_, ascending⟩
        have := (rest_next other member).1
        omega
    · rcases first_next with ⟨_, next⟩ | ⟨_, _, _, next⟩ <;> omega
    · rcases first_next with ⟨rfl, next⟩ | ⟨queued, rfl, own, next⟩
      · exact fun queued member => next ▸ rest_next queued member
      · refine List.forall_mem_cons.mpr ⟨⟨own.ge, by omega⟩, fun other member => ?_⟩
        have := rest_next other member
        omega

end Steps

def emptyStore : DeviceStore := ⟨[], ⟨[], [], 1⟩, 0⟩

theorem emptyStore_inv (codec : ValueCodec) : Inv codec emptyStore ⟨[], 1⟩ where
  log := ⟨[], nofun, rfl, rfl, rfl⟩
  writes := rfl
  next := rfl
  ascending := List.Pairwise.nil
  below := nofun
  positive := Nat.le_refl _
  readable := nofun

/-- Where every record is read back, the queue survives every run: opened again it holds the live
    writes in their order, and no sequence number is given twice. -/
theorem deviceQueue_survives (codec : ValueCodec) {events : List Event} (meets : RunMeets codec emptyStore events) :
    ∃ store stored opened, run codec emptyStore events = .ok (store, stored) ∧
      queuedWrites store = (events.foldl (Meant.step codec) ⟨[], 1⟩).live ∧
      openStore codec store.file = .ok opened ∧ queuedWrites opened = queuedWrites store ∧
      opened.queue.nextSequence = store.queue.nextSequence ∧ (queuedWrites store).Sublist stored ∧
      stored.Pairwise (fun earlier later => earlier.sequence < later.sequence) ∧
      ∀ queued ∈ stored, queued.sequence < store.queue.nextSequence := by
  obtain ⟨store, stored, ran, inv, live, ascending, _, below⟩ := (emptyStore_inv codec).run meets
  obtain ⟨opened, is_opened, opened_inv⟩ := inv.opened nextFrame_nil
  rw [List.append_nil] at is_opened
  refine ⟨store, stored, opened, ran, inv.queuedWrites_eq, is_opened, ?_, opened_inv.next.trans inv.next.symm, ?_,
    ascending, fun queued member => (below queued member).2⟩
  · rw [inv.queuedWrites_eq, opened_inv.queuedWrites_eq]
  · rw [inv.queuedWrites_eq]
    exact live

theorem emptyDocument_meets : Meets shortestForms (.write ⟨1, "a", some []⟩) := by
  intro payload encoded
  have plain : (QueueRecord.write ⟨1, "a", some []⟩).value.Plain := by
    refine .object (by simp) (by simp) fun field member => ?_
    rcases List.mem_cons.mp member with rfl | member
    · exact .string _
    · rw [List.mem_singleton.mp member]
      refine .object (by simp) (by simp) fun field member => ?_
      rcases List.mem_cons.mp member with rfl | member
      · exact .count (by decide)
      · rcases List.mem_cons.mp member with rfl | member
        · exact .string _
        · rw [List.mem_singleton.mp member]
          exact .object List.nodup_nil List.not_mem_nil nofun
  refine ⟨?_, by show 1 ≤ maxSafeInteger; decide, shortestForms.decode_encode plain encoded⟩
  have short : (encodeQueueRecord shortestForms (.write ⟨1, "a", some []⟩)).map List.length = some 52 := by decide
  rw [encoded] at short
  rw [Option.some.inj short]
  decide

theorem deviceQueue_survives_reopening : ∃ store stored opened,
    run shortestForms emptyStore [.append "a" (some []), .reopen] = .ok (store, stored) ∧
      queuedWrites store = ([.append "a" (some []), .reopen].foldl (Meant.step shortestForms) ⟨[], 1⟩).live ∧
      openStore shortestForms store.file = .ok opened ∧ queuedWrites opened = queuedWrites store ∧
      opened.queue.nextSequence = store.queue.nextSequence ∧ (queuedWrites store).Sublist stored ∧
      stored.Pairwise (fun earlier later => earlier.sequence < later.sequence) ∧
      ∀ queued ∈ stored, queued.sequence < store.queue.nextSequence :=
  deviceQueue_survives shortestForms ⟨emptyDocument_meets, fun _ _ _ => ⟨trivial, fun _ _ _ => trivial⟩⟩

/-! ### A record past the limit -/

/-- A document with a text of as many bytes as a frame may have. -/
def longDocument : Fields := [("text", .string (String.ofList (List.replicate STORE_FRAME_LIMIT_BYTES 'a')))]

theorem replicate_size (count : Nat) : (List.replicate count 'a').utf8Encode.size = count := by
  induction count with
  | zero => rfl
  | succ count ih =>
    rw [List.replicate_succ, List.utf8Encode_cons, ByteArray.size_append, ih, Nat.add_comm]
    rfl

theorem text_encoded {text : String} {bytes : Bytes} (encoded : encodeString text = some bytes) : ∃ payload,
    encodeQueueRecord shortestForms (.write ⟨1, "a", some [("text", .string text)]⟩) = some payload ∧
      payload.length = 57 + bytes.length := by
  have short : ∀ key ∈ [("type", 4), ("write", 5), ("sequence", 8), ("documentId", 10), ("document", 8), ("a", 1), ("text", 4)],
      (encodeString key.1).map List.length = some (key.2 + 1) := by decide
  have known : ∀ key size, (key, size) ∈ [("type", 4), ("write", 5), ("sequence", 8), ("documentId", 10),
      ("document", 8), ("a", 1), ("text", 4)] → ∃ form, encodeString key = some form ∧ form.length = size + 1 :=
    fun _ _ member => Option.map_eq_some_iff.mp (short _ member)
  obtain ⟨type, is_type, type_length⟩ := known "type" 4 (by simp)
  obtain ⟨write, is_write, write_length⟩ := known "write" 5 (by simp)
  obtain ⟨sequence, is_sequence, sequence_length⟩ := known "sequence" 8 (by simp)
  obtain ⟨documentId, is_documentId, documentId_length⟩ := known "documentId" 10 (by simp)
  obtain ⟨document, is_document, document_length⟩ := known "document" 8 (by simp)
  obtain ⟨id, is_id, id_length⟩ := known "a" 1 (by simp)
  obtain ⟨key, is_key, key_length⟩ := known "text" 4 (by simp)
  have one : encodeForms (countValue 1) = some [1] := by decide
  have length : (encodeForms (QueueRecord.write ⟨1, "a", some [("text", .string text)]⟩).value).map List.length =
      some (57 + bytes.length) := by
    simp only [QueueRecord.value, QueuedWrite.value, Option.elim_some, encodeForms, encodeFields, is_type, is_write,
      is_sequence, is_documentId, is_document, is_id, is_key, one, encoded]
    simp [*, objectForm, lengthLimit]
    omega
  exact Option.map_eq_some_iff.mp length

theorem replicate_encoded {count : Nat} (is_limit : count = STORE_FRAME_LIMIT_BYTES) :
    ∃ bytes, encodeString (String.ofList (List.replicate count 'a')) = some bytes ∧ bytes.length = count + 5 := by
  have size : (String.ofList (List.replicate count 'a')).toByteArray.data.toList.length = count := by
    rw [String.toByteArray_ofList]
    exact replicate_size count
  have form : (stringForm count).length = 5 := by
    rw [is_limit]
    decide
  have fits : count < lengthLimit := by
    rw [is_limit]
    decide
  rw [encodeString, size, if_pos fits]
  refine ⟨_, rfl, ?_⟩
  rw [List.length_append, size, form, Nat.add_comm]

theorem longDocument_encoded : ∃ payload, encodeQueueRecord shortestForms (.write ⟨1, "a", some longDocument⟩) = some payload ∧
    STORE_FRAME_LIMIT_BYTES < payload.length ∧ payload.length < 2 ^ 32 := by
  obtain ⟨count, is_limit⟩ : ∃ count, count = STORE_FRAME_LIMIT_BYTES := ⟨_, rfl⟩
  obtain ⟨bytes, encoded, bytes_length⟩ := replicate_encoded is_limit
  obtain ⟨payload, payload_encoded, payload_length⟩ := text_encoded encoded
  rw [longDocument, ← is_limit]
  refine ⟨payload, payload_encoded, by omega, ?_⟩
  rw [STORE_FRAME_LIMIT_BYTES] at is_limit
  omega

theorem step_append {codec : ValueCodec} {store : DeviceStore} {documentId : String} {document : Option Fields}
    {payload : Bytes} (encoded : encodeQueueRecord codec (.write ⟨store.queue.nextSequence, documentId, document⟩) = some payload) :
    ∃ later, step codec store (.append documentId document) =
        .ok (later, [⟨store.queue.nextSequence, documentId, document⟩]) ∧
      later.file = store.file ++ frameOf payload ∧ later.queue.nextSequence = store.queue.nextSequence + 1 ∧
      later.queue.writes = Assoc.set store.queue.writes store.queue.nextSequence ⟨store.queue.nextSequence, documentId, document⟩ := by
  refine ⟨⟨store.file ++ frameOf payload, ⟨_, Assoc.set store.queue.recordBytes store.queue.nextSequence (frameOf payload).length, _⟩,
    store.queueFileBytes + (frameOf payload).length⟩, ?_, rfl, rfl, rfl⟩
  rw [step, appendWrite]
  dsimp only
  rw [encoded]
  rfl

theorem long_lost {document : Option Fields} {long : Bytes}
    (encoded : encodeQueueRecord shortestForms (.write ⟨1, "a", document⟩) = some long)
    (past : STORE_FRAME_LIMIT_BYTES < long.length) (small : long.length < 2 ^ 32) : ∃ store,
    run shortestForms emptyStore [.append "a" document, .append "b" (some []), .reopen, .append "c" (some [])] =
        .ok (store, [⟨1, "a", document⟩, ⟨2, "b", some []⟩, ⟨1, "c", some []⟩]) ∧
      queuedWrites store = [⟨1, "c", some []⟩] := by
  obtain ⟨second, second_encoded⟩ : ∃ bytes, encodeQueueRecord shortestForms (.write ⟨2, "b", some []⟩) = some bytes :=
    Option.isSome_iff_exists.mp (by decide)
  obtain ⟨third, third_encoded⟩ : ∃ bytes, encodeQueueRecord shortestForms (.write ⟨1, "c", some []⟩) = some bytes :=
    Option.isSome_iff_exists.mp (by decide)
  obtain ⟨one, first_step, one_file, one_next, _⟩ := @step_append shortestForms emptyStore _ _ _ encoded
  have one_next : one.queue.nextSequence = 2 := one_next
  obtain ⟨two, second_step, two_file, _, _⟩ := @step_append shortestForms one _ _ _ (one_next ▸ second_encoded)
  have unread : readFrames two.file = ([], 0) := by
    rw [two_file, one_file, show emptyStore.file = [] from rfl, List.nil_append]
    exact readFrames_none (nextFrame_long past small _)
  have third_step : step shortestForms two .reopen = .ok (emptyStore, []) := by
    rw [step, openStore, unread]
    rfl
  obtain ⟨last, fourth_step, _, _, last_writes⟩ := @step_append shortestForms emptyStore _ _ _ third_encoded
  refine ⟨last, ?_, ?_⟩
  · rw [run, first_step]
    dsimp only
    rw [run, second_step, one_next]
    dsimp only
    rw [run, third_step]
    dsimp only
    rw [run, fourth_step]
    rfl
  · rw [queuedWrites, last_writes]
    exact List.mergeSort_singleton _

/-- A write whose record is past the limit is stored, but lost with what was stored after it, and
    its sequence number is given again. -/
theorem longDocument_lost : ∃ store stored,
    run shortestForms emptyStore [.append "a" (some longDocument), .append "b" (some []), .reopen,
      .append "c" (some [])] = .ok (store, stored) ∧
      stored.map (fun queued => (queued.sequence, queued.documentId)) = [(1, "a"), (2, "b"), (1, "c")] ∧
      (queuedWrites store).map QueuedWrite.documentId = ["c"] := by
  obtain ⟨long, encoded, past, small⟩ := longDocument_encoded
  obtain ⟨store, ran, queued⟩ := long_lost encoded past small
  exact ⟨store, _, ran, rfl, by rw [queued]; rfl⟩

end Narsil.DeviceQueue
