import Mathlib.Data.List.TakeDrop
import Narsil.Replication.Log
import Narsil.Transition.Run

/-!
# What a replication log answers

Every read of the log is a statement about its live entries, and storing an entry
keeps a back part of them with the new one at the end.
-/
namespace Narsil.Replication

variable {entries : List ReplicationLogEntry} {seqNo : Nat}

theorem drop_eq_filter {α : Type} (passes : α → Bool) (values : List α) (cut : Nat)
    (splits : ∀ i value, values[i]? = some value → (i < cut ↔ passes value = true)) :
    values.drop cut = values.filter fun value => ! passes value := by
  induction values generalizing cut with
  | nil => simp
  | cons value rest ih =>
    have first := splits 0 value rfl
    cases cut with
    | zero =>
      have kept : ∀ other ∈ value :: rest, (! passes other) = true := by
        intro other isIn
        obtain ⟨i, here⟩ := List.mem_iff_getElem?.mp isIn
        have := splits i other here
        simpa using this
      rw [List.filter_eq_self.mpr kept, List.drop_zero]
    | succ cut =>
      have dropped := first.mp (Nat.zero_lt_succ cut)
      rw [List.drop_succ_cons, List.filter_cons_of_neg (by simp [dropped])]
      apply ih
      intro i other here
      have := splits (i + 1) other here
      rwa [Nat.add_lt_add_iff_right] at this

namespace ReplicationLog

variable {log : ReplicationLog}

/-- The entries that are not evicted. -/
def live (log : ReplicationLog) : List ReplicationLogEntry := log.entries.drop log.headIndex

@[simp] theorem length_live (log : ReplicationLog) : log.live.length = log.liveCount := by
  simp [live, liveCount]

theorem liveCount_eq_zero : log.liveCount = 0 ↔ log.live = [] := by
  rw [← length_live, List.length_eq_zero_iff]

theorem head_eq : log.entries[log.headIndex]? = log.live.head? := by
  simp [live]

theorem findIndexBetween_spec (head : Nat) (ascending : Ascending (entries.drop head))
    (fuel low high : Nat) (enough : high - low ≤ fuel) (atHead : head ≤ low) (order : low ≤ high)
    (within : high ≤ entries.length)
    (below : ∀ i entry, head ≤ i → i < low → entries[i]? = some entry → entry.seqNo < seqNo)
    (above : ∀ i entry, high ≤ i → entries[i]? = some entry → seqNo ≤ entry.seqNo) :
    head ≤ findIndexBetween entries seqNo fuel low high ∧
      ∀ i entry, head ≤ i → entries[i]? = some entry →
        (i < findIndexBetween entries seqNo fuel low high ↔ entry.seqNo < seqNo) := by
  have sorted : ∀ i j x y, head ≤ i → i < j → entries[i]? = some x → entries[j]? = some y →
      x.seqNo < y.seqNo := by
    intro i j x y after before atI atJ
    have ordered := List.pairwise_iff_getElem.mp ascending
    obtain ⟨iWithin, rfl⟩ := List.getElem?_eq_some_iff.mp atI
    obtain ⟨jWithin, rfl⟩ := List.getElem?_eq_some_iff.mp atJ
    have := ordered (i - head) (j - head) (by rw [List.length_drop]; omega)
      (by rw [List.length_drop]; omega) (by omega)
    simpa [List.getElem_drop, Nat.add_sub_cancel' after,
      Nat.add_sub_cancel' (show head ≤ j by omega)] using this
  induction fuel generalizing low high with
  | zero =>
    obtain rfl : low = high := by omega
    refine ⟨atHead, fun i entry after here => ⟨fun before => below i entry after before here, ?_⟩⟩
    intro less
    by_contra past
    have := above i entry (by simpa [findIndexBetween] using past) here
    omega
  | succ fuel ih =>
    rw [findIndexBetween]
    by_cases open_ : low < high
    · obtain ⟨middle, atMid⟩ : ∃ middle, entries[(low + high - 1) / 2]? = some middle :=
        ⟨_, List.getElem?_eq_getElem (by omega)⟩
      rw [if_pos open_, atMid]
      simp only
      by_cases less : middle.seqNo < seqNo
      · rw [if_pos less]
        apply ih _ _ (by omega) (by omega) (by omega) within _ above
        intro i entry after before here
        rcases Nat.eq_or_lt_of_le (Nat.le_of_lt_succ before) with rfl | earlier
        · rw [atMid] at here
          exact (Option.some.inj here) ▸ less
        · have := sorted i _ entry middle after earlier here atMid
          omega
      · rw [if_neg less]
        by_cases more : middle.seqNo > seqNo
        · rw [if_pos more]
          apply ih _ _ (by omega) atHead (by omega) (by omega) below
          intro i entry after here
          rcases Nat.eq_or_lt_of_le after with rfl | later
          · rw [atMid] at here
            exact (Option.some.inj here) ▸ Nat.le_of_lt more
          · have := sorted _ i middle entry (by omega) later atMid here
            omega
        · -- The number itself stands here.
          rw [if_neg more]
          refine ⟨by omega, fun i entry after here => ⟨fun before => ?_, fun smaller => ?_⟩⟩
          · have := sorted i _ entry middle after before here atMid
            omega
          · by_contra past
            rcases Nat.eq_or_lt_of_le (Nat.not_lt.mp past) with same | later
            · rw [← same, atMid] at here
              cases here
              omega
            · have := sorted _ i middle entry (by omega) later atMid here
              omega
    · obtain rfl : low = high := by omega
      rw [if_neg open_]
      refine ⟨atHead, fun i entry after here => ⟨fun before => below i entry after before here, ?_⟩⟩
      intro less
      by_contra past
      have := above i entry (by omega) here
      omega

theorem findIndexBySeqNo_spec (ascending : Ascending log.live)
    (head : log.headIndex ≤ log.entries.length) (seqNo : Nat) :
    log.entries.drop (log.findIndexBySeqNo seqNo)
      = log.live.filter fun entry => ! decide (entry.seqNo < seqNo) := by
  obtain ⟨after, splits⟩ := @findIndexBetween_spec log.entries seqNo log.headIndex ascending
    log.entries.length log.headIndex log.entries.length (by omega) (Nat.le_refl _) head
    (Nat.le_refl _) (by intros; omega)
    (by intro i entry past here; rw [List.getElem?_eq_none past] at here; cases here)
  rw [← drop_eq_filter (fun entry => decide (entry.seqNo < seqNo)) log.live
    (log.findIndexBySeqNo seqNo - log.headIndex)]
  · rw [live, List.drop_drop, findIndexBySeqNo, Nat.add_sub_cancel' after]
  · intro i entry here
    rw [live, List.getElem?_drop] at here
    have := splits (log.headIndex + i) entry (by omega) here
    simp only [decide_eq_true_eq, ← this, findIndexBySeqNo]
    omega

theorem getEntriesFrom_eq (ascending : Ascending log.live)
    (head : log.headIndex ≤ log.entries.length) (seqNo : Nat) :
    log.getEntriesFrom seqNo = log.live.filter fun entry => decide (seqNo ≤ entry.seqNo) := by
  rw [getEntriesFrom]
  split
  next empty => rw [liveCount_eq_zero.mp empty]; rfl
  next =>
    rw [findIndexBySeqNo_spec ascending head seqNo]
    apply List.filter_congr
    intro entry _
    by_cases less : entry.seqNo < seqNo
    · simp [less]
    · simp [less, Nat.not_lt.mp less]

theorem readEntry_eq (ascending : Ascending log.live)
    (head : log.headIndex ≤ log.entries.length) (seqNo : Nat) :
    log.readEntry seqNo = log.live.find? fun entry => decide (entry.seqNo = seqNo) := by
  rw [readEntry]
  split
  next empty => rw [liveCount_eq_zero.mp empty]; rfl
  next =>
    have front : log.entries[log.findIndexBySeqNo seqNo]?
        = (log.live.filter fun entry => ! decide (entry.seqNo < seqNo)).head? := by
      rw [← findIndexBySeqNo_spec ascending head seqNo, List.head?_drop]
    rw [front]
    -- Of the entries that are not below the number, only the first one can have it.
    generalize log.live = values at ascending
    clear front head
    induction values with
    | nil => rfl
    | cons value rest ih =>
      have parts := List.pairwise_cons.mp ascending
      by_cases less : value.seqNo < seqNo
      · rw [List.filter_cons_of_neg (by simp [less]), List.find?_cons_of_neg (by simp; omega)]
        exact ih parts.2
      · rw [List.filter_cons_of_pos (by simp [less]), List.head?_cons]
        simp only
        by_cases same : value.seqNo = seqNo
        · rw [if_pos same, List.find?_cons_of_pos (by simp [same])]
        · rw [if_neg same, List.find?_cons_of_neg (by simp [same]), eq_comm, List.find?_eq_none]
          intro later isIn
          have := parts.1 later isIn
          simp only [decide_eq_true_eq]
          omega

end ReplicationLog

end Narsil.Replication

/-!
## Runs of a replication log

A log is seeded at a position and its term, and from there appended to, evicted
from and cleared. Its live entries are always a back part of everything it took,
numbered without a gap up to the log end.
-/
namespace Narsil.Replication

open ReplicationLog

variable {codec : EntryCodec}

namespace ReplicationLog

theorem evictWhileOver_spec (turns : Nat) (log : ReplicationLog)
    (front : List ReplicationLogEntry) (entry : ReplicationLogEntry)
    (lives : log.live = front ++ [entry]) (fits : entrySize entry ≤ log.retentionBytes)
    (sized : log.totalSizeBytes = (log.live.map entrySize).sum) :
    ∃ gone kept total head, log.evictWhileOver turns
        = { log with totalSizeBytes := total, headIndex := head } ∧
      front = gone ++ kept ∧ log.entries.drop head = kept ++ [entry] ∧
      total = ((kept ++ [entry]).map entrySize).sum := by
  induction turns generalizing log front with
  | zero => exact ⟨[], front, log.totalSizeBytes, log.headIndex, rfl, rfl, lives, lives ▸ sized⟩
  | succ turns ih =>
    have stays : ∃ gone kept total head, log
        = { log with totalSizeBytes := total, headIndex := head } ∧
        front = gone ++ kept ∧ log.entries.drop head = kept ++ [entry] ∧
        total = ((kept ++ [entry]).map entrySize).sum :=
      ⟨[], front, log.totalSizeBytes, log.headIndex, rfl, rfl, lives, lives ▸ sized⟩
    rw [evictWhileOver, head_eq, lives]
    cases front with
    | nil =>
      rw [lives] at sized
      simp only [List.nil_append, List.map_cons, List.map_nil, List.sum_cons, List.sum_nil,
        Nat.add_zero] at sized
      simp only [List.nil_append, List.head?_cons]
      rw [if_neg (by omega)]
      exact stays
    | cons oldest rest =>
      simp only [List.cons_append, List.head?_cons]
      by_cases exceeded : log.totalSizeBytes > log.retentionBytes
      · rw [if_pos exceeded]
        have next : log.entries.drop (log.headIndex + 1) = rest ++ [entry] := by
          rw [← List.drop_drop, ← live, lives]
          rfl
        have smaller : log.totalSizeBytes - entrySize oldest
            = ((log.entries.drop (log.headIndex + 1)).map entrySize).sum := by
          rw [next, sized, lives]
          simp
        obtain ⟨gone, kept, total, head, evicted, split, lives', sized'⟩ :=
          ih { log with totalSizeBytes := log.totalSizeBytes - entrySize oldest,
                        headIndex := log.headIndex + 1 } rest next fits smaller
        exact ⟨oldest :: gone, kept, total, head, evicted, by rw [split]; rfl, lives', sized'⟩
      · rw [if_neg exceeded]
        exact stays

/-- What storing an entry that fits does to a log. -/
structure Stored (log : ReplicationLog) (entry : ReplicationLogEntry) (log' : ReplicationLog) :
    Prop where
  lives : ∃ gone kept, log.live = gone ++ kept ∧ log'.live = kept ++ [entry]
  head : log'.headIndex ≤ log'.entries.length
  sized : log'.totalSizeBytes = (log'.live.map entrySize).sum
  nextSeqNo : log'.nextSeqNo = log.nextSeqNo
  localLogEnd : log'.localLogEnd = entry.seqNo
  localLogEndPrimaryTerm : log'.localLogEndPrimaryTerm = entry.primaryTerm
  seedSeqNo : log'.seedSeqNo = log.seedSeqNo
  seedPrimaryTerm : log'.seedPrimaryTerm = log.seedPrimaryTerm
  partitionId : log'.partitionId = log.partitionId
  retentionBytes : log'.retentionBytes = log.retentionBytes

theorem storeEntry_spec (log : ReplicationLog) (entry : ReplicationLogEntry)
    (head : log.headIndex ≤ log.entries.length)
    (sized : log.totalSizeBytes = (log.live.map entrySize).sum)
    (fits : entrySize entry ≤ log.retentionBytes) (higher : log.localLogEnd ≤ entry.seqNo) :
    Stored log entry (log.storeEntry entry) := by
  have pushed : (log.entries ++ [entry]).drop log.headIndex = log.live ++ [entry] := by
    rw [List.drop_append_of_le_length head]
    rfl
  obtain ⟨gone, kept, total, head', evicted, split, lives, sized'⟩ := evictWhileOver_spec
    (log.entries.length + 1 - log.headIndex)
    { log with entries := log.entries ++ [entry], localLogEnd := entry.seqNo,
               localLogEndPrimaryTerm := entry.primaryTerm,
               totalSizeBytes := log.totalSizeBytes + entrySize entry }
    log.live entry pushed fits (by simp only [live, pushed, sized]; simp)
  have within : head' ≤ (log.entries ++ [entry]).length := by
    have count := congrArg List.length lives
    simp only [List.length_drop, List.length_append, List.length_singleton] at count ⊢
    omega
  have stored : log.storeEntry entry = (if head' ≥ 256 ∨ head' > (log.entries ++ [entry]).length - head'
      then compact else id) { log with
        entries := log.entries ++ [entry], localLogEnd := entry.seqNo,
        localLogEndPrimaryTerm := entry.primaryTerm, totalSizeBytes := total, headIndex := head' } := by
    simp only [storeEntry, if_pos higher, evictOldEntries, liveCount, List.length_append,
      List.length_singleton, evicted]
    split <;> rfl
  rw [stored]
  split
  · -- Compaction drops exactly the evicted entries.
    rw [compact]
    split
    next =>
      refine ⟨⟨gone, kept, split, lives⟩, Nat.zero_le _, ?_, rfl, rfl, rfl, rfl, rfl, rfl, rfl⟩
      simp only [live, List.drop_zero, lives, sized']
    next =>
      refine ⟨⟨gone, kept, split, lives⟩, within, ?_, rfl, rfl, rfl, rfl, rfl, rfl, rfl⟩
      simp only [live, lives, sized']
  · refine ⟨⟨gone, kept, split, lives⟩, within, ?_, rfl, rfl, rfl, rfl, rfl, rfl, rfl⟩
    simp only [id, live, lives, sized']

end ReplicationLog

namespace ReplicationLog

theorem assertEntryFitsRetention_ok {log : ReplicationLog} {indexName documentId : String}
    {document : Option Bytes} (h : log.assertEntryFitsRetention indexName documentId document = .ok ()) :
    estimateEntrySize indexName documentId document ≤ log.retentionBytes := by
  rw [assertEntryFitsRetention] at h
  split at h
  · cases h
  next fits => exact Nat.not_lt.mp fits

theorem append_ok {log log' : ReplicationLog} {fields : EntryFields} {entry : ReplicationLogEntry}
    (h : log.append codec fields = .ok (log', entry)) :
    entry = numberedEntry codec log fields ∧ entrySize entry ≤ log.retentionBytes ∧
      log' = { log with nextSeqNo := entry.seqNo + 1 }.storeEntry entry := by
  rw [append] at h
  cases fits : log.assertEntryFitsRetention fields.indexName fields.documentId fields.document with
  | error error => rw [fits] at h; cases h
  | ok _ =>
    rw [fits] at h
    cases h
    exact ⟨rfl, assertEntryFitsRetention_ok fits, rfl⟩

theorem appendCommitted_ok {log log' : ReplicationLog} {entry answered : ReplicationLogEntry}
    (h : log.appendCommitted codec entry = .ok (log', answered)) :
    (log' = log ∧ log.readEntry entry.seqNo = some answered ∧ answered.checksum = entry.checksum) ∨
    (answered = entry ∧ entry.seqNo = log.nextSeqNo ∧ log.readEntry entry.seqNo = none ∧
      entry.partitionId = log.partitionId ∧ verifyEntryChecksum codec entry = true ∧
      entrySize entry ≤ log.retentionBytes ∧
      log' = { log with nextSeqNo := entry.seqNo + 1 }.storeEntry entry) := by
  rw [appendCommitted] at h
  split at h
  · cases h
  split at h
  · cases h
  next _ local_ =>
    cases held : log.readEntry entry.seqNo with
    | some existing =>
      rw [held] at h
      simp only at h
      split at h
      · cases h
      next agreeing =>
        cases h
        exact .inl ⟨rfl, rfl, not_not.mp agreeing⟩
    | none =>
      rw [held] at h
      simp only at h
      split at h
      · cases h
      next inOrder =>
        split at h
        · cases h
        next verified =>
          cases fits : log.assertEntryFitsRetention entry.indexName entry.documentId
              entry.document with
          | error error => rw [fits] at h; cases h
          | ok _ =>
            rw [fits] at h
            cases h
            exact .inr ⟨rfl, not_not.mp inOrder, rfl, not_not.mp local_, by simpa using verified,
              assertEntryFitsRetention_ok fits, rfl⟩

end ReplicationLog

/-- The term of the last entry, or the one given where there is none. -/
def lastTerm (given : Nat) (entries : List ReplicationLogEntry) : Nat :=
  ((entries.getLast?).map ReplicationLogEntry.primaryTerm).getD given

@[simp] theorem lastTerm_append (given : Nat) (entries : List ReplicationLogEntry)
    (entry : ReplicationLogEntry) : lastTerm given (entries ++ [entry]) = entry.primaryTerm := by
  simp [lastTerm]

/-- A log and what it has taken: the position it was seeded at with that position's
term, the entries up to the last clearing, and the entries since. -/
structure LogRun where
  log : ReplicationLog
  seededAt : Nat
  seededTerm : Nat
  before : List ReplicationLogEntry
  since : List ReplicationLogEntry
  deriving DecidableEq, Repr

namespace LogRun

/-- Everything taken since the seed, evicted and cleared entries among it. -/
def history (r : LogRun) : List ReplicationLogEntry := r.before ++ r.since

/-- The term of the copy's entry at a number, as far as the copy has been told. -/
def termOf (r : LogRun) (seqNo : Nat) : Option Nat :=
  if seqNo = r.seededAt then some r.seededTerm
  else (r.history.find? fun entry => decide (entry.seqNo = seqNo)).map ReplicationLogEntry.primaryTerm

def seeded (partitionId retentionBytes seqNo primaryTerm : Nat) : LogRun :=
  ⟨createReplicationLog partitionId retentionBytes (seqNo + 1) primaryTerm, seqNo, primaryTerm, [], []⟩

end LogRun

/-- What is done to a log. A call that throws leaves it as it was; seeding replaces it. -/
inductive LogCall where
  | append (fields : EntryFields)
  | appendCommitted (entry : ReplicationLogEntry)
  | advanceCommitPoint (seqNo : Nat)
  | clear
  | seed (seqNo primaryTerm : Nat)
  deriving DecidableEq, Repr

/-- The log after a call took `entry`, if the call numbered it anew. -/
def LogRun.take (r : LogRun) (log : ReplicationLog) (entry : ReplicationLogEntry) : LogRun :=
  if log.nextSeqNo = r.log.nextSeqNo then { r with log }
  else { r with log, since := r.since ++ [entry] }

def nextLog (codec : EntryCodec) (r : LogRun) : LogCall → Option LogRun
  | .append fields =>
    match r.log.append codec fields with
    | .error _ => some r
    | .ok (log, entry) => some (r.take log entry)
  | .appendCommitted entry =>
    match r.log.appendCommitted codec entry with
    | .error _ => some r
    | .ok (log, entry) => some (r.take log entry)
  | .advanceCommitPoint seqNo => some { r with log := r.log.advanceCommitPoint seqNo }
  | .clear => some { r with log := r.log.clear, before := r.history, since := [] }
  | .seed seqNo primaryTerm =>
    some (.seeded r.log.partitionId r.log.retentionBytes seqNo primaryTerm)

/-- The live entries are a back part of what was taken since the last clearing, the
newest entry among them; numbers run on from the seed without a gap. -/
structure LogRun.Inv (r : LogRun) : Prop where
  head : r.log.headIndex ≤ r.log.entries.length
  sized : r.log.totalSizeBytes = (r.log.live.map entrySize).sum
  numbered : r.history.map ReplicationLogEntry.seqNo
    = List.range' (r.seededAt + 1) r.history.length
  nextSeqNo : r.log.nextSeqNo = r.seededAt + r.history.length + 1
  localLogEnd : r.log.localLogEnd = r.seededAt + r.history.length
  endTerm : r.log.localLogEndPrimaryTerm = lastTerm r.seededTerm r.history
  seedSeqNo : r.log.seedSeqNo = r.seededAt + r.before.length
  seedTerm : r.log.seedPrimaryTerm = lastTerm r.seededTerm r.before
  kept : r.log.live <:+ r.since
  newest : r.log.live = [] → r.since = []

namespace LogRun.Inv

variable {r r' : LogRun}

theorem ascending_history (inv : r.Inv) : Ascending r.history := by
  have sorted : (r.history.map ReplicationLogEntry.seqNo).Pairwise (· < ·) := by
    rw [inv.numbered]
    exact List.pairwise_lt_range'
  exact List.pairwise_map.mp sorted

theorem live_suffix (inv : r.Inv) : r.log.live <:+ r.history :=
  inv.kept.trans (List.suffix_append _ _)

theorem ascending_live (inv : r.Inv) : Ascending r.log.live :=
  inv.ascending_history.sublist inv.live_suffix.sublist

theorem seeded (partitionId retentionBytes seqNo primaryTerm : Nat) :
    (LogRun.seeded partitionId retentionBytes seqNo primaryTerm).Inv where
  head := Nat.le_refl _
  sized := rfl
  numbered := rfl
  nextSeqNo := rfl
  localLogEnd := rfl
  endTerm := rfl
  seedSeqNo := rfl
  seedTerm := rfl
  kept := List.suffix_rfl
  newest _ := rfl

theorem store (inv : r.Inv) (entry : ReplicationLogEntry)
    (number : entry.seqNo = r.log.nextSeqNo) (fits : entrySize entry ≤ r.log.retentionBytes) :
    ({ r with log := { r.log with nextSeqNo := entry.seqNo + 1 }.storeEntry entry
              since := r.since ++ [entry] } : LogRun).Inv := by
  have nextSeqNo := inv.nextSeqNo
  have stored := storeEntry_spec { r.log with nextSeqNo := entry.seqNo + 1 } entry inv.head
    inv.sized fits (by have := inv.localLogEnd; simp only; omega)
  obtain ⟨gone, kept, split, lives⟩ := stored.lives
  have taken : (r.history ++ [entry]).length = r.history.length + 1 := by simp
  refine ⟨stored.head, stored.sized, ?_, ?_, ?_, ?_, ?_, ?_, ?_, ?_⟩
  · simp only [LogRun.history, ← List.append_assoc]
    rw [← LogRun.history, List.map_append, inv.numbered, taken, List.range'_concat]
    simp only [List.map_cons, List.map_nil]
    congr 2
    omega
  · rw [stored.nextSeqNo]
    simp only [LogRun.history, ← List.append_assoc]
    rw [← LogRun.history, taken]
    omega
  · rw [stored.localLogEnd]
    simp only [LogRun.history, ← List.append_assoc]
    rw [← LogRun.history, taken]
    omega
  · rw [stored.localLogEndPrimaryTerm]
    simp only [LogRun.history, ← List.append_assoc, lastTerm_append]
  · rw [stored.seedSeqNo]
    exact inv.seedSeqNo
  · rw [stored.seedPrimaryTerm]
    exact inv.seedTerm
  · simp only [lives]
    have suffix : kept <:+ r.since := (split ▸ List.suffix_append gone kept).trans inv.kept
    obtain ⟨rest, whole⟩ := suffix
    exact ⟨rest, by rw [← whole, List.append_assoc]⟩
  · intro empty
    rw [lives] at empty
    simp at empty

theorem take_stored {log : ReplicationLog} {entry : ReplicationLogEntry} (inv : r.Inv)
    (number : entry.seqNo = r.log.nextSeqNo) (fits : entrySize entry ≤ r.log.retentionBytes)
    (stored : log = { r.log with nextSeqNo := entry.seqNo + 1 }.storeEntry entry) :
    (r.take log entry).Inv := by
  have later : log.nextSeqNo = entry.seqNo + 1 := by
    have spec := storeEntry_spec { r.log with nextSeqNo := entry.seqNo + 1 } entry inv.head
      inv.sized fits (by have := inv.localLogEnd; have := inv.nextSeqNo; simp only; omega)
    rw [stored, spec.nextSeqNo]
  rw [LogRun.take, if_neg (by omega), stored]
  exact inv.store entry number fits

theorem advanceCommitPoint (inv : r.Inv) (seqNo : Nat) :
    ({ r with log := r.log.advanceCommitPoint seqNo } : LogRun).Inv := by
  have same : ∃ commitPoint, r.log.advanceCommitPoint seqNo = { r.log with commitPoint } := by
    rw [ReplicationLog.advanceCommitPoint]
    split
    · exact ⟨_, rfl⟩
    · exact ⟨r.log.commitPoint, rfl⟩
  obtain ⟨commitPoint, same⟩ := same
  rw [same]
  exact ⟨inv.head, inv.sized, inv.numbered, inv.nextSeqNo, inv.localLogEnd, inv.endTerm,
    inv.seedSeqNo, inv.seedTerm, inv.kept, inv.newest⟩

theorem clear (inv : r.Inv) :
    ({ r with log := r.log.clear, before := r.history, since := [] } : LogRun).Inv := by
  have nextSeqNo := inv.nextSeqNo
  have whole : ({ r with log := r.log.clear, before := r.history, since := [] } : LogRun).history
      = r.history := by simp [LogRun.history]
  refine ⟨Nat.le_refl _, rfl, ?_, ?_, ?_, ?_, ?_, inv.endTerm, List.suffix_rfl, fun _ => rfl⟩
  · rw [whole]
    exact inv.numbered
  · rw [whole]
    exact nextSeqNo
  · rw [whole]
    change r.log.nextSeqNo - 1 = r.seededAt + r.history.length
    omega
  · rw [whole]
    exact inv.endTerm
  · change r.log.nextSeqNo - 1 = r.seededAt + r.history.length
    omega

theorem next (inv : r.Inv) (call : LogCall) (step : nextLog codec r call = some r') : r'.Inv := by
  cases call with
  | append fields =>
    simp only [nextLog] at step
    split at step
    · cases step
      exact inv
    next log entry taken =>
      cases step
      obtain ⟨built, fits, stored⟩ := append_ok taken
      exact inv.take_stored (by rw [built]; rfl) fits stored
  | appendCommitted entry =>
    simp only [nextLog] at step
    split at step
    · cases step
      exact inv
    next log answered taken =>
      cases step
      rcases appendCommitted_ok taken with ⟨rfl, -, -⟩ | ⟨rfl, number, -, -, -, fits, stored⟩
      · rw [LogRun.take, if_pos rfl]
        exact inv
      · exact inv.take_stored number fits stored
  | advanceCommitPoint seqNo =>
    cases step
    exact inv.advanceCommitPoint seqNo
  | clear =>
    cases step
    exact inv.clear
  | seed seqNo primaryTerm =>
    cases step
    exact .seeded _ _ _ _

theorem run {partitionId retentionBytes seqNo primaryTerm : Nat} {calls : List LogCall}
    (reached : Transition.run (nextLog codec) (.seeded partitionId retentionBytes seqNo primaryTerm)
      calls = some r) : r.Inv :=
  Transition.run_invariant (nextLog codec) LogRun.Inv
    (fun _ call _ inv step => inv.next call step) calls _ r
    (.seeded partitionId retentionBytes seqNo primaryTerm) reached

end LogRun.Inv

end Narsil.Replication
