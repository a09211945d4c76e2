import Narsil.Replication.ContinuingEntries

/-!
# Appending what the engine applied

The log appends applied entries one by one and stops at the first one it does not
accept. The log it appends to is the one the copy had, or the one begun anew.
-/
namespace Narsil.Replication

open ReplicationLog

variable {codec : EntryCodec} {entry : ReplicationLogEntry} {entries : List ReplicationLogEntry}

/-- The log's own checks of an entry, beside its number in sequence and its checksum. -/
def LogAccepts (log : ReplicationLog) (entry : ReplicationLogEntry) : Prop :=
  entry.seqNo ≤ maxSafeInteger ∧ entry.partitionId = log.partitionId ∧
    entrySize entry ≤ log.retentionBytes

instance (log : ReplicationLog) : DecidablePred (LogAccepts log) := fun entry =>
  inferInstanceAs (Decidable (entry.seqNo ≤ maxSafeInteger ∧ entry.partitionId = log.partitionId ∧
    entrySize entry ≤ log.retentionBytes))

theorem appendCommitted_accepted {r : LogRun} (inv : r.Inv) (number : entry.seqNo = r.log.nextSeqNo)
    (verified : verifyEntryChecksum codec entry = true) (accepted : LogAccepts r.log entry) :
    r.log.appendCommitted codec entry
      = .ok ({ r.log with nextSeqNo := entry.seqNo + 1 }.storeEntry entry, entry) := by
  have nextSeqNo := inv.nextSeqNo
  have past : r.log.localLogEnd < entry.seqNo := by
    rw [number, inv.localLogEnd, nextSeqNo]
    exact Nat.lt_succ_self _
  have unheld := getEntry_past inv past
  have fits : r.log.assertEntryFitsRetention entry.indexName entry.documentId entry.document = .ok () := by
    exact if_neg (Nat.not_lt.mpr accepted.2.2)
  rw [appendCommitted, if_neg, if_neg (not_not.mpr accepted.2.1), ← getEntry, unheld]
  · simp only
    rw [if_neg (not_not.mpr number), if_neg (by simp [verified]), fits]
    rfl
  · have safe := accepted.1
    omega

theorem appendCommitted_unaccepted {r : LogRun} (inv : r.Inv) (number : entry.seqNo = r.log.nextSeqNo)
    (unaccepted : ¬ LogAccepts r.log entry) : ∃ error, r.log.appendCommitted codec entry = .error error := by
  cases appended : r.log.appendCommitted codec entry with
  | error error => exact ⟨error, rfl⟩
  | ok result =>
    have nextSeqNo := inv.nextSeqNo
    have past : r.log.localLogEnd < entry.seqNo := by
      rw [number, inv.localLogEnd, nextSeqNo]
      exact Nat.lt_succ_self _
    have safe : ¬ (entry.seqNo > maxSafeInteger ∨ entry.seqNo < 1) := by
      intro outside
      rw [appendCommitted, if_pos outside] at appended
      cases appended
    rcases appendCommitted_ok appended with ⟨-, held, -⟩ | ⟨-, -, -, partition, -, fits, -⟩
    · rw [← getEntry, getEntry_past inv past] at held
      cases held
    · exact absurd ⟨by omega, partition, fits⟩ unaccepted

/-- The log of a run that took a front part of some entries, and all of them exactly
where it accepts each. -/
structure TookFront (r : LogRun) (entries : List ReplicationLogEntry) (r' : LogRun)
    (taken : List ReplicationLogEntry) : Prop where
  inv : r'.Inv
  seededAt : r'.seededAt = r.seededAt
  seededTerm : r'.seededTerm = r.seededTerm
  before : r'.before = r.before
  since : r'.since = r.since ++ taken
  lives : ∃ gone, r.log.live ++ taken = gone ++ r'.log.live
  front : taken <+: entries
  all : (∀ entry ∈ entries, LogAccepts r.log entry) → taken = entries
  refused : (∃ entry ∈ entries, ¬ LogAccepts r.log entry) → taken ≠ entries

theorem TookFront.nothing {r : LogRun} (inv : r.Inv)
    (unaccepted : entries ≠ [] → ∃ entry ∈ entries, ¬ LogAccepts r.log entry) :
    TookFront r entries r [] where
  inv := inv
  seededAt := rfl
  seededTerm := rfl
  before := rfl
  since := by simp
  lives := ⟨[], by simp⟩
  front := List.nil_prefix
  all accepts := by
    by_contra some_
    obtain ⟨entry, isIn, refuses⟩ := unaccepted (Ne.symm some_)
    exact refuses (accepts entry isIn)
  refused := by
    rintro ⟨entry, isIn, -⟩ rfl
    cases isIn

theorem appendApplied_spec {r : LogRun} (inv : r.Inv) (numbered : NumberedFrom r.log.nextSeqNo entries)
    (verified : ∀ entry ∈ entries, verifyEntryChecksum codec entry = true) :
    ∃ r' taken, (appendApplied codec r.log entries).1 = r'.log ∧ TookFront r entries r' taken := by
  induction entries generalizing r with
  | nil => exact ⟨r, [], rfl, .nothing inv fun some_ => absurd rfl some_⟩
  | cons entry rest ih =>
    obtain ⟨number, numberedRest⟩ := numberedFrom_cons.mp numbered
    rw [appendApplied]
    by_cases accepted : LogAccepts r.log entry
    · rw [appendCommitted_accepted inv number (verified entry List.mem_cons_self) accepted]
      have stored := storeEntry_spec { r.log with nextSeqNo := entry.seqNo + 1 } entry inv.head inv.sized
        accepted.2.2 (by have := inv.localLogEnd; have := inv.nextSeqNo; simp only; omega)
      obtain ⟨gone, kept, split, lives⟩ := stored.lives
      have next := inv.store entry number accepted.2.2
      obtain ⟨r', taken, log, took⟩ := ih next
        (by rw [stored.nextSeqNo]; simp only [number]; exact numberedRest) fun other isIn => verified other (List.mem_cons_of_mem _ isIn)
      -- Storing an entry changes neither the partition nor the retention of the log.
      have same : ∀ other, LogAccepts ({ r.log with nextSeqNo := entry.seqNo + 1 }.storeEntry entry) other
          ↔ LogAccepts r.log other := by
        intro other
        rw [LogAccepts, LogAccepts, stored.partitionId, stored.retentionBytes]
      obtain ⟨gone', lives'⟩ := took.lives
      refine ⟨r', entry :: taken, log, took.inv, took.seededAt, took.seededTerm, took.before, ?_,
        ⟨gone ++ gone', ?_⟩, List.cons_prefix_cons.mpr ⟨rfl, took.front⟩, ?_, ?_⟩
      · rw [took.since]
        simp
      · simp only [lives] at lives'
        rw [show r.log.live = gone ++ kept from split, List.append_assoc, List.append_assoc, ← lives']
        simp
      · intro accepts
        rw [took.all fun other isIn => (same other).mpr (accepts other (List.mem_cons_of_mem _ isIn))]
      · rintro ⟨other, isIn, unaccepted⟩ whole
        rcases List.mem_cons.mp isIn with rfl | later
        · exact unaccepted accepted
        · exact took.refused ⟨other, later, fun accepts => unaccepted ((same other).mp accepts)⟩
            (List.cons.inj whole).2
    · obtain ⟨error, failed⟩ := @appendCommitted_unaccepted codec entry r inv number accepted
      rw [failed]
      exact ⟨r, [], rfl, .nothing inv fun _ => ⟨entry, List.mem_cons_self, accepted⟩⟩

theorem TookFront.logEnd {r r' : LogRun} {taken : List ReplicationLogEntry} (inv : r.Inv)
    (took : TookFront r entries r' taken) : r'.log.localLogEnd = r.log.localLogEnd + taken.length := by
  rw [took.inv.localLogEnd, inv.localLogEnd, took.seededAt]
  simp only [LogRun.history, took.before, took.since, List.length_append]
  omega

theorem lastTerm_two (given : Nat) (front back : List ReplicationLogEntry) :
    lastTerm given (front ++ back) = lastTerm (lastTerm given front) back := by
  rcases List.eq_nil_or_concat back with rfl | ⟨back, last, rfl⟩
  · simp [lastTerm]
  · rw [List.concat_eq_append, ← List.append_assoc, lastTerm_append, lastTerm_append]

theorem TookFront.endTerm {r r' : LogRun} {taken : List ReplicationLogEntry} (inv : r.Inv)
    (took : TookFront r entries r' taken) :
    r'.log.localLogEndPrimaryTerm = lastTerm r.log.localLogEndPrimaryTerm taken := by
  rw [took.inv.endTerm, inv.endTerm, took.seededTerm, ← lastTerm_two]
  simp only [LogRun.history, took.before, took.since, List.append_assoc]

/-- The run of the log that takes the new entries of a batch. -/
def seededRun (isBootstrapSynced : Bool) (r : LogRun) (entries : List ReplicationLogEntry) : LogRun :=
  match entries with
  | [] => r
  | entry :: _ =>
    if seedsLog isBootstrapSynced r.log entries then
      .seeded r.log.partitionId r.log.retentionBytes (entry.seqNo - 1) entry.primaryTerm
    else r

section
variable {isBootstrapSynced : Bool} {r : LogRun} {previousTerm : Option Nat}

theorem seededRun_not_seeds (not_ : seedsLog isBootstrapSynced r.log entries = false) :
    seededRun isBootstrapSynced r entries = r := by
  cases entries with
  | nil => rfl
  | cons entry rest => rw [seededRun, not_]; rfl

theorem seededRun_log : (seededRun isBootstrapSynced r entries).log
    = seededLog isBootstrapSynced r.log entries := by
  cases entries with
  | nil => rfl
  | cons entry rest =>
    rw [seededRun, seededLog]
    split
    next seeds =>
      simp only [seedsLog, Bool.and_eq_true, decide_eq_true_eq] at seeds
      have positive : entry.seqNo - 1 + 1 = entry.seqNo := by omega
      rw [LogRun.seeded, resetReplicationLog, positive]
    next => rfl

theorem seededRun_inv (inv : r.Inv) : (seededRun isBootstrapSynced r entries).Inv := by
  cases entries with
  | nil => exact inv
  | cons entry rest =>
    rw [seededRun]
    split
    · exact .seeded _ _ _ _
    · exact inv

theorem seededRun_end : r.log.localLogEnd
    ≤ (seededRun isBootstrapSynced r entries).log.localLogEnd ∧
      (seedsLog isBootstrapSynced r.log entries = true →
        r.log.localLogEnd < (seededRun isBootstrapSynced r entries).log.localLogEnd) := by
  cases entries with
  | nil => exact ⟨Nat.le_refl _, fun seeds => by cases seeds⟩
  | cons entry rest =>
    rw [seededRun]
    split
    next seeds =>
      simp only [seedsLog, Bool.and_eq_true, decide_eq_true_eq] at seeds
      have seededAt : (LogRun.seeded r.log.partitionId r.log.retentionBytes (entry.seqNo - 1)
          entry.primaryTerm).log.localLogEnd = entry.seqNo - 1 := by
        simp [LogRun.seeded, createReplicationLog]
      omega
    next not_ => exact ⟨Nat.le_refl _, fun seeds => absurd seeds not_⟩

theorem newEntries_spec (batch : contiguous entries = true) :
    let r0 := seededRun isBootstrapSynced r entries
    let new := newEntries codec isBootstrapSynced r.log previousTerm entries
    new = [] ∨ ∃ seqNo, NumberedFrom seqNo entries ∧ seqNo ≤ r0.log.localLogEnd + 1 ∧
      new = checkedFrom codec r0.log.localLogEndPrimaryTerm
        (entries.drop (r0.log.localLogEnd + 1 - seqNo)) := by
  cases entries with
  | nil => exact .inl rfl
  | cons entry rest =>
    have numbered := numberedFrom_of_contiguous batch
    simp only [newEntries, seededRun]
    split
    next seeds =>
      right
      have after : r.log.localLogEnd + 1 < entry.seqNo := by
        simp only [seedsLog, Bool.and_eq_true, decide_eq_true_eq] at seeds
        exact seeds.2
      have positive : entry.seqNo - 1 + 1 = entry.seqNo := by omega
      refine ⟨entry.seqNo, numbered, ?_, ?_⟩
      · simp only [LogRun.seeded, createReplicationLog, positive]
        omega
      · simp only [LogRun.seeded, createReplicationLog, positive]
        rw [Nat.sub_self, List.drop_zero]
    next =>
      rcases @continuing_spec codec r.log _ (entry :: rest) numbered previousTerm with none_ | ⟨within, same⟩
      · exact .inl none_
      · exact .inr ⟨_, numbered, within, same⟩

theorem newEntries_numbered (inv : r.Inv) (batch : contiguous entries = true) :
    NumberedFrom (seededRun isBootstrapSynced r entries).log.nextSeqNo
      (newEntries codec isBootstrapSynced r.log previousTerm entries) := by
  have inv0 := @seededRun_inv entries isBootstrapSynced r inv
  have next := inv0.nextSeqNo
  have logEnd := inv0.localLogEnd
  rcases @newEntries_spec codec entries isBootstrapSynced r previousTerm batch with
    none_ | ⟨seqNo, numbered, within, same⟩
  · rw [none_]
    rfl
  · rw [same]
    apply NumberedFrom.front _ (checkedFrom_front _ _ _)
    have dropped := numbered.drop ((seededRun isBootstrapSynced r entries).log.localLogEnd + 1 - seqNo)
    rwa [show (seededRun isBootstrapSynced r entries).log.nextSeqNo
      = seqNo + ((seededRun isBootstrapSynced r entries).log.localLogEnd + 1 - seqNo) by omega]

theorem newEntries_verified (batch : contiguous entries = true) (entry : ReplicationLogEntry)
    (isIn : entry ∈ newEntries codec isBootstrapSynced r.log previousTerm entries) :
    verifyEntryChecksum codec entry = true := by
  rcases @newEntries_spec codec entries isBootstrapSynced r previousTerm batch with
    none_ | ⟨seqNo, -, -, same⟩
  · rw [none_] at isIn
    cases isIn
  · rw [same] at isIn
    exact verified_of_mem_checkedFrom isIn

end

end Narsil.Replication
