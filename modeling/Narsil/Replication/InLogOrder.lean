import Narsil.Replication.CollectedRuns
import Narsil.Replication.AppliedRuns
import Narsil.Replication.AppendedRuns
import Narsil.Durability.WalDurability

/-!
# A copy applies entries in log order, once

A run is applied to the engine first, and only then does the log look at its
entries. The log and the engine stay in step exactly where the log takes every
entry that the engine applied.
-/
namespace Narsil.Replication

open ReplicationLog
open Durability (sampleCodec sampleEntry)

/-- A log followed by some entries, its oldest ones evicted. -/
structure FollowedBy (log : ReplicationLog) (added : List ReplicationLogEntry) (log' : ReplicationLog) :
    Prop where
  lives : ∃ gone, log.live ++ added = gone ++ log'.live
  logEnd : log'.localLogEnd = ((added.getLast?).map ReplicationLogEntry.seqNo).getD log.localLogEnd
  endTerm : log'.localLogEndPrimaryTerm = lastTerm log.localLogEndPrimaryTerm added

section
variable {σ : Type}

/-- The new entries of a batch for a copy. -/
def Copy.newEntries (copy : Copy σ) (deps : DeliveryDeps σ) (previousTerm : Option Nat)
    (entries : List ReplicationLogEntry) : List ReplicationLogEntry :=
  Replication.newEntries deps.codec deps.isBootstrapSynced copy.log previousTerm entries

/-- The new entries of a batch that the engine applies. -/
def Copy.applicable (copy : Copy σ) (deps : DeliveryDeps σ) (previousTerm : Option Nat)
    (entries : List ReplicationLogEntry) : List ReplicationLogEntry :=
  deps.engine.applies copy.engine (copy.newEntries deps previousTerm entries)

/-- A copy took `added`, the leading new entries of a batch: the log is the old one
followed by them, the engine applied each of them once, and the same batch delivered
again, whatever the disk does then, changes nothing. -/
structure TookInOrder (deps : DeliveryDeps σ) (previousTerm : Option Nat) (copy : Copy σ)
    (entries : List ReplicationLogEntry) (copy' : Copy σ) (added : List ReplicationLogEntry) : Prop where
  leading : added <+: copy.newEntries deps previousTerm entries
  log : FollowedBy copy.log added copy'.log
  written : copy'.engine.memory.written = copy.engine.memory.written ++ added
  index : deps.engine.applyAll copy.engine.memory.index added = .ok copy'.engine.memory.index
  again : ∀ disk, (applyEntriesInLogOrder deps disk previousTerm copy' entries).1 = copy'

/-- The condition on a copy, a batch and the disk: the log accepts every new entry the
engine applies, the disk takes them, and an empty log that the batch begins anew gets
its first entry. -/
structure TakesWhatIsApplied (deps : DeliveryDeps σ) (disk : DiskEvents) (previousTerm : Option Nat)
    (copy : Copy σ) (entries : List ReplicationLogEntry) : Prop where
  accepted : ∀ entry ∈ copy.applicable deps previousTerm entries, LogAccepts copy.log entry
  durable : copy.applicable deps previousTerm entries ≠ [] →
    DiskTakes deps.engine disk (copy.applicable deps previousTerm entries)
  seeded : seedsLog deps.isBootstrapSynced copy.log entries = true →
    copy.applicable deps previousTerm entries ≠ []

/-- The durable log of the engine is not ahead of the replication log. -/
def NotAhead (deps : DeliveryDeps σ) (copy : Copy σ) : Prop :=
  deps.engine.durable.isSome = true → copy.engine.partition.appliedSeqNo ≤ copy.log.localLogEnd

variable {deps : DeliveryDeps σ} {disk : DiskEvents} {previousTerm : Option Nat} {copy : Copy σ}
  {entries : List ReplicationLogEntry} {r : LogRun}

theorem applicable_front_new : copy.applicable deps previousTerm entries
    <+: copy.newEntries deps previousTerm entries := by
  rw [Copy.applicable, LocalEngine.applies]
  split
  · exact List.nil_prefix
  · exact applicable_front _ _

/-- What a delivery leaves: the engine has what is applicable, and the log a front part of
it where the disk takes it and nothing of it elsewhere. -/
structure Left (deps : DeliveryDeps σ) (disk : DiskEvents) (copy copy' : Copy σ) (r0 : LogRun)
    (applied : List ReplicationLogEntry) : Prop where
  written : copy'.engine.memory.written = copy.engine.memory.written ++ applied
  index : deps.engine.applyAll copy.engine.memory.index applied = .ok copy'.engine.memory.index
  nothing : applied = [] → copy' = { copy with log := r0.log }
  refused : applied ≠ [] → ¬ DiskTakes deps.engine disk applied → copy'.log = r0.log
  taken : applied ≠ [] → DiskTakes deps.engine disk applied →
    ∃ r' taken, copy'.log = r'.log ∧ TookFront r0 applied r' taken

theorem ascending_numbered {seqNo limit : Nat} (numbered : NumberedFrom seqNo entries)
    (above : limit < seqNo) : (limit :: entries.map ReplicationLogEntry.seqNo).Pairwise (· < ·) := by
  rw [numbered]
  apply List.pairwise_cons.mpr ⟨_, List.pairwise_lt_range'⟩
  intro number listed
  rw [List.mem_range'_1] at listed
  omega

theorem applyRun_spec {new : List ReplicationLogEntry} (inv : r.Inv)
    (numbered : NumberedFrom r.log.nextSeqNo new)
    (verified : ∀ entry ∈ new, verifyEntryChecksum deps.codec entry = true)
    (below : deps.engine.durable.isSome = true → deps.engine.applies copy.engine new ≠ [] →
      copy.engine.partition.appliedSeqNo < r.log.nextSeqNo) :
    Left deps disk copy (applyRun deps disk { copy with log := r.log } new).1 r
      (deps.engine.applies copy.engine new) := by
  have isPrefix : deps.engine.applies copy.engine new <+: new := by
    rw [LocalEngine.applies]
    split
    · exact List.nil_prefix
    · exact applicable_front _ _
  rw [applyRun]
  by_cases empty : new = []
  · -- No run: the engine is not called.
    have none_ : deps.engine.applies copy.engine new = [] := by
      rw [empty] at isPrefix ⊢
      exact List.prefix_nil.mp isPrefix
    rw [if_pos empty, none_]
    exact ⟨by simp, rfl, fun _ => rfl, fun some_ => absurd rfl some_, fun some_ => absurd rfl some_⟩
  rw [if_neg empty]
  cases called : applyLocalReplicationEntries deps.engine disk copy.engine new with
  | mk engine answer =>
  generalize isApplied : deps.engine.applies copy.engine new = applied at isPrefix below
  obtain ⟨written, index, nothing, something⟩ := applyLocalReplicationEntries_spec disk copy.engine engine
    new answer applied isApplied
    (fun durable some_ => ascending_numbered (numbered.front isPrefix) (below durable some_)) called
  have reached : (applyRun deps disk { copy with log := r.log } new).1
      = ⟨(appendApplied deps.codec r.log (new.take answer.applied)).1, engine⟩ := by
    rw [applyRun, if_neg empty, called]
    simp only
    split
    next log error appended => rw [appended]
    next log appended =>
      rw [appended]
      split <;> rfl
  rw [applyRun, if_neg empty, called] at reached
  rw [reached]
  refine ⟨written, index, ?_, ?_, ?_⟩
  · intro none_
    obtain ⟨same, count⟩ := nothing none_
    rw [count, same]
    rfl
  · intro some_ refuses
    rw [(something some_).2 refuses]
    rfl
  · intro some_ takes
    have front : new.take answer.applied = applied := by
      rw [(something some_).1 takes]
      exact (List.prefix_iff_eq_take.mp isPrefix).symm
    rw [front]
    exact appendApplied_spec inv (numbered.front isPrefix)
      fun entry isIn => verified entry (isPrefix.subset isIn)

theorem applyEntriesInLogOrder_spec (isLog : r.log = copy.log) (inv : r.Inv)
    (notAhead : copy.applicable deps previousTerm entries ≠ [] → NotAhead deps copy)
    (batch : contiguous entries = true) :
    Left deps disk copy (applyEntriesInLogOrder deps disk previousTerm copy entries).1
      (seededRun deps.isBootstrapSynced r entries) (copy.applicable deps previousTerm entries) := by
  obtain ⟨run, walked⟩ := @collect_spec deps.codec deps.isBootstrapSynced entries r inv previousTerm batch
  rw [← @seededRun_log entries deps.isBootstrapSynced r] at walked
  have delivered : (applyEntriesInLogOrder deps disk previousTerm copy entries).1
      = (applyRun deps disk { copy with log := (seededRun deps.isBootstrapSynced r entries).log }
        (copy.newEntries deps previousTerm entries)).1 := by
    rw [applyEntriesInLogOrder, ← isLog, Copy.newEntries, ← isLog, ← run, ← walked]
    simp only
    split
    next applied => rw [applied]
    next applied => rw [applied]
  have inv0 := @seededRun_inv entries deps.isBootstrapSynced r inv
  have nextSeqNo := inv0.nextSeqNo
  have logEnd := inv0.localLogEnd
  have notBefore := (@seededRun_end entries deps.isBootstrapSynced r).1
  rw [Copy.applicable, Copy.newEntries, ← isLog] at notAhead
  rw [delivered, Copy.applicable, Copy.newEntries, ← isLog]
  apply applyRun_spec inv0 (newEntries_numbered inv batch) (newEntries_verified batch)
  intro durable some_
  have := notAhead some_ durable
  rw [← isLog] at this
  omega

theorem deliver_nothing (isLog : r.log = copy.log) (inv : r.Inv) (batch : contiguous entries = true)
    (stays : seedsLog deps.isBootstrapSynced copy.log entries = false)
    (none_ : copy.applicable deps previousTerm entries = []) :
    (applyEntriesInLogOrder deps disk previousTerm copy entries).1 = copy := by
  have spec := @applyEntriesInLogOrder_spec _ deps disk previousTerm copy entries r isLog inv
    (fun some_ => absurd none_ some_) batch
  rw [← isLog] at stays
  rw [spec.nothing none_, seededRun_not_seeds stays, isLog]

theorem applicable_again {r0 r' : LogRun} {copy' : Copy σ} {applied : List ReplicationLogEntry}
    (isLog : r.log = copy.log) (isSeeded : seededRun deps.isBootstrapSynced r entries = r0)
    (isApplied : copy.applicable deps previousTerm entries = applied)
    (batch : contiguous entries = true) (some_ : applied ≠ []) (inv0 : r0.Inv)
    (took : TookFront r0 applied r' applied) (log : copy'.log = r'.log)
    (index : deps.engine.applyAll copy.engine.memory.index applied = .ok copy'.engine.memory.index)
    (stays : seedsLog deps.isBootstrapSynced copy'.log entries = false) :
    copy'.applicable deps previousTerm entries = [] := by
  rw [Copy.applicable, Copy.newEntries, ← isLog, LocalEngine.applies] at isApplied
  split at isApplied
  · exact absurd isApplied.symm some_
  obtain ⟨seqNo, numbered, within, new⟩ : ∃ seqNo, NumberedFrom seqNo entries ∧
      seqNo ≤ r0.log.localLogEnd + 1 ∧
      newEntries deps.codec deps.isBootstrapSynced r.log previousTerm entries
        = checkedFrom deps.codec r0.log.localLogEndPrimaryTerm
          (entries.drop (r0.log.localLogEnd + 1 - seqNo)) := by
    rcases @newEntries_spec deps.codec entries deps.isBootstrapSynced r previousTerm batch with
      none_ | found
    · rw [none_] at isApplied
      exact absurd isApplied.symm some_
    · rwa [isSeeded] at found
  obtain ⟨last, applied_, refused⟩ := @applicable_spec _ deps.engine copy.engine.memory.index
    (newEntries deps.codec deps.isBootstrapSynced r.log previousTerm entries)
  rw [isApplied] at applied_ refused
  obtain rfl : last = copy'.engine.memory.index := Except.ok.inj (applied_.symm.trans index)
  have isFront : applied <+: newEntries deps.codec deps.isBootstrapSynced r.log previousTerm entries :=
    isApplied ▸ applicable_front _ _
  -- What is left of the new entries is what continues the log as it is now.
  rw [new, checkedFrom_drop (new ▸ isFront), List.drop_drop, ← took.endTerm inv0,
    show r0.log.localLogEnd + 1 - seqNo + applied.length = r'.log.localLogEnd + 1 - seqNo by
      rw [took.logEnd inv0]; omega] at refused
  have again : newEntries deps.codec deps.isBootstrapSynced r'.log previousTerm entries
      = continuing deps.codec r'.log previousTerm entries := by
    rw [log] at stays
    cases entries with
    | nil => rfl
    | cons entry rest => rw [newEntries, stays]; rfl
  rw [Copy.applicable, Copy.newEntries, log, again, LocalEngine.applies]
  split
  · rfl
  rcases continuing_spec numbered previousTerm with none_ | ⟨-, same⟩
  · rw [none_]
    rfl
  · rw [same]
    exact refused

theorem seedsLog_of_live {log : ReplicationLog} {isBootstrapSynced : Bool} (live : log.live ≠ []) :
    seedsLog isBootstrapSynced log entries = false := by
  have some_ : log.entryCount ≠ 0 := fun none_ => live (liveCount_eq_zero.mp none_)
  cases entries with
  | nil => rfl
  | cons entry rest => simp [seedsLog, some_]

theorem getLast_numbered {seqNo start : Nat} (numbered : NumberedFrom seqNo entries) (some_ : entries ≠ []) :
    ((entries.getLast?).map ReplicationLogEntry.seqNo).getD start + 1 = seqNo + entries.length := by
  have last := List.getLast?_eq_some_getLast some_
  rw [last]
  exact numbered.last _ last

theorem seededRun_same : (seededRun deps.isBootstrapSynced r entries).log.partitionId
      = r.log.partitionId ∧
    (seededRun deps.isBootstrapSynced r entries).log.retentionBytes = r.log.retentionBytes ∧
    (seededRun deps.isBootstrapSynced r entries).log.live = r.log.live := by
  cases entries with
  | nil => exact ⟨rfl, rfl, rfl⟩
  | cons entry rest =>
    rw [seededRun]
    split
    next seeds =>
      simp only [seedsLog, Bool.and_eq_true, beq_iff_eq] at seeds
      exact ⟨rfl, rfl, (liveCount_eq_zero.mp seeds.1.2).symm⟩
    next => exact ⟨rfl, rfl, rfl⟩

theorem TookInOrder.of_takes (isLog : r.log = copy.log) (inv : r.Inv) (notAhead : NotAhead deps copy)
    (batch : contiguous entries = true)
    (takes : TakesWhatIsApplied deps disk previousTerm copy entries) :
    TookInOrder deps previousTerm copy entries
      (applyEntriesInLogOrder deps disk previousTerm copy entries).1
      (copy.applicable deps previousTerm entries) := by
  have spec := @applyEntriesInLogOrder_spec _ deps disk previousTerm copy entries r isLog inv
    (fun _ => notAhead) batch
  have isPrefix := @applicable_front_new _ deps previousTerm copy entries
  have numbered := @newEntries_numbered deps.codec entries deps.isBootstrapSynced r previousTerm inv batch
  generalize isApplied : copy.applicable deps previousTerm entries = applied at *
  generalize isLeft : (applyEntriesInLogOrder deps disk previousTerm copy entries).1 = copy' at *
  by_cases none_ : applied = []
  · have stays : seedsLog deps.isBootstrapSynced copy.log entries = false := by
      by_contra seeds
      exact takes.seeded (by simpa using seeds) (isApplied.trans none_)
    have unchanged : ∀ disk, (applyEntriesInLogOrder deps disk previousTerm copy entries).1 = copy :=
      fun _ => deliver_nothing isLog inv batch stays (isApplied.trans none_)
    obtain rfl : copy = copy' := (unchanged disk).symm.trans isLeft
    subst none_
    exact ⟨isPrefix, ⟨⟨[], by simp⟩, rfl, rfl⟩, by simp, rfl, unchanged⟩
  · have inv0 := @seededRun_inv entries deps.isBootstrapSynced r inv
    obtain ⟨partitionId, retentionBytes, live⟩ := @seededRun_same _ deps entries r
    obtain ⟨r', taken, log, took⟩ := spec.taken none_ (isApplied ▸ takes.durable (isApplied ▸ none_))
    have accepted : ∀ entry ∈ applied,
        LogAccepts (seededRun deps.isBootstrapSynced r entries).log entry := by
      intro entry isIn
      have accepts := takes.accepted entry (isApplied ▸ isIn)
      rwa [LogAccepts, partitionId, retentionBytes, isLog, ← LogAccepts]
    obtain rfl : taken = applied := took.all accepted
    obtain ⟨gone, lives⟩ := took.lives
    have logEnd := took.logEnd inv0
    have last := @getLast_numbered taken _ copy.log.localLogEnd
      (numbered.front (by rw [isLog]; exact isPrefix)) none_
    have next := inv0.nextSeqNo
    have end0 := inv0.localLogEnd
    have stays : seedsLog deps.isBootstrapSynced copy'.log entries = false := by
      apply seedsLog_of_live
      rw [log]
      intro empty
      have since := took.inv.newest empty
      rw [took.since] at since
      exact none_ (List.append_eq_nil_iff.mp since).2
    refine ⟨isPrefix, ⟨⟨gone, ?_⟩, ?_, ?_⟩, spec.written, spec.index, fun again => ?_⟩
    · rw [log, ← lives, live, isLog]
    · rw [log]
      omega
    · rw [log, took.endTerm inv0]
      have some_ := List.getLast?_eq_some_getLast none_
      simp only [lastTerm, some_, Option.map_some, Option.getD_some]
    · apply deliver_nothing log.symm took.inv batch stays
      exact applicable_again isLog rfl isApplied batch none_ inv0 took log spec.index stays

/-- Where the log or the disk does not take what the engine applied, or an empty log is
begun anew for nothing, the log end is not where the engine is. -/
theorem TookInOrder.takes {added : List ReplicationLogEntry} (isLog : r.log = copy.log) (inv : r.Inv)
    (notAhead : NotAhead deps copy) (batch : contiguous entries = true)
    (took : TookInOrder deps previousTerm copy entries
      (applyEntriesInLogOrder deps disk previousTerm copy entries).1 added) :
    TakesWhatIsApplied deps disk previousTerm copy entries := by
  have spec := @applyEntriesInLogOrder_spec _ deps disk previousTerm copy entries r isLog inv
    (fun _ => notAhead) batch
  have isPrefix := @applicable_front_new _ deps previousTerm copy entries
  have numbered := @newEntries_numbered deps.codec entries deps.isBootstrapSynced r previousTerm inv batch
  have inv0 := @seededRun_inv entries deps.isBootstrapSynced r inv
  have next := inv0.nextSeqNo
  have end0 := inv0.localLogEnd
  obtain ⟨partitionId, retentionBytes, -⟩ := @seededRun_same _ deps entries r
  obtain rfl : added = copy.applicable deps previousTerm entries :=
    List.append_cancel_left (took.written.symm.trans spec.written)
  generalize isApplied : copy.applicable deps previousTerm entries = applied at *
  have logEnd := took.log.logEnd
  have ends : applied ≠ [] → (applyEntriesInLogOrder deps disk previousTerm copy entries).1.log.localLogEnd
      = (seededRun deps.isBootstrapSynced r entries).log.localLogEnd + applied.length := by
    intro some_
    have last := @getLast_numbered applied _ copy.log.localLogEnd
      (numbered.front (by rw [isLog]; exact isPrefix)) some_
    omega
  have durable : applied ≠ [] → DiskTakes deps.engine disk applied := by
    intro some_
    by_contra refuses
    have stopped := ends some_
    rw [spec.refused some_ refuses] at stopped
    have := List.length_pos_of_ne_nil some_
    omega
  refine ⟨?_, by rwa [isApplied], ?_⟩
  · rw [isApplied]
    intro entry isIn
    have some_ : applied ≠ [] := List.ne_nil_of_mem isIn
    obtain ⟨r', taken, log, tookFront⟩ := spec.taken some_ (durable some_)
    have reached := ends some_
    rw [log, tookFront.logEnd inv0] at reached
    have whole : taken = applied := tookFront.front.eq_of_length (by omega)
    by_contra unaccepted
    apply tookFront.refused ⟨entry, isIn, ?_⟩ whole
    rwa [LogAccepts, partitionId, retentionBytes, isLog, ← LogAccepts]
  · rw [isApplied]
    intro seeds none_
    have further := (@seededRun_end entries deps.isBootstrapSynced r).2 (isLog ▸ seeds)
    rw [none_, spec.nothing none_] at logEnd
    simp only [List.getLast?_nil, Option.map_none, Option.getD_none] at logEnd
    rw [isLog] at further
    omega

end

/-- An engine without a durable log whose index lists the documents it was told of. -/
def sampleDeps : DeliveryDeps (List String) :=
  ⟨sampleCodec, ⟨fun index entry => .ok (index ++ [entry.documentId]), none⟩, false⟩

def sampleCopy (retentionBytes : Nat) : Copy (List String) :=
  ⟨createReplicationLog 0 retentionBytes 1 0, ⟨⟨0, ⟨0, 0⟩, none, [], 0⟩, none, ⟨[], []⟩⟩⟩

def noFaults : DiskEvents := ⟨none, none, none⟩

end Narsil.Replication
