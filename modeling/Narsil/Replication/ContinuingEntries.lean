import Narsil.Replication.LocalReplication
import Narsil.Replication.LogRuns

/-!
# Delivering entries to a copy

A batch from the primary is walked in order: entries the log holds are passed
over, the next ones are collected into a run, and the first entry that fits
neither ends the walk. The run is then applied to the engine, and what the engine
took is appended to the log.
-/
namespace Narsil.Replication

open Durability (NarsilError ManagerState)

inductive DeliveryError where
  | log (error : ReplicationError)
  | engine (error : Option NarsilError)
  deriving DecidableEq, Repr

structure Copy (σ : Type) where
  log : ReplicationLog
  engine : ManagerState (LocalIndex σ)

structure DeliveryDeps (σ : Type) where
  codec : EntryCodec
  engine : LocalEngine σ
  isBootstrapSynced : Bool

/-- The check of a batch message: its entries number on without a gap. -/
def contiguous : List ReplicationLogEntry → Bool
  | first :: second :: rest => second.seqNo == first.seqNo + 1 && contiguous (second :: rest)
  | _ => true

def validateReplicationEntry (codec : EntryCodec) (entry : ReplicationLogEntry)
    (localPrimaryTerm : Nat) : Option ErrorCode :=
  if ¬ ReplicationLog.verifyEntryChecksum codec entry then some .replicationEntryCorrupt
  else if entry.primaryTerm < localPrimaryTerm then some .replicationTermMismatch
  else none

def resetReplicationLog (log : ReplicationLog) (startSeqNo lastPrimaryTerm : Nat) : ReplicationLog :=
  createReplicationLog log.partitionId log.retentionBytes startSeqNo lastPrimaryTerm

/-- What the loop over a batch carries. -/
structure Walk where
  log : ReplicationLog
  tailSeqNo : Nat
  tailPrimaryTerm : Nat
  expectedPreviousTerm : Option Nat
  run : List ReplicationLogEntry
  deriving DecidableEq, Repr

namespace Walk

def heldTermBefore (walk : Walk) : Option Nat :=
  match walk.run.getLast? with
  | some last => some last.primaryTerm
  | none => if walk.tailSeqNo = 0 then some 0 else walk.log.termAt walk.tailSeqNo

/-- The term a batch gives the entry before this one, where the copy has another there. -/
def termConflict (walk : Walk) (entry : ReplicationLogEntry) : Option (Nat × Nat) :=
  match walk.expectedPreviousTerm, walk.heldTermBefore with
  | some expectedTermBefore, some heldTermBefore =>
    if entry.seqNo = walk.tailSeqNo + 1 ∧ heldTermBefore ≠ expectedTermBefore then
      some (expectedTermBefore, heldTermBefore)
    else none
  | _, _ => none

def canSeedFromCompletedBootstrap (isBootstrapSynced : Bool) (walk : Walk)
    (entry : ReplicationLogEntry) : Bool :=
  walk.run.length = 0 ∧ walk.log.entryCount = 0 ∧ entry.seqNo > walk.tailSeqNo + 1 ∧
    isBootstrapSynced = true

def push (codec : EntryCodec) (walk : Walk) (entry : ReplicationLogEntry) :
    Walk × Option ReplicationError :=
  match validateReplicationEntry codec entry walk.tailPrimaryTerm with
  | some code => (walk, some ⟨code, "Invalid replication entry " ++ toString entry.seqNo⟩)
  | none =>
    ({ walk with run := walk.run ++ [entry], tailSeqNo := entry.seqNo
                 tailPrimaryTerm := entry.primaryTerm
                 expectedPreviousTerm := some entry.primaryTerm }, none)

/-- One turn of the loop, with the error that ends it. -/
def take (codec : EntryCodec) (isBootstrapSynced : Bool) (walk : Walk)
    (entry : ReplicationLogEntry) : Walk × Option ReplicationError :=
  match walk.log.getEntry entry.seqNo with
  | some existing =>
    if existing.checksum ≠ entry.checksum then
      (walk, some ⟨.replicationEntryInvalid,
        "Conflicting replication entry at sequence number " ++ toString entry.seqNo⟩)
    else ({ walk with expectedPreviousTerm := some entry.primaryTerm }, none)
  | none =>
    match walk.termConflict entry with
    | some (expectedTermBefore, heldTermBefore) =>
      (walk, some ⟨.replicationEntryInvalid, "Replication entry " ++ toString entry.seqNo
        ++ " follows an entry of term " ++ toString expectedTermBefore
        ++ ", but this copy holds sequence number " ++ toString walk.tailSeqNo ++ " under term "
        ++ toString heldTermBefore⟩)
    | none =>
      if entry.seqNo ≠ walk.tailSeqNo + 1 then
        if walk.canSeedFromCompletedBootstrap isBootstrapSynced entry then
          let log := resetReplicationLog walk.log entry.seqNo entry.primaryTerm
          { walk with log, tailPrimaryTerm := log.localLogEndPrimaryTerm }.push codec entry
        else
          (walk, some ⟨.replicationEntryInvalid, "Out-of-order replication entry "
            ++ toString entry.seqNo ++ "; expected " ++ toString (walk.tailSeqNo + 1)⟩)
      else walk.push codec entry

/-- The loop, up to the first entry that ends it. -/
def collect (codec : EntryCodec) (isBootstrapSynced : Bool) (walk : Walk) :
    List ReplicationLogEntry → Walk × Option ReplicationError
  | [] => (walk, none)
  | entry :: rest =>
    match walk.take codec isBootstrapSynced entry with
    | (walk, some error) => (walk, some error)
    | (walk, none) => walk.collect codec isBootstrapSynced rest

end Walk

/-- The loop of `applyRun` that appends what the engine applied. -/
def appendApplied (codec : EntryCodec) (log : ReplicationLog) :
    List ReplicationLogEntry → ReplicationLog × Option ReplicationError
  | [] => (log, none)
  | entry :: rest =>
    match log.appendCommitted codec entry with
    | .error error => (log, some error)
    | .ok (log, _) => appendApplied codec log rest

section
variable {σ : Type}

def applyRun (deps : DeliveryDeps σ) (disk : DiskEvents) (copy : Copy σ)
    (run : List ReplicationLogEntry) : Copy σ × Option DeliveryError :=
  if run = [] then (copy, none)
  else
    let (engine, answer) := applyLocalReplicationEntries deps.engine disk copy.engine run
    match appendApplied deps.codec copy.log (run.take answer.applied) with
    | (log, some error) => (⟨log, engine⟩, some (.log error))
    | (log, none) =>
      if answer.applied < run.length then (⟨log, engine⟩, some (.engine answer.error))
      else (⟨log, engine⟩, none)

/-- Every way out of the loop applies the run first; an error of the run is thrown
before the one that ended the loop. -/
def applyEntriesInLogOrder (deps : DeliveryDeps σ) (disk : DiskEvents)
    (previousPrimaryTerm : Option Nat) (copy : Copy σ) (entries : List ReplicationLogEntry) :
    Copy σ × Option DeliveryError :=
  let start : Walk := ⟨copy.log, copy.log.localLogEnd, copy.log.localLogEndPrimaryTerm,
    previousPrimaryTerm, []⟩
  let (walk, ended) := start.collect deps.codec deps.isBootstrapSynced entries
  match applyRun deps disk { copy with log := walk.log } walk.run with
  | (copy, some error) => (copy, some error)
  | (copy, none) => (copy, ended.map .log)

end

end Narsil.Replication

/-!
## The entries of a batch that continue a log

Entries the log holds under the same checksum are passed over. The first new one
must number on from the log end and follow its term, and from there every entry
that verifies under a term that does not fall continues the log. The loop over a
batch collects exactly these.
-/
namespace Narsil.Replication

open ReplicationLog

/-- The leading entries that verify, under terms that do not fall. -/
def checkedFrom (codec : EntryCodec) (term : Nat) :
    List ReplicationLogEntry → List ReplicationLogEntry
  | [] => []
  | entry :: rest =>
    if verifyEntryChecksum codec entry = true ∧ term ≤ entry.primaryTerm then
      entry :: checkedFrom codec entry.primaryTerm rest
    else []

def holdsSame (log : ReplicationLog) (entry : ReplicationLogEntry) : Bool :=
  match log.getEntry entry.seqNo with
  | some existing => existing.checksum == entry.checksum
  | none => false

/-- The term of the log's newest entry, where it is known. -/
def newestTerm (log : ReplicationLog) : Option Nat :=
  if log.localLogEnd = 0 then some 0 else log.termAt log.localLogEnd

/-- Two terms agree unless both are known and differ. -/
def termsAgree : Option Nat → Option Nat → Bool
  | some expected, some held => held == expected
  | _, _ => true

/-- The entries that continue a log, where `previousTerm` is the term of the entry
before the batch, if the sender gave it. -/
def continuing (codec : EntryCodec) (log : ReplicationLog) (previousTerm : Option Nat) :
    List ReplicationLogEntry → List ReplicationLogEntry
  | [] => []
  | entry :: rest =>
    if entry.seqNo ≤ log.localLogEnd then
      if holdsSame log entry then continuing codec log (some entry.primaryTerm) rest else []
    else if entry.seqNo = log.localLogEnd + 1 ∧ termsAgree previousTerm (newestTerm log) = true then
      checkedFrom codec log.localLogEndPrimaryTerm (entry :: rest)
    else []

/-- A batch past the end of an empty log begins it anew once the bootstrap is complete. -/
def seedsLog (isBootstrapSynced : Bool) (log : ReplicationLog) : List ReplicationLogEntry → Bool
  | [] => false
  | entry :: _ => isBootstrapSynced && log.entryCount == 0 && log.localLogEnd + 1 < entry.seqNo

def newEntries (codec : EntryCodec) (isBootstrapSynced : Bool) (log : ReplicationLog)
    (previousTerm : Option Nat) (entries : List ReplicationLogEntry) : List ReplicationLogEntry :=
  match entries with
  | [] => []
  | entry :: _ =>
    if seedsLog isBootstrapSynced log entries then checkedFrom codec entry.primaryTerm entries
    else continuing codec log previousTerm entries

/-- The log that takes the new entries of a batch. -/
def seededLog (isBootstrapSynced : Bool) (log : ReplicationLog) (entries : List ReplicationLogEntry) :
    ReplicationLog :=
  match entries with
  | [] => log
  | entry :: _ =>
    if seedsLog isBootstrapSynced log entries then
      resetReplicationLog log entry.seqNo entry.primaryTerm
    else log

/-- Entries numbered on without a gap from a number. -/
def NumberedFrom (seqNo : Nat) (entries : List ReplicationLogEntry) : Prop :=
  entries.map ReplicationLogEntry.seqNo = List.range' seqNo entries.length

section
variable {codec : EntryCodec} {isBootstrapSynced : Bool} {log : ReplicationLog} {seqNo : Nat}
  {entry : ReplicationLogEntry} {entries rest : List ReplicationLogEntry}

theorem numberedFrom_cons :
    NumberedFrom seqNo (entry :: rest) ↔ entry.seqNo = seqNo ∧ NumberedFrom (seqNo + 1) rest := by
  simp [NumberedFrom, List.range'_succ]

theorem numberedFrom_of_contiguous (h : contiguous (entry :: rest) = true) :
    NumberedFrom entry.seqNo (entry :: rest) := by
  induction rest generalizing entry with
  | nil => simp [NumberedFrom]
  | cons second rest ih =>
    simp only [contiguous, Bool.and_eq_true, beq_iff_eq] at h
    rw [numberedFrom_cons]
    exact ⟨rfl, h.1 ▸ ih h.2⟩

theorem NumberedFrom.front {some_ : List ReplicationLogEntry} (numbered : NumberedFrom seqNo entries)
    (isPrefix : some_ <+: entries) : NumberedFrom seqNo some_ := by
  obtain ⟨others, rfl⟩ := isPrefix
  rw [NumberedFrom, List.map_append, List.length_append, ← List.range'_append] at numbered
  exact (List.append_inj numbered (by simp)).1

theorem NumberedFrom.drop (numbered : NumberedFrom seqNo entries) (count : Nat) :
    NumberedFrom (seqNo + count) (entries.drop count) := by
  rw [NumberedFrom, List.map_drop, numbered, List.length_drop]
  rcases Nat.le_total count entries.length with within | past
  · rw [List.drop_range']
    simp
  · rw [List.drop_eq_nil_of_le (by simpa using past), Nat.sub_eq_zero_of_le past]
    rfl

theorem NumberedFrom.le (numbered : NumberedFrom seqNo entries) (isIn : entry ∈ entries) :
    seqNo ≤ entry.seqNo := by
  have : entry.seqNo ∈ entries.map ReplicationLogEntry.seqNo := List.mem_map_of_mem isIn
  rw [numbered, List.mem_range'_1] at this
  exact this.1

theorem NumberedFrom.last (numbered : NumberedFrom seqNo entries) (last : ReplicationLogEntry)
    (isLast : entries.getLast? = some last) : last.seqNo + 1 = seqNo + entries.length := by
  have some_ : entries ≠ [] := by
    intro empty
    rw [empty] at isLast
    cases isLast
  obtain ⟨front, whole⟩ := List.getLast?_eq_some_iff.mp isLast
  subst whole
  have here := (numbered.drop front.length)
  rw [List.drop_left, numberedFrom_cons] at here
  rw [here.1, List.length_append, List.length_singleton]
  omega

theorem checkedFrom_front (codec : EntryCodec) (term : Nat) (entries : List ReplicationLogEntry) :
    checkedFrom codec term entries <+: entries := by
  induction entries generalizing term with
  | nil => exact List.prefix_rfl
  | cons entry rest ih =>
    rw [checkedFrom]
    split
    · exact List.cons_prefix_cons.mpr ⟨rfl, ih entry.primaryTerm⟩
    · exact List.nil_prefix

theorem verified_of_mem_checkedFrom {term : Nat} (isIn : entry ∈ checkedFrom codec term entries) :
    verifyEntryChecksum codec entry = true := by
  induction entries generalizing term with
  | nil => cases isIn
  | cons first rest ih =>
    rw [checkedFrom] at isIn
    split at isIn
    next checked =>
      rcases List.mem_cons.mp isIn with rfl | later
      · exact checked.1
      · exact ih later
    next => cases isIn

theorem checkedFrom_drop {term : Nat} {front : List ReplicationLogEntry}
    (isFront : front <+: checkedFrom codec term entries) :
    (checkedFrom codec term entries).drop front.length
      = checkedFrom codec (lastTerm term front) (entries.drop front.length) := by
  induction entries generalizing term front with
  | nil =>
    rw [checkedFrom, List.prefix_nil] at isFront
    simp [isFront, checkedFrom]
  | cons entry rest ih =>
    cases front with
    | nil => rfl
    | cons first front =>
      rw [checkedFrom] at isFront ⊢
      split at isFront
      next checked =>
        obtain ⟨rfl, isFront⟩ := List.cons_prefix_cons.mp isFront
        rw [if_pos checked]
        simp only [List.length_cons, List.drop_succ_cons]
        rw [ih isFront]
        congr 1
        cases front with
        | nil => rfl
        | cons second front =>
          have last := List.getLast?_eq_some_getLast (List.cons_ne_nil second front)
          simp only [lastTerm, List.getLast?_cons_cons, last, Option.map_some, Option.getD_some]
      next => exact absurd isFront (by simp)

theorem continuing_spec (numbered : NumberedFrom seqNo entries) (previousTerm : Option Nat) :
    continuing codec log previousTerm entries = [] ∨
      seqNo ≤ log.localLogEnd + 1 ∧ continuing codec log previousTerm entries
        = checkedFrom codec log.localLogEndPrimaryTerm (entries.drop (log.localLogEnd + 1 - seqNo)) := by
  induction entries generalizing seqNo previousTerm with
  | nil => exact .inl rfl
  | cons entry rest ih =>
    obtain ⟨number, numberedRest⟩ := numberedFrom_cons.mp numbered
    rw [continuing]
    split
    next old =>
      split
      next =>
        rcases ih numberedRest (some entry.primaryTerm) with none | ⟨within, same⟩
        · exact .inl none
        · refine .inr ⟨by omega, ?_⟩
          rw [same, show log.localLogEnd + 1 - seqNo = (log.localLogEnd + 1 - (seqNo + 1)) + 1 by omega,
            List.drop_succ_cons]
      next => exact .inl rfl
    next new_ =>
      split
      next next_ =>
        refine .inr ⟨by omega, ?_⟩
        rw [show log.localLogEnd + 1 - seqNo = 0 by omega, List.drop_zero]
      next => exact .inl rfl

theorem getEntry_past {r : LogRun} (inv : r.Inv) (past : r.log.localLogEnd < seqNo) :
    r.log.getEntry seqNo = none := by
  rw [getEntry, readEntry_eq inv.ascending_live inv.head, List.find?_eq_none]
  intro held isIn
  have listed : held.seqNo ∈ r.history.map ReplicationLogEntry.seqNo :=
    List.mem_map_of_mem (inv.live_suffix.subset isIn)
  rw [inv.numbered, List.mem_range'_1, ← Nat.add_right_comm, ← inv.localLogEnd] at listed
  simp only [decide_eq_true_eq]
  omega

theorem getEntry_empty (empty : log.entryCount = 0) : log.getEntry seqNo = none := by
  rw [getEntry, readEntry, if_pos]
  exact empty

end

end Narsil.Replication
