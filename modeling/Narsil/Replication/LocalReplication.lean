import Narsil.Replication.Log
import Narsil.Durability.MutationBatch

/-!
# Applying replicated entries to the local engine

A run of entries is applied in order and, where the engine keeps a durable log,
recorded there together. The answer counts the leading entries that are applied
and durable.
-/
namespace Narsil.Replication

open Durability (NarsilError ManagerState MutationRecord MutationOutcome Outcomes
  PartitionBatchDeps BatchEvents recordPartitionBatch failUnlessAlreadyFailed)

/-- How one entry changes the engine's index, and the durable log it keeps, if any.
`applyEntry` stands for `applyIndexEntry` and `applyDeleteEntry`. -/
structure LocalEngine (σ : Type) where
  applyEntry : σ → ReplicationLogEntry → Except NarsilError σ
  durable : Option PartitionBatchDeps

/-- The index, and the entries its write records were told of, in order. -/
structure LocalIndex (σ : Type) where
  index : σ
  written : List ReplicationLogEntry

/-- What the disk does to one batch. -/
structure DiskEvents where
  appendFails : Option (NarsilError × Nat)
  commitFails : Option NarsilError
  /-- The durability directory is found lost once the batch is recorded. -/
  directoryLost : Option NarsilError

structure AppliedReplicationEntries where
  applied : Nat
  error : Option NarsilError
  deriving DecidableEq, Repr

section
variable {σ : Type}

def LocalEngine.applyAndNote (engine : LocalEngine σ) (s : LocalIndex σ)
    (entry : ReplicationLogEntry) : Except NarsilError (LocalIndex σ) := do
  let index ← engine.applyEntry s.index entry
  .ok ⟨index, s.written ++ [entry]⟩

/-- The loop without a durable log: it stops at the first entry that fails. -/
def LocalEngine.applyInOrder (engine : LocalEngine σ) (s : LocalIndex σ) :
    List ReplicationLogEntry → LocalIndex σ × AppliedReplicationEntries
  | [] => (s, ⟨0, none⟩)
  | entry :: rest =>
    match engine.applyAndNote s entry with
    | .error error => (s, ⟨0, some error⟩)
    | .ok next =>
      let (last, answer) := engine.applyInOrder next rest
      (last, { answer with applied := answer.applied + 1 })

/-- `applyAt`: the entry at a position, unless one before it has failed. -/
def LocalEngine.applyAt (engine : LocalEngine σ) (start : LocalIndex σ)
    (entries : List ReplicationLogEntry) (position : Nat) (s : LocalIndex σ) :
    Except NarsilError (LocalIndex σ) :=
  match (engine.applyInOrder start (entries.take position)).2.error with
  | some stopped => .error stopped
  | none =>
    match entries[position]? with
    | none => .ok s
    | some entry => engine.applyAndNote s entry

def mutationRecord (entry : ReplicationLogEntry) : MutationRecord :=
  ⟨entry.indexName, entry.partitionId, entry.operation, entry.documentId, entry.document⟩

/-- A replicated record keeps the number it came with. -/
def LocalEngine.batchEvents (engine : LocalEngine σ) (disk : DiskEvents) (start : LocalIndex σ)
    (entries : List ReplicationLogEntry) : BatchEvents (LocalIndex σ) where
  apply := engine.applyAt start entries
  numberEntry position := .ok entries[position]?
  appendFails := disk.appendFails
  commitFails := disk.commitFails

def isOk : Option MutationOutcome → Bool
  | some (.ok _) => true
  | _ => false

/-- `recordMutations` of the durability manager, for records of one partition. -/
def recordMutations (deps : PartitionBatchDeps) (disk : DiskEvents)
    (events : BatchEvents (LocalIndex σ)) (s : ManagerState (LocalIndex σ))
    (records : List MutationRecord) : ManagerState (LocalIndex σ) × Outcomes :=
  match s.fatalError with
  | some fatal => (s, records.map fun _ => some (.failed fatal))
  | none =>
    let (s, outcomes) := recordPartitionBatch deps events s records
    if ¬ outcomes.any isOk then (s, outcomes)
    else
      let s := { s with fatalError := s.fatalError.or disk.directoryLost }
      match s.fatalError with
      | some lost =>
        if deps.syncEachBatch then
          (s, outcomes.map fun outcome => if isOk outcome then some (.failed lost) else outcome)
        else (s, outcomes)
      | none => (s, outcomes)

/-- The leading outcomes that are ok, and the error of the one after them. -/
def countApplied : Outcomes → AppliedReplicationEntries
  | some (.ok _) :: rest => { countApplied rest with applied := (countApplied rest).applied + 1 }
  | some (.failed error) :: _ => ⟨0, some error⟩
  | _ => ⟨0, none⟩

def applyLocalReplicationEntries (engine : LocalEngine σ) (disk : DiskEvents)
    (s : ManagerState (LocalIndex σ)) (entries : List ReplicationLogEntry) :
    ManagerState (LocalIndex σ) × AppliedReplicationEntries :=
  match engine.durable with
  | none =>
    let (memory, answer) := engine.applyInOrder s.memory entries
    ({ s with memory }, answer)
  | some deps =>
    let (s, outcomes) := recordMutations deps disk (engine.batchEvents disk s.memory entries) s
      (entries.map mutationRecord)
    (s, countApplied outcomes)

end

end Narsil.Replication
