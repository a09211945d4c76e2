import Narsil.Durability.WalFraming

/-!
# Recording a batch of mutations

A batch is applied to memory record by record, then numbered, appended to the
log of its partition and, where every batch is synced, committed. Which of these
fail is the environment's choice.
-/
namespace Narsil.Durability

structure MutationRecord where
  indexName : String
  partitionId : Nat
  operation : ReplicationOperation
  documentId : String
  document : Option Bytes
  deriving DecidableEq, Repr

inductive MutationOutcome where
  | ok (seqNo : Nat)
  | failed (error : NarsilError)
  deriving DecidableEq, Repr

structure SeqOwner where
  current : Nat
  primaryTerm : Nat
  deriving DecidableEq, Repr

abbrev singleNodePrimaryTerm : Nat := 1

structure PartitionState where
  appliedSeqNo : Nat
  seqOwner : SeqOwner
  failed : Option NarsilError
  /-- What the partition's log writer holds, and how much of it a commit made durable. -/
  appended : List ReplicationLogEntry
  committed : Nat
  deriving DecidableEq, Repr

structure PartitionBatchDeps where
  codec : EntryCodec
  syncEachBatch : Bool
  failsPartitionAlone : NarsilError → Bool
  defersCommit : MutationRecord → Bool

/-- What goes wrong in one batch: how each record's `apply` changes memory or throws,
how each record is numbered, whether the append fails and after how many entries,
and whether the commit fails. -/
structure BatchEvents (μ : Type) where
  apply : Nat → μ → Except NarsilError μ
  numberEntry : Nat → Except NarsilError (Option ReplicationLogEntry)
  appendFails : Option (NarsilError × Nat)
  commitFails : Option NarsilError

structure ManagerState (μ : Type) where
  partition : PartitionState
  fatalError : Option NarsilError
  memory : μ

def buildMutationEntry (codec : EntryCodec) (record : MutationRecord) (seqNo : Nat) :
    ReplicationLogEntry :=
  let entry : ReplicationLogEntry := ⟨seqNo, singleNodePrimaryTerm, record.operation,
    record.partitionId, record.indexName, record.documentId, record.document, 0⟩
  { entry with checksum := computeEntryChecksum codec entry }

def requireAscendingSeqNo (record : MutationRecord) (seqNo previousSeqNo : Nat) :
    Except NarsilError Unit :=
  if seqNo > previousSeqNo then .ok ()
  else .error ⟨.persistenceSaveFailed, "Log record " ++ toString seqNo ++ " for partition "
    ++ toString record.partitionId ++ " of index \"" ++ record.indexName ++ "\" does not follow record "
    ++ toString previousSeqNo⟩

abbrev Outcomes := List (Option MutationOutcome)

def failUnlessAlreadyFailed (outcomes : Outcomes) (error : NarsilError) : Outcomes :=
  outcomes.map fun
    | some (.failed first) => some (.failed first)
    | _ => some (.failed error)

section
variable {μ : Type}

def failPartition (deps : PartitionBatchDeps) (s : ManagerState μ) (error : NarsilError) :
    ManagerState μ × NarsilError :=
  match s.partition.failed with
  | some first => (s, first)
  | none =>
    ({ s with partition := { s.partition with failed := some error }
              fatalError := if deps.failsPartitionAlone error then s.fatalError
                else s.fatalError.or (some error) }, error)

structure Applying (μ : Type) where
  memory : μ
  applied : List (Nat × MutationRecord)
  outcomes : Outcomes

/-- The loop that applies the records, each numbered by its place in the batch. -/
def applyEach (events : BatchEvents μ) : List (Nat × MutationRecord) → Applying μ → Applying μ
  | [], s => s
  | (i, record) :: rest, s =>
    match events.apply i s.memory with
    | .ok memory => applyEach events rest { s with memory, applied := s.applied ++ [(i, record)] }
    | .error error =>
      applyEach events rest { s with outcomes := s.outcomes.set i (some (.failed error)) }

structure Numbering where
  seqOwner : SeqOwner
  lastSeqNo : Nat
  entries : List ReplicationLogEntry
  outcomes : Outcomes
  commitsHere : Bool

def Numbering.push (deps : PartitionBatchDeps) (s : Numbering) (i : Nat) (record : MutationRecord)
    (entry : ReplicationLogEntry) (seqOwner : SeqOwner) : Numbering where
  seqOwner
  lastSeqNo := entry.seqNo
  entries := s.entries ++ [entry]
  outcomes := s.outcomes.set i (some (.ok entry.seqNo))
  commitsHere := s.commitsHere || ! deps.defersCommit record

/-- The loop that numbers the applied records, with the error that ended it early. -/
def numberEach (deps : PartitionBatchDeps) (events : BatchEvents μ) :
    List (Nat × MutationRecord) → Numbering → Numbering × Option NarsilError
  | [], s => (s, none)
  | (i, record) :: rest, s =>
    match events.numberEntry i with
    | .error error =>
      numberEach deps events rest { s with outcomes := s.outcomes.set i (some (.failed error)) }
    | .ok none =>
      let seqNo := s.seqOwner.current + 1
      numberEach deps events rest
        (s.push deps i record (buildMutationEntry deps.codec record seqNo)
          { s.seqOwner with current := seqNo })
    | .ok (some entry) =>
      match requireAscendingSeqNo record entry.seqNo s.lastSeqNo with
      | .error error => (s, some error)
      | .ok () =>
        numberEach deps events rest (s.push deps i record entry ⟨entry.seqNo, entry.primaryTerm⟩)

/-- `appendAll` of the log writer: all entries, or those before the failure. -/
def appendAll (events : BatchEvents μ) (partition : PartitionState)
    (entries : List ReplicationLogEntry) : PartitionState × Option NarsilError :=
  if entries = [] then (partition, none)
  else
    match events.appendFails with
    | none => ({ partition with appended := partition.appended ++ entries }, none)
    | some (error, reached) =>
      ({ partition with appended := partition.appended ++ entries.take reached }, some error)

def recordPartitionBatch (deps : PartitionBatchDeps) (events : BatchEvents μ) (s : ManagerState μ)
    (records : List MutationRecord) : ManagerState μ × Outcomes :=
  let unset : Outcomes := List.replicate records.length none
  match s.fatalError, s.partition.failed with
  | some fatal, _ => (s, failUnlessAlreadyFailed unset fatal)
  | none, some failed => (s, failUnlessAlreadyFailed unset failed)
  | none, none =>
    let applying := applyEach events (records.zipIdx.map Prod.swap) ⟨s.memory, [], unset⟩
    let s := { s with memory := applying.memory }
    if applying.applied = [] then (s, applying.outcomes)
    else
      let (numbering, thrown) := numberEach deps events applying.applied
        ⟨s.partition.seqOwner, s.partition.appliedSeqNo, [], applying.outcomes, false⟩
      let s := { s with partition := { s.partition with seqOwner := numbering.seqOwner } }
      match thrown with
      | some error =>
        let (s, error) := failPartition deps s error
        (s, failUnlessAlreadyFailed numbering.outcomes error)
      | none =>
        match appendAll events s.partition numbering.entries with
        | (partition, some error) =>
          let (s, error) := failPartition deps { s with partition } error
          (s, failUnlessAlreadyFailed numbering.outcomes error)
        | (partition, none) =>
          let s := { s with partition := { partition with appliedSeqNo := numbering.lastSeqNo } }
          if deps.syncEachBatch && numbering.entries.length > 0 && numbering.commitsHere then
            match events.commitFails with
            | some error =>
              let (s, error) := failPartition deps s error
              (s, failUnlessAlreadyFailed numbering.outcomes error)
            | none =>
              ({ s with partition := { s.partition with committed := s.partition.appended.length } },
                numbering.outcomes)
          else (s, numbering.outcomes)

end

end Narsil.Durability
