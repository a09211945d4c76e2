import Narsil.Durability.WalFraming

/-!
# The replication log

The entries a copy of a partition keeps in memory to send to other copies. The
log may begin anywhere, forgets its oldest entries when it grows past its
retention, and numbers or checks every entry it takes.
-/
namespace Narsil.Replication

open Durability (computeEntryChecksum)

abbrev replicationEntryFixedOverheadBytes : Nat := 40
abbrev defaultLogRetentionBytes : Nat := 268435456
abbrev maxSafeInteger : Nat := 9007199254740991

inductive ErrorCode where
  | replicationLogFull
  | replicationEntryInvalid
  | replicationEntryCorrupt
  | replicationTermMismatch
  deriving DecidableEq, Repr

structure ReplicationError where
  code : ErrorCode
  message : String
  deriving DecidableEq, Repr

/-- `length` of a string: its UTF-16 code units. -/
def utf16Length (text : String) : Nat :=
  (text.toList.map fun c => if c.toNat < 0x10000 then 1 else 2).sum

def estimateEntrySize (indexName documentId : String) (document : Option Bytes) : Nat :=
  replicationEntryFixedOverheadBytes + utf16Length indexName + utf16Length documentId
    + (document.map List.length).getD 0

def entrySize (entry : ReplicationLogEntry) : Nat :=
  estimateEntrySize entry.indexName entry.documentId entry.document

/-- The fields a caller of `append` gives. -/
structure EntryFields where
  primaryTerm : Nat
  operation : ReplicationOperation
  indexName : String
  documentId : String
  document : Option Bytes
  deriving DecidableEq, Repr

structure ReplicationLog where
  partitionId : Nat
  retentionBytes : Nat
  nextSeqNo : Nat
  localLogEnd : Nat
  localLogEndPrimaryTerm : Nat
  seedSeqNo : Nat
  seedPrimaryTerm : Nat
  commitPoint : Nat
  entries : List ReplicationLogEntry
  /-- Entries before this index are evicted; no read goes there. -/
  headIndex : Nat
  totalSizeBytes : Nat
  deriving DecidableEq, Repr

def createReplicationLog (partitionId retentionBytes startSeqNo lastPrimaryTerm : Nat) :
    ReplicationLog where
  partitionId
  retentionBytes
  nextSeqNo := startSeqNo
  localLogEnd := startSeqNo - 1
  localLogEndPrimaryTerm := lastPrimaryTerm
  seedSeqNo := startSeqNo - 1
  seedPrimaryTerm := lastPrimaryTerm
  commitPoint := startSeqNo - 1
  entries := []
  headIndex := 0
  totalSizeBytes := 0

namespace ReplicationLog

def liveCount (log : ReplicationLog) : Nat := log.entries.length - log.headIndex

def compact (log : ReplicationLog) : ReplicationLog :=
  if log.headIndex > 0 then { log with entries := log.entries.drop log.headIndex, headIndex := 0 }
  else log

/-- The loop of `findIndexBySeqNo`; `high` is one past the source's. -/
def findIndexBetween (entries : List ReplicationLogEntry) (seqNo : Nat) : Nat → Nat → Nat → Nat
  | 0, low, _ => low
  | fuel + 1, low, high =>
    if low < high then
      match entries[(low + high - 1) / 2]? with
      | none => low
      | some entry =>
        if entry.seqNo < seqNo then
          findIndexBetween entries seqNo fuel ((low + high - 1) / 2 + 1) high
        else if entry.seqNo > seqNo then
          findIndexBetween entries seqNo fuel low ((low + high - 1) / 2)
        else (low + high - 1) / 2
    else low

def findIndexBySeqNo (log : ReplicationLog) (seqNo : Nat) : Nat :=
  findIndexBetween log.entries seqNo log.entries.length log.headIndex log.entries.length

/-- The loop of `evictOldEntries`, for at most as many turns as there are entries. -/
def evictWhileOver (log : ReplicationLog) : Nat → ReplicationLog
  | 0 => log
  | turns + 1 =>
    match log.entries[log.headIndex]? with
    | none => log
    | some oldest =>
      if log.totalSizeBytes > log.retentionBytes then
        evictWhileOver { log with totalSizeBytes := log.totalSizeBytes - entrySize oldest
                                  headIndex := log.headIndex + 1 } turns
      else log

def evictOldEntries (log : ReplicationLog) : ReplicationLog :=
  let evicted := log.evictWhileOver log.liveCount
  if evicted.headIndex ≥ 256 ∨ evicted.headIndex > evicted.liveCount then evicted.compact
  else evicted

def assertEntryFitsRetention (log : ReplicationLog) (indexName documentId : String)
    (document : Option Bytes) : Except ReplicationError Unit :=
  if estimateEntrySize indexName documentId document > log.retentionBytes then
    .error ⟨.replicationLogFull,
      "Replication log entry of " ++ toString (estimateEntrySize indexName documentId document)
        ++ " bytes exceeds the log retention limit of " ++ toString log.retentionBytes
        ++ " bytes and cannot be buffered"⟩
  else .ok ()

def storeEntry (log : ReplicationLog) (entry : ReplicationLogEntry) : ReplicationLog :=
  let pushed := { log with entries := log.entries ++ [entry] }
  let ended :=
    if entry.seqNo ≥ log.localLogEnd then
      { pushed with localLogEnd := entry.seqNo, localLogEndPrimaryTerm := entry.primaryTerm }
    else pushed
  evictOldEntries { ended with totalSizeBytes := log.totalSizeBytes + entrySize entry }

def readEntry (log : ReplicationLog) (seqNo : Nat) : Option ReplicationLogEntry :=
  if log.liveCount = 0 then none
  else
    match log.entries[log.findIndexBySeqNo seqNo]? with
    | none => none
    | some entry => if entry.seqNo = seqNo then some entry else none

def verifyEntryChecksum (codec : EntryCodec) (entry : ReplicationLogEntry) : Bool :=
  computeEntryChecksum codec entry = entry.checksum

/-- The entry `append` builds from a caller's fields. -/
def numberedEntry (codec : EntryCodec) (log : ReplicationLog) (fields : EntryFields) :
    ReplicationLogEntry :=
  let entry : ReplicationLogEntry := ⟨log.nextSeqNo, fields.primaryTerm, fields.operation,
    log.partitionId, fields.indexName, fields.documentId, fields.document, 0⟩
  { entry with checksum := computeEntryChecksum codec entry }

def append (codec : EntryCodec) (log : ReplicationLog) (fields : EntryFields) :
    Except ReplicationError (ReplicationLog × ReplicationLogEntry) := do
  log.assertEntryFitsRetention fields.indexName fields.documentId fields.document
  let entry := numberedEntry codec log fields
  .ok (storeEntry { log with nextSeqNo := log.nextSeqNo + 1 } entry, entry)

def appendCommitted (codec : EntryCodec) (log : ReplicationLog) (entry : ReplicationLogEntry) :
    Except ReplicationError (ReplicationLog × ReplicationLogEntry) :=
  if entry.seqNo > maxSafeInteger ∨ entry.seqNo < 1 then
    .error ⟨.replicationEntryInvalid, "Invalid replication sequence number " ++ toString entry.seqNo⟩
  else if entry.partitionId ≠ log.partitionId then
    .error ⟨.replicationEntryInvalid, "Replication entry partition " ++ toString entry.partitionId
      ++ " does not match log partition " ++ toString log.partitionId⟩
  else
    match log.readEntry entry.seqNo with
    | some existing =>
      if existing.checksum ≠ entry.checksum then
        .error ⟨.replicationEntryInvalid,
          "Conflicting replication entry at sequence number " ++ toString entry.seqNo⟩
      else .ok (log, existing)
    | none =>
      if entry.seqNo ≠ log.nextSeqNo then
        .error ⟨.replicationEntryInvalid, "Out-of-order replication entry " ++ toString entry.seqNo
          ++ "; expected " ++ toString log.nextSeqNo⟩
      else if ¬ verifyEntryChecksum codec entry then
        .error ⟨.replicationEntryCorrupt,
          "Invalid checksum for replication entry " ++ toString entry.seqNo⟩
      else do
        log.assertEntryFitsRetention entry.indexName entry.documentId entry.document
        .ok (storeEntry { log with nextSeqNo := entry.seqNo + 1 } entry, entry)

def getEntriesFrom (log : ReplicationLog) (fromSeqNo : Nat) : List ReplicationLogEntry :=
  if log.liveCount = 0 then []
  else log.entries.drop (log.findIndexBySeqNo fromSeqNo)

def getEntry (log : ReplicationLog) (seqNo : Nat) : Option ReplicationLogEntry := log.readEntry seqNo

def oldestSeqNo (log : ReplicationLog) : Option Nat :=
  if log.liveCount = 0 then none else log.entries[log.headIndex]?.map ReplicationLogEntry.seqNo

def entryCount (log : ReplicationLog) : Nat := log.liveCount

def termAt (log : ReplicationLog) (seqNo : Nat) : Option Nat :=
  match log.readEntry seqNo with
  | some entry => some entry.primaryTerm
  | none =>
    if seqNo = log.localLogEnd then some log.localLogEndPrimaryTerm
    else
      let nothingAfterTheSeedIsGone := log.liveCount = 0 ∨
        log.entries[log.headIndex]?.map ReplicationLogEntry.seqNo = some (log.seedSeqNo + 1)
      if seqNo = log.seedSeqNo ∧ nothingAfterTheSeedIsGone then some log.seedPrimaryTerm else none

def advanceCommitPoint (log : ReplicationLog) (seqNo : Nat) : ReplicationLog :=
  let bounded := min seqNo log.localLogEnd
  if bounded > log.commitPoint then { log with commitPoint := bounded } else log

def clear (log : ReplicationLog) : ReplicationLog :=
  { log with
    entries := []
    headIndex := 0
    totalSizeBytes := 0
    localLogEnd := log.nextSeqNo - 1
    commitPoint := log.nextSeqNo - 1
    seedSeqNo := log.nextSeqNo - 1
    seedPrimaryTerm := log.localLogEndPrimaryTerm }

end ReplicationLog

inductive SyncTier where
  | incremental
  | snapshot
  deriving DecidableEq, Repr

def decideSyncTier (log : ReplicationLog) (replicaLastSeqNo replicaLastPrimaryTerm : Nat) : SyncTier :=
  if replicaLastSeqNo = 0 then
    if log.localLogEnd = 0 ∨ log.oldestSeqNo = some 1 then .incremental else .snapshot
  else if log.termAt replicaLastSeqNo = some replicaLastPrimaryTerm then .incremental
  else .snapshot

end Narsil.Replication
