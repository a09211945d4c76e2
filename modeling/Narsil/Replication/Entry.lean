import Mathlib.Algebra.GroupWithZero.Nat
import Mathlib.Data.List.Basic

/-!
# Log entries

The record every copy of a partition logs. The MessagePack codec is a package
outside the repository, so it is a parameter here.
-/
namespace Narsil

abbrev Bytes := List UInt8

inductive ReplicationOperation where
  | index
  | delete
  deriving DecidableEq, Repr

structure ReplicationLogEntry where
  seqNo : Nat
  primaryTerm : Nat
  operation : ReplicationOperation
  partitionId : Nat
  indexName : String
  documentId : String
  document : Option Bytes
  checksum : Nat
  deriving DecidableEq, Repr

/-- The MessagePack package as the log uses it. `decode` stands for the package's
decoder followed by the field checks of `validateEntryPayload`; `encodeFields`
encodes the seven-element array the logical checksum covers. -/
structure EntryCodec where
  encode : ReplicationLogEntry → Bytes
  decode : Bytes → Option ReplicationLogEntry
  encodeFields : ReplicationLogEntry → Bytes

/-- Sequence numbers strictly ascend. -/
def Ascending (entries : List ReplicationLogEntry) : Prop :=
  entries.Pairwise fun a b => a.seqNo < b.seqNo

instance (entries : List ReplicationLogEntry) : Decidable (Ascending entries) :=
  inferInstanceAs (Decidable (entries.Pairwise _))

theorem Ascending.append_left {xs ys : List ReplicationLogEntry} (h : Ascending (xs ++ ys)) :
    Ascending xs := (List.pairwise_append.mp h).1

theorem Ascending.append_right {xs ys : List ReplicationLogEntry} (h : Ascending (xs ++ ys)) :
    Ascending ys := (List.pairwise_append.mp h).2.1

theorem Ascending.lt_of_append {xs ys : List ReplicationLogEntry} (h : Ascending (xs ++ ys))
    {a b : ReplicationLogEntry} (ha : a ∈ xs) (hb : b ∈ ys) : a.seqNo < b.seqNo :=
  (List.pairwise_append.mp h).2.2 a ha b hb

/-- The highest sequence number of a list of entries, zero for the empty list. -/
def highestSeqNo (entries : List ReplicationLogEntry) : Nat :=
  entries.foldl (fun high entry => max high entry.seqNo) 0

end Narsil
