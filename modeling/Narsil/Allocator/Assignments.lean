import Mathlib.Algebra.Order.Field.Rat
import Mathlib.Data.List.Sort
import Narsil.Assoc.Related

/-!
# The allocation table

Which nodes hold each partition of an index, as the coordinator stores it, and
what a node publishes about itself. Loads and sizes are numbers of a type `ν`
that offers the operations the allocator uses; no law is asked of them, so that
what is proved holds of rounded arithmetic as well.
-/
namespace Narsil.Allocator

abbrev NodeId := String

def utf16Units (s : String) : List Nat :=
  s.toList.flatMap fun c =>
    if c.toNat < 0x10000 then [c.toNat]
    else [0xD800 + (c.toNat - 0x10000) / 0x400, 0xDC00 + (c.toNat - 0x10000) % 0x400]

/-- `a < b` on strings, which compares UTF-16 units. -/
def unitsBelow (a b : NodeId) : Bool := decide (utf16Units a < utf16Units b)

/-- `values.sort(compareCodePoints)`. -/
def sortCodePoints (values : List NodeId) : List NodeId :=
  values.insertionSort fun a b => ¬ b < a

class Number (ν : Type) where
  ofNat : Nat → ν
  add : ν → ν → ν
  sub : ν → ν → ν
  mul : ν → ν → ν
  div : ν → ν → ν
  abs : ν → ν
  ceil : ν → ν
  infinity : ν
  isFinite : ν → Bool
  less : ν → ν → Bool
  equal : ν → ν → Bool

/-- `a <= b`. -/
def Number.atMost {ν : Type} [Number ν] (a b : ν) : Bool := Number.less a b || Number.equal a b

/-- Exact arithmetic with the infinities and the undefined results of division:
the numbers of an allocation whose loads need no rounding. -/
inductive Exact
  | finite (value : Rat)
  | infinite (positive : Bool)
  | undefined
  deriving DecidableEq, Repr

namespace Exact

def negate : Exact → Exact
  | finite q => finite (-q)
  | infinite positive => infinite (!positive)
  | undefined => undefined

def plus : Exact → Exact → Exact
  | finite p, finite q => finite (p + q)
  | infinite a, infinite b => if a = b then infinite a else undefined
  | infinite a, finite _ => infinite a
  | finite _, infinite b => infinite b
  | _, _ => undefined

def isPositive : Exact → Option Bool
  | finite q => if q = 0 then none else some (0 < q)
  | infinite positive => some positive
  | undefined => none

/-- The infinity a product or a quotient with an unbounded result takes. -/
def unbounded (x y : Exact) : Exact :=
  match x.isPositive, y.isPositive with
  | some a, some b => infinite (a == b)
  | _, _ => undefined

def times : Exact → Exact → Exact
  | finite p, finite q => finite (p * q)
  | x, y => unbounded x y

def quotient : Exact → Exact → Exact
  | finite p, finite q => if q = 0 then unbounded (finite p) (infinite true) else finite (p / q)
  | finite _, infinite _ => finite 0
  | infinite a, finite q => infinite (a == decide (0 ≤ q))
  | _, _ => undefined

def below : Exact → Exact → Bool
  | finite p, finite q => p < q
  | finite _, infinite b => b
  | infinite a, finite _ => !a
  | infinite a, infinite b => !a && b
  | _, _ => false

end Exact

instance : Number Exact where
  ofNat n := .finite n
  add := Exact.plus
  sub x y := x.plus y.negate
  mul := Exact.times
  div := Exact.quotient
  abs
    | .finite q => .finite |q|
    | .infinite _ => .infinite true
    | .undefined => .undefined
  ceil
    | .finite q => .finite q.ceil
    | x => x
  infinity := .infinite true
  isFinite
    | .finite _ => true
    | _ => false
  less := Exact.below
  equal x y := decide (x = y ∧ x ≠ .undefined)

inductive PartitionState
  | unassigned | initialising | active | migrating | decommissioning
  deriving DecidableEq, Repr

inductive UnassignedReason
  | holderOffline | holderUnreachable | holderIdentityMismatch | holderWithoutData
  deriving DecidableEq, Repr

structure PartitionAssignment where
  primary : Option NodeId
  replicas : List NodeId
  inSyncSet : List NodeId
  removingReplicas : Option (List NodeId)
  lastHolders : Option (List NodeId)
  state : PartitionState
  primaryTerm : Nat
  commitPoint : Nat
  unassignedReason : Option UnassignedReason
  deriving DecidableEq, Repr

/-- Partition ids with their assignments, in the order the map iterates. -/
abbrev Assignments := List (Nat × PartitionAssignment)

structure AllocationTable where
  indexName : String
  version : Nat
  replicationFactor : Nat
  assignments : Assignments
  indexUuid : Option String
  deriving DecidableEq, Repr

inductive NodeRole
  | data | coordinator | controller
  deriving DecidableEq, Repr

structure IndexPartitionBytes (ν : Type) where
  indexName : String
  partitions : List (Nat × ν)

structure NodeRegistration (ν : Type) where
  nodeId : NodeId
  roles : List NodeRole
  /-- `capacity.memoryBytes`. -/
  memoryBytes : ν
  /-- `memory?.full === true`. -/
  memoryFull : Bool
  metadata : List (String × String)
  partitionBytes : List (IndexPartitionBytes ν)
  draining : Bool

structure AllocationConstraints where
  zoneAwareness : Bool
  zoneAttribute : String
  maxShardsPerNode : Option Nat

def lastHoldersOf (assignment : PartitionAssignment) : List NodeId :=
  assignment.lastHolders.getD []

/-- The replicas that no move is taking off their node. -/
def replicasOutsideMove (assignment : PartitionAssignment) : List NodeId :=
  match assignment.removingReplicas with
  | none => assignment.replicas
  | some removing => assignment.replicas.filter fun id => id ∉ removing

def bump (counts : List (NodeId × Nat)) (node : NodeId) : List (NodeId × Nat) :=
  Assoc.set counts node ((Assoc.lookup counts node).getD 0 + 1)

def countNodeAssignments (assignments : Assignments) : List (NodeId × Nat) :=
  assignments.foldl (fun counts entry =>
    let led := match entry.2.primary with
      | some primary => bump counts primary
      | none => counts
    (replicasOutsideMove entry.2).foldl bump led) []

def countPrimaryAssignments (assignments : Assignments) : List (NodeId × Nat) :=
  assignments.foldl (fun counts entry =>
    match entry.2.primary with
    | some primary => bump counts primary
    | none => counts) []

def countOf (counts : List (NodeId × Nat)) (node : NodeId) : Nat :=
  (Assoc.lookup counts node).getD 0

variable {ν : Type} [Number ν]

def sortById (nodes : List (NodeRegistration ν)) : List (NodeRegistration ν) :=
  nodes.insertionSort fun a b => ¬ unitsBelow b.nodeId a.nodeId = true

def averageCapacity (nodes : List (NodeRegistration ν)) : ν :=
  let totalCapacity := nodes.foldl (fun total node => Number.add total node.memoryBytes)
    (Number.ofNat 0)
  if nodes.length > 0 then Number.div totalCapacity (Number.ofNat nodes.length)
  else Number.ofNat 0

/-- A node's memory as a multiple of the average. -/
def normalizedCapacity (average : ν) (node : NodeRegistration ν) : ν :=
  if Number.less (Number.ofNat 0) average then Number.div node.memoryBytes average
  else Number.ofNat 1

def capacityShares (nodes : List (NodeRegistration ν)) : List (NodeId × ν) :=
  nodes.foldl (fun shares node =>
    Assoc.set shares node.nodeId (normalizedCapacity (averageCapacity nodes) node)) []

structure NodeWeight (ν : Type) where
  nodeId : NodeId
  weight : ν
  primaryWeight : ν

def computeNodeWeights (nodes : List (NodeRegistration ν)) (assignments : Assignments) :
    List (NodeWeight ν) :=
  let assignmentCounts := countNodeAssignments assignments
  let primaryCounts := countPrimaryAssignments assignments
  let average := averageCapacity nodes
  let weights := nodes.map fun node =>
    { nodeId := node.nodeId
      weight := Number.div (Number.ofNat (countOf assignmentCounts node.nodeId))
        (normalizedCapacity average node)
      primaryWeight := Number.div (Number.ofNat (countOf primaryCounts node.nodeId))
        (normalizedCapacity average node) }
  weights.insertionSort fun a b => ¬ unitsBelow b.nodeId a.nodeId = true

/-- The share a load is divided by: 1 for a node without a positive one. -/
def shareOf (node : NodeId) (shares : List (NodeId × ν)) : ν :=
  match Assoc.lookup shares node with
  | none => Number.ofNat 1
  | some share => if Number.atMost share (Number.ofNat 0) then Number.ofNat 1 else share

def loadOf (node : NodeId) (counts : List (NodeId × Nat)) (shares : List (NodeId × ν)) : ν :=
  Number.div (Number.ofNat (countOf counts node)) (shareOf node shares)

end Narsil.Allocator
