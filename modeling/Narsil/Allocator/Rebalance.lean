import Narsil.Allocator.Placement

/-!
# The passes of the allocator

Each pass rewrites the assignments in place: failing over partitions whose
primary is lost, settling moves, filling and trimming replica slots, moving
copies and leads. A pass that visits every partition is a visitor here.
-/
namespace Narsil.Allocator

variable {ν : Type} [Number ν]

def markUnassigned (assignment : PartitionAssignment) (lastPrimary : Option NodeId)
    (lastInSyncSet : List NodeId) : PartitionAssignment :=
  { assignment with
    primary := none
    replicas := []
    inSyncSet := []
    lastHolders := some (sortCodePoints
      (lastHoldersOf assignment ++ lastInSyncSet ++ lastPrimary.toList).dedup)
    state := .unassigned
    removingReplicas := none }

def leastLoadedCandidate (candidates : List NodeId) (primaryCounts : List (NodeId × Nat))
    (shares : List (NodeId × ν)) : Option NodeId :=
  candidates.foldl (fun best candidate =>
    match best with
    | none => some candidate
    | some held =>
      let bestLoad := loadOf held primaryCounts shares
      let candidateLoad := loadOf candidate primaryCounts shares
      if Number.less candidateLoad bestLoad
          || (Number.equal candidateLoad bestLoad && unitsBelow candidate held)
      then some candidate else some held) none

def promotionCandidate (assignment : PartitionAssignment) (drainingNodeIds : List NodeId)
    (primaryCounts : List (NodeId × Nat)) (shares : List (NodeId × ν)) : Option NodeId :=
  let inSyncCandidates := assignment.replicas.filter fun id => id ∈ assignment.inSyncSet
  let staying := inSyncCandidates.filter fun id =>
    id ∉ drainingNodeIds ∧ id ∉ assignment.removingReplicas.getD []
  (leastLoadedCandidate staying primaryCounts shares).or
    (leastLoadedCandidate inSyncCandidates primaryCounts shares)

def neverReachedActive (assignment : PartitionAssignment) : Bool :=
  assignment.state = .initialising && (lastHoldersOf assignment).length = 0

def restartAsEmptyCopy (assignment : PartitionAssignment) (activeNodeIds drainingNodeIds : List NodeId)
    (primaryCounts : List (NodeId × Nat)) (shares : List (NodeId × ν)) :
    PartitionAssignment × List (NodeId × Nat) :=
  let placeable := fun id => decide (id ∈ activeNodeIds ∧ id ∉ drainingNodeIds)
  let others := sortCodePoints
    (activeNodeIds.filter fun id => placeable id && decide (id ∉ assignment.replicas))
  match (leastLoadedCandidate (assignment.replicas.filter placeable) primaryCounts shares).or
      (leastLoadedCandidate others primaryCounts shares) with
  | none => (assignment, primaryCounts)
  | some chosen =>
    ({ assignment with
        primary := some chosen
        replicas := assignment.replicas.filter fun id => id ≠ chosen ∧ id ∈ activeNodeIds
        inSyncSet := []
        primaryTerm := assignment.primaryTerm + 1
        lastHolders := none
        removingReplicas := none }, bump primaryCounts chosen)

def keepRemovingReplicasHeld (assignment : PartitionAssignment) : PartitionAssignment :=
  let removing := (assignment.removingReplicas.getD []).filter fun id => id ∈ assignment.replicas
  { assignment with removingReplicas := if removing.length > 0 then some removing else none }

/-- `handleLostNodes` on one partition, with the primary counts so far. -/
def handleLostNode (activeNodeIds retainedNodeIds : List NodeId) (shares : List (NodeId × ν))
    (drainingNodeIds : List NodeId) (primaryCounts : List (NodeId × Nat))
    (assignment : PartitionAssignment) : PartitionAssignment × List (NodeId × Nat) :=
  if assignment.state = .unassigned then (assignment, primaryCounts)
  else
    let lastPrimary := assignment.primary
    let lastInSyncSet := assignment.inSyncSet
    let primaryWasLost := match lastPrimary with
      | some primary => decide (primary ∉ activeNodeIds)
      | none => false
    if primaryWasLost && neverReachedActive assignment then
      restartAsEmptyCopy assignment activeNodeIds drainingNodeIds primaryCounts shares
    else
      let held := keepRemovingReplicasHeld { assignment with
        primary := if primaryWasLost then none else assignment.primary
        replicas := assignment.replicas.filter fun id => id ∈ activeNodeIds ∨ id ∈ retainedNodeIds
        inSyncSet := assignment.inSyncSet.filter fun id => id ∈ activeNodeIds }
      if !primaryWasLost then
        if held.primary = none then (markUnassigned held lastPrimary lastInSyncSet, primaryCounts)
        else (held, primaryCounts)
      else
        match promotionCandidate held drainingNodeIds primaryCounts shares with
        | none => (markUnassigned held lastPrimary lastInSyncSet, primaryCounts)
        | some promoted =>
          let others := held.replicas.filter fun id => id ≠ promoted
          (keepRemovingReplicasHeld { held with
              primary := some promoted
              replicas := others ++ lastPrimary.toList.filter fun id => id ∈ retainedNodeIds
              inSyncSet := held.inSyncSet.filter fun id => id ≠ promoted
              primaryTerm := held.primaryTerm + 1 }, bump primaryCounts promoted)

def handleLostNodes (assignments : Assignments) (activeNodeIds retainedNodeIds : List NodeId)
    (shares : List (NodeId × ν)) (drainingNodeIds : List NodeId) : Assignments :=
  Assoc.visitAll (fun _ primaryCounts _ assignment =>
    handleLostNode activeNodeIds retainedNodeIds shares drainingNodeIds primaryCounts assignment)
    assignments (countPrimaryAssignments assignments)

def settleMove (replicationFactor : Nat) (assignment : PartitionAssignment) :
    PartitionAssignment :=
  match assignment.removingReplicas with
  | none => assignment
  | some listed =>
    let removing := listed.filter fun id => id ∈ assignment.replicas
    let cancelled := { assignment with removingReplicas := none }
    if removing.length = 0 then cancelled
    else
      let outside := assignment.replicas.filter fun id => id ∉ removing
      let inSyncOutside := outside.filter fun id => id ∈ assignment.inSyncSet
      if replicationFactor ≤ inSyncOutside.length then
        { cancelled with
          replicas := outside
          inSyncSet := assignment.inSyncSet.filter fun id => id ∉ removing }
      else if replicationFactor ≤ outside.length then
        { assignment with removingReplicas := some removing }
      else cancelled

def settleMoves (assignments : Assignments) (replicationFactor : Nat) : Assignments :=
  Assoc.visitAll (fun _ (_ : Unit) _ assignment => (settleMove replicationFactor assignment, ()))
    assignments ()

def seedSuccessor (whole : PartitionAssignment → Assignments) (partitionId : Nat)
    (assignment : PartitionAssignment) (context : PlacementContext ν) : PartitionAssignment :=
  if assignment.removingReplicas ≠ none then assignment
  else if assignment.replicas.any fun id => id ∉ context.drainingNodeIds then assignment
  else
    match placeReplica (whole assignment) partitionId assignment context with
    | none => assignment
    | some target => { assignment with replicas := assignment.replicas ++ [target] }

/-- Hand the lead of a partition to an in-sync replica; the old primary stays,
in sync. -/
def handOverTo (assignment : PartitionAssignment) (successor leader : NodeId) :
    PartitionAssignment :=
  { assignment with
    primary := some successor
    replicas := (assignment.replicas.filter fun id => id ≠ successor) ++ [leader]
    inSyncSet := (assignment.inSyncSet.filter fun id => id ≠ successor ∧ id ≠ leader) ++ [leader]
    primaryTerm := assignment.primaryTerm + 1 }

def handOverDrainingLead (context : PlacementContext ν) (shares : List (NodeId × ν))
    (whole : PartitionAssignment → Assignments) (primaryCounts : List (NodeId × Nat))
    (partitionId : Nat) (assignment : PartitionAssignment) :
    PartitionAssignment × List (NodeId × Nat) :=
  match assignment.primary with
  | none => (assignment, primaryCounts)
  | some leader =>
    if assignment.state ≠ .active ∨ leader ∉ context.drainingNodeIds then
      (assignment, primaryCounts)
    else
      let staying := (replicasOutsideMove assignment).filter fun id =>
        id ∈ assignment.inSyncSet ∧ id ∉ context.drainingNodeIds
      match leastLoadedCandidate staying primaryCounts shares with
      | none => (seedSuccessor whole partitionId assignment context, primaryCounts)
      | some successor =>
        let raised := bump primaryCounts successor
        (handOverTo assignment successor leader,
          Assoc.set raised leader ((Assoc.lookup raised leader).getD 1 - 1))

def handOverDrainingLeads (assignments : Assignments) (context : PlacementContext ν)
    (shares : List (NodeId × ν)) : Assignments :=
  Assoc.visitAll (handOverDrainingLead context shares) assignments
    (countPrimaryAssignments assignments)

def moveDrainingReplica (context : PlacementContext ν) (replicationFactor : Nat)
    (whole : PartitionAssignment → Assignments) (partitionId : Nat)
    (assignment : PartitionAssignment) : PartitionAssignment :=
  if assignment.state ≠ .active ∨ assignment.removingReplicas ≠ none then assignment
  else
    match assignment.primary with
    | none => assignment
    | some primary =>
      if primary ∈ context.drainingNodeIds then assignment
      else
        match assignment.replicas.find? fun id => id ∈ context.drainingNodeIds with
        | none => assignment
        | some source =>
          let staying := assignment.replicas.filter fun id =>
            id ≠ source ∧ id ∈ assignment.inSyncSet ∧ id ∉ context.drainingNodeIds
          if staying.length < replicationFactor then
            match placeReplica (whole assignment) partitionId assignment context with
            | none => assignment
            | some target =>
              { assignment with
                replicas := assignment.replicas ++ [target]
                removingReplicas := some [source] }
          else { assignment with removingReplicas := some [source] }

def moveDrainingReplicas (assignments : Assignments) (context : PlacementContext ν)
    (replicationFactor : Nat) : Assignments :=
  Assoc.visitAll (fun whole (_ : Unit) partitionId assignment =>
    (moveDrainingReplica context replicationFactor whole partitionId assignment, ()))
    assignments ()

def weightOf (weights : List (NodeWeight ν)) (nodeId : NodeId) : ν :=
  match Assoc.lookup (weights.foldl (fun byId w => Assoc.set byId w.nodeId w.weight) []) nodeId with
  | some weight => weight
  | none => Number.infinity

/-- Whether the copy at `candidate` goes before the one at `current`. -/
def goesBefore (assignment : PartitionAssignment) (weights : List (NodeWeight ν))
    (drainingNodeIds : List NodeId) (candidate current : NodeId) : Bool :=
  let candidateDrains := decide (candidate ∈ drainingNodeIds)
  let currentDrains := decide (current ∈ drainingNodeIds)
  let candidateLags := decide (candidate ∉ assignment.inSyncSet)
  let currentLags := decide (current ∉ assignment.inSyncSet)
  let candidateWeight := weightOf weights candidate
  let currentWeight := weightOf weights current
  if candidateDrains ≠ currentDrains then candidateDrains
  else if candidateLags ≠ currentLags then candidateLags
  else Number.less currentWeight candidateWeight
    || (Number.equal candidateWeight currentWeight && unitsBelow current candidate)

/-- The replica to drop so far, with its index, once one more is compared. -/
def furtherSurplus (assignment : PartitionAssignment) (weights : List (NodeWeight ν))
    (drainingNodeIds : List NodeId) (chosen : Option (NodeId × Nat)) (entry : NodeId × Nat) :
    Option (NodeId × Nat) :=
  match chosen with
  | none => some entry
  | some current =>
    if goesBefore assignment weights drainingNodeIds entry.1 current.1 then some entry
    else some current

/-- The index of the surplus replica to drop; `none` where there is no replica. -/
def surplusCandidate (assignment : PartitionAssignment) (weights : List (NodeWeight ν))
    (drainingNodeIds : List NodeId) : Option Nat :=
  (assignment.replicas.zipIdx.foldl (furtherSurplus assignment weights drainingNodeIds)
    none).map Prod.snd

def dropReplica (assignment : PartitionAssignment) (index : Nat) : PartitionAssignment :=
  { assignment with
    replicas := assignment.replicas.eraseIdx index
    inSyncSet := assignment.inSyncSet.filter fun id => some id ≠ assignment.replicas[index]? }

/-- The loop of `trimSurplusReplicas`; every round drops one replica, so as many
rounds as there are replicas are enough. -/
def trimSurplus (sortedNodes : List (NodeRegistration ν)) (replicationFactor : Nat)
    (drainingNodeIds : List NodeId) (whole : PartitionAssignment → Assignments) :
    Nat → PartitionAssignment → PartitionAssignment
  | 0, assignment => assignment
  | rounds + 1, assignment =>
    if replicationFactor < assignment.replicas.length then
      let weights := computeNodeWeights sortedNodes (whole assignment)
      match surplusCandidate assignment weights drainingNodeIds with
      | none => assignment
      | some index =>
        trimSurplus sortedNodes replicationFactor drainingNodeIds whole rounds
          (dropReplica assignment index)
    else assignment

def ledByDraining (drainingNodeIds : List NodeId) (assignment : PartitionAssignment) : Prop :=
  ∃ primary, assignment.primary = some primary ∧ primary ∈ drainingNodeIds

instance (drainingNodeIds : List NodeId) (assignment : PartitionAssignment) :
    Decidable (ledByDraining drainingNodeIds assignment) :=
  match h : assignment.primary with
  | none => isFalse fun led => by simp [ledByDraining, h] at led
  | some primary =>
    decidable_of_iff (primary ∈ drainingNodeIds) (by simp [ledByDraining, h])

def trimSurplusReplicas (assignments : Assignments) (sortedNodes : List (NodeRegistration ν))
    (replicationFactor : Nat) (drainingNodeIds : List NodeId) : Assignments :=
  Assoc.visitAll (fun whole (_ : Unit) _ assignment =>
    if assignment.removingReplicas ≠ none ∨ ledByDraining drainingNodeIds assignment then
      (assignment, ())
    else (trimSurplus sortedNodes replicationFactor drainingNodeIds whole
      assignment.replicas.length assignment, ())) assignments ()

/-- The loop of `fillReplicaSlots`; every round places a copy on one more node,
so one round more than there are nodes is enough. -/
def fillSlots (placement : PlacementContext ν) (replicationFactor partitionId : Nat)
    (whole : PartitionAssignment → Assignments) : Nat → PartitionAssignment → PartitionAssignment
  | 0, assignment => assignment
  | rounds + 1, assignment =>
    if (replicasOutsideMove assignment).length < replicationFactor then
      match placeReplica (whole assignment) partitionId assignment placement with
      | none => assignment
      | some replicaNodeId =>
        fillSlots placement replicationFactor partitionId whole rounds
          { assignment with replicas := assignment.replicas ++ [replicaNodeId] }
    else assignment

def fillReplicaSlots (assignments : Assignments) (placement : PlacementContext ν)
    (replicationFactor : Nat) : Assignments :=
  Assoc.visitAll (fun whole (_ : Unit) partitionId assignment =>
    if assignment.primary = none then (assignment, ())
    else (fillSlots placement replicationFactor partitionId whole
      (placement.placementNodes.length + 1) assignment, ())) assignments ()

def REBALANCE_THRESHOLD : ν := Number.div (Number.ofNat 1) (Number.ofNat 10)

def slotWeightOf (nodeId : NodeId) (shares : List (NodeId × ν)) : ν :=
  Number.div (Number.ofNat 1) (shareOf nodeId shares)

def moveNarrowsGap (mostLoaded leastLoaded : NodeWeight ν) (shares : List (NodeId × ν)) : Bool :=
  let gap := Number.sub mostLoaded.weight leastLoaded.weight
  let afterMove := Number.abs (Number.sub
    (Number.sub gap (slotWeightOf mostLoaded.nodeId shares))
    (slotWeightOf leastLoaded.nodeId shares))
  Number.less afterMove gap

structure ReplicaMove (ν : Type) where
  fromNodeId : NodeId
  toNodeId : NodeId
  weights : List (NodeWeight ν)
  nodeMap : List (NodeId × NodeRegistration ν)
  deciders : List (Decider ν)

/-- The node a partition's copy may move to, where the partition can give one up. -/
def moveTarget (assignments : Assignments) (move : ReplicaMove ν) (laggingOnly : Bool)
    (partitionId : Nat) (assignment : PartitionAssignment) : Option NodeId :=
  if assignment.removingReplicas ≠ none ∨ move.fromNodeId ∉ assignment.replicas then none
  else if laggingOnly = true ∧ move.fromNodeId ∈ assignment.inSyncSet then none
  else findBestNode [move.toNodeId] move.weights move.deciders
    (replicaContext assignments partitionId assignment move.nodeMap)

/-- Start one move; `none` where no partition can give a copy up. -/
def moveOneReplica (assignments : Assignments) (move : ReplicaMove ν) (laggingOnly : Bool) :
    Option Assignments :=
  (assignments.zipIdx.findSome? fun entry =>
    (moveTarget assignments move laggingOnly entry.1.1 entry.1.2).map fun target =>
      (entry.2, target)).map fun found =>
    assignments.modify found.1 fun entry => (entry.1,
      { entry.2 with
        replicas := entry.2.replicas ++ [found.2]
        removingReplicas := some [move.fromNodeId] })

structure BalanceContext (ν : Type) where
  sortedNodes : List (NodeRegistration ν)
  nodeMap : List (NodeId × NodeRegistration ν)
  deciders : List (Decider ν)
  shares : List (NodeId × ν)

/-- One round of `rebalanceForBalance`; `none` where the loop breaks. -/
def balanceOnce (context : BalanceContext ν) (assignments : Assignments) : Option Assignments :=
  let weights := computeNodeWeights context.sortedNodes assignments
  let sorted := weights.insertionSort fun a b => ¬ Number.less b.weight a.weight = true
  match sorted.head?, sorted.getLast? with
  | some leastLoaded, some mostLoaded =>
    if weights.length < 2 then none
    else if Number.less (Number.sub mostLoaded.weight leastLoaded.weight) REBALANCE_THRESHOLD then
      none
    else if !moveNarrowsGap mostLoaded leastLoaded context.shares then none
    else
      let move : ReplicaMove ν :=
        { fromNodeId := mostLoaded.nodeId
          toNodeId := leastLoaded.nodeId
          weights := weights
          nodeMap := context.nodeMap
          deciders := context.deciders }
      (moveOneReplica assignments move true).or (moveOneReplica assignments move false)
  | _, _ => none

def balanceRounds (context : BalanceContext ν) : Nat → Assignments → Assignments
  | 0, assignments => assignments
  | rounds + 1, assignments =>
    match balanceOnce context assignments with
    | none => assignments
    | some moved => balanceRounds context rounds moved

def rebalanceForBalance (assignments : Assignments) (context : BalanceContext ν) : Assignments :=
  let totalSlots := (assignments.map fun entry =>
    entry.2.primary.toList.length + entry.2.replicas.length).sum
  balanceRounds context (totalSlots * 2) assignments

def LEADERSHIP_IMBALANCE_THRESHOLD : ν := Number.ofNat 2

structure LeadershipSwap (ν : Type) where
  /-- Where the assignment stands in the map. -/
  position : Nat
  partitionId : Nat
  candidateNodeId : NodeId
  candidateLoad : ν

def heaviestLeader (shares : List (NodeId × ν)) (counts : List (NodeId × Nat))
    (withoutHandover : List NodeId) : Option NodeId :=
  (shares.map Prod.fst).foldl (fun heaviest nodeId =>
    if nodeId ∈ withoutHandover then heaviest
    else
      match heaviest with
      | none => some nodeId
      | some held =>
        if Number.less (loadOf held counts shares) (loadOf nodeId counts shares) then some nodeId
        else some held) none

/-- One candidate for the lead of a partition, against the best swap so far. -/
def betterCandidate (heaviest : NodeId) (counts : List (NodeId × Nat)) (shares : List (NodeId × ν))
    (excludedNodeIds : List NodeId) (partitionId position : Nat)
    (best : Option (LeadershipSwap ν)) (candidateNodeId : NodeId) : Option (LeadershipSwap ν) :=
  let candidateLoad := loadOf candidateNodeId counts shares
  let offered := some ⟨position, partitionId, candidateNodeId, candidateLoad⟩
  if candidateNodeId ∈ excludedNodeIds then best
  else if Number.less (Number.sub (loadOf heaviest counts shares) candidateLoad)
      LEADERSHIP_IMBALANCE_THRESHOLD then best
  else
    match best with
    | none => offered
    | some held => if Number.less candidateLoad held.candidateLoad then offered else some held

/-- The candidates of one assignment, against the best swap so far. -/
def betterSwap (heaviest : NodeId) (counts : List (NodeId × Nat)) (shares : List (NodeId × ν))
    (excludedNodeIds : List NodeId) (best : Option (LeadershipSwap ν))
    (entry : (Nat × PartitionAssignment) × Nat) : Option (LeadershipSwap ν) :=
  let assignment := entry.1.2
  if assignment.state ≠ .active ∨ assignment.primary ≠ some heaviest
      ∨ assignment.removingReplicas ≠ none then best
  else
    assignment.inSyncSet.foldl
      (betterCandidate heaviest counts shares excludedNodeIds entry.1.1 entry.2) best

def findSwap (assignments : Assignments) (heaviest : NodeId) (counts : List (NodeId × Nat))
    (shares : List (NodeId × ν)) (excludedNodeIds : List NodeId) : Option (LeadershipSwap ν) :=
  assignments.zipIdx.foldl (betterSwap heaviest counts shares excludedNodeIds) none

def applySwap (assignments : Assignments) (swap : LeadershipSwap ν) (previousPrimary : NodeId) :
    Assignments :=
  assignments.modify swap.position fun entry =>
    (entry.1, handOverTo entry.2 swap.candidateNodeId previousPrimary)

/-- What one round of `rebalanceLeadership` decides on. -/
inductive LeadershipRound (ν : Type)
  | finished
  | withoutHandover (heaviest : NodeId)
  | handover (heaviest : NodeId) (swap : LeadershipSwap ν)

def leadershipRound (shares : List (NodeId × ν)) (excludedNodeIds : List NodeId)
    (assignments : Assignments) (withoutHandover : List NodeId) : LeadershipRound ν :=
  let counts := countPrimaryAssignments assignments
  match heaviestLeader shares counts withoutHandover with
  | none => .finished
  | some heaviest =>
    match findSwap assignments heaviest counts shares excludedNodeIds with
    | none => .withoutHandover heaviest
    | some swap => .handover heaviest swap

def leadershipRounds (shares : List (NodeId × ν)) (excludedNodeIds : List NodeId) :
    Nat → Assignments → List NodeId → Assignments
  | 0, assignments, _ => assignments
  | rounds + 1, assignments, withoutHandover =>
    match leadershipRound shares excludedNodeIds assignments withoutHandover with
    | .finished => assignments
    | .withoutHandover heaviest =>
      leadershipRounds shares excludedNodeIds rounds assignments (heaviest :: withoutHandover)
    | .handover heaviest swap =>
      leadershipRounds shares excludedNodeIds rounds (applySwap assignments swap heaviest)
        withoutHandover

def rebalanceLeadership (assignments : Assignments) (shares : List (NodeId × ν))
    (excludedNodeIds : List NodeId) : Assignments :=
  leadershipRounds shares excludedNodeIds assignments.length assignments []

def pruneInSyncSet (assignment : PartitionAssignment) : PartitionAssignment :=
  let inSync :=
    if assignment.state = .unassigned then assignment.inSyncSet
    else if assignment.inSyncSet.any fun id => id ∉ assignment.replicas then
      assignment.inSyncSet.filter fun id => id ∈ assignment.replicas
    else assignment.inSyncSet
  let removing := match assignment.removingReplicas with
    | none => none
    | some listed =>
      let held := listed.filter fun id => id ∈ assignment.replicas
      if held.length > 0 then some held else none
  { assignment with inSyncSet := inSync, removingReplicas := removing }

def pruneInSyncSets (assignments : Assignments) : Assignments :=
  assignments.map fun entry => (entry.1, pruneInSyncSet entry.2)

def clearRecoveryState (assignment : PartitionAssignment) : PartitionAssignment :=
  { assignment with
    unassignedReason := if assignment.state ≠ .unassigned then none else assignment.unassignedReason
    lastHolders := if assignment.state = .active then none else assignment.lastHolders }

def clearRecoveryStateOnServedPartitions (assignments : Assignments) : Assignments :=
  assignments.map fun entry => (entry.1, clearRecoveryState entry.2)

end Narsil.Allocator

/-!
## Allocating an index

The first allocation of an index, and the rewrite of its table for the nodes
registered today.
-/
namespace Narsil.Allocator

variable {ν : Type} [Number ν]

structure AllocationResult where
  table : AllocationTable
  warnings : List String

inductive AllocationError
  | invalidPartitionCount (partitionCount : Int)
  | invalidReplicationFactor (replicationFactor : Int)
  | noDataNodes (totalNodes : Nat)
  | noPrimary (partitionId : Nat)
  deriving DecidableEq, Repr

def AllocationError.message : AllocationError → String
  | .invalidPartitionCount _ => "partitionCount must be greater than 0"
  | .invalidReplicationFactor _ => "replicationFactor must be 0 or greater"
  | .noDataNodes _ => "No data nodes available for allocation"
  | .noPrimary partitionId => s!"No eligible node for primary of partition {partitionId}"

def nodeMapOf (sortedNodes : List (NodeRegistration ν)) : List (NodeId × NodeRegistration ν) :=
  sortedNodes.foldl (fun map node => Assoc.set map node.nodeId node) []

def replicationWarning (replicationFactor partitionId replicaCount : Nat) : List String :=
  if replicaCount < replicationFactor then
    [s!"Partition {partitionId} has {replicaCount} replica(s) instead of requested {replicationFactor} (insufficient nodes)"]
  else []

def collectReplicationWarnings (assignments : Assignments) (replicationFactor : Nat) :
    List String :=
  assignments.flatMap fun entry =>
    replicationWarning replicationFactor entry.1 (replicasOutsideMove entry.2).length

/-- What every pass of one run reads. -/
def placementContext (sortedNodes : List (NodeRegistration ν)) (deciders : List (Decider ν)) :
    PlacementContext ν :=
  let drainingNodeIds := (sortedNodes.filter (·.draining)).map (·.nodeId)
  { placementNodes := sortedNodes.filter fun node => node.nodeId ∉ drainingNodeIds
    nodeMap := nodeMapOf sortedNodes
    deciders := deciders
    drainingNodeIds := drainingNodeIds }

/-- The passes of `rebalanceAllocate` up to the one that spreads leadership. -/
def placeCopies (sortedNodes : List (NodeRegistration ν)) (current : Assignments)
    (replicationFactor : Nat) (deciders : List (Decider ν)) (retainedNodeIds : List NodeId) :
    Assignments :=
  let activeNodeIds := sortedNodes.map (·.nodeId)
  let placement := placementContext sortedNodes deciders
  let shares := capacityShares sortedNodes
  let failedOver := handleLostNodes current activeNodeIds retainedNodeIds shares
    placement.drainingNodeIds
  let settled := settleMoves failedOver replicationFactor
  let handedOver := handOverDrainingLeads settled placement shares
  let trimmed := trimSurplusReplicas handedOver sortedNodes replicationFactor
    placement.drainingNodeIds
  let filled := fillReplicaSlots trimmed placement replicationFactor
  let drained := moveDrainingReplicas filled placement replicationFactor
  let settledAgain := settleMoves drained replicationFactor
  rebalanceForBalance settledAgain
    { sortedNodes := placement.placementNodes
      nodeMap := placement.nodeMap
      deciders := deciders
      shares := shares }

def rebalanceAllocate (nodes : List (NodeRegistration ν)) (currentTable : AllocationTable)
    (replicationFactor : Nat) (deciders : List (Decider ν)) (retainedNodeIds : List NodeId) :
    AllocationResult :=
  let sortedNodes := sortById nodes
  let placed := placeCopies sortedNodes currentTable.assignments replicationFactor deciders
    retainedNodeIds
  let led := rebalanceLeadership placed (capacityShares sortedNodes)
    (placementContext sortedNodes deciders).drainingNodeIds
  let assignments := clearRecoveryStateOnServedPartitions (pruneInSyncSets led)
  { table :=
      { indexName := currentTable.indexName
        version := currentTable.version + 1
        replicationFactor := replicationFactor
        assignments := assignments
        indexUuid := none }
    warnings := collectReplicationWarnings assignments replicationFactor }

/-- The replica slots of one partition, as far as a node can be found. -/
def initialReplicas (sortedNodes : List (NodeRegistration ν)) (deciders : List (Decider ν))
    (assignments : Assignments) (partitionId : Nat) : Nat → PartitionAssignment → PartitionAssignment
  | 0, partialAssignment => partialAssignment
  | slots + 1, partialAssignment =>
    let whole := assignments ++ [(partitionId, partialAssignment)]
    match findBestNode (sortedNodes.map (·.nodeId)) (computeNodeWeights sortedNodes whole)
        deciders (replicaContext whole partitionId partialAssignment (nodeMapOf sortedNodes)) with
    | none => partialAssignment
    | some replicaNodeId =>
      initialReplicas sortedNodes deciders assignments partitionId slots
        { partialAssignment with replicas := partialAssignment.replicas ++ [replicaNodeId] }

def initialPrimary (sortedNodes : List (NodeRegistration ν)) (deciders : List (Decider ν))
    (assignments : Assignments) (partitionId : Nat) : Option NodeId :=
  findBestNode (sortedNodes.map (·.nodeId)) (computeNodeWeights sortedNodes assignments) deciders
    { partitionId := partitionId
      role := .primary
      currentAssignment := none
      allAssignments := assignments
      nodeAssignmentCounts := countNodeAssignments assignments
      nodes := nodeMapOf sortedNodes }

def initialAssignment (primaryNodeId : NodeId) : PartitionAssignment where
  primary := some primaryNodeId
  replicas := []
  inSyncSet := []
  removingReplicas := none
  lastHolders := none
  state := .initialising
  primaryTerm := 1
  commitPoint := 0
  unassignedReason := none

/-- The partitions still to place, after those placed already. -/
def initialPartitions (sortedNodes : List (NodeRegistration ν)) (deciders : List (Decider ν))
    (replicationFactor : Nat) : Nat → Assignments → Except AllocationError Assignments
  | 0, assignments => .ok assignments
  | remaining + 1, assignments =>
    let partitionId := assignments.length
    match initialPrimary sortedNodes deciders assignments partitionId with
    | none => .error (.noPrimary partitionId)
    | some primaryNodeId =>
      initialPartitions sortedNodes deciders replicationFactor remaining
        (assignments ++ [(partitionId, initialReplicas sortedNodes deciders assignments partitionId
          replicationFactor (initialAssignment primaryNodeId))])

def initialAllocate (nodes : List (NodeRegistration ν)) (indexName : String)
    (partitionCount replicationFactor : Nat) (deciders : List (Decider ν)) :
    Except AllocationError AllocationResult := do
  let assignments ← initialPartitions (sortById nodes) deciders replicationFactor partitionCount []
  return {
    table :=
      { indexName := indexName
        version := 1
        replicationFactor := replicationFactor
        assignments := assignments
        indexUuid := none }
    warnings := assignments.flatMap fun entry =>
      replicationWarning replicationFactor entry.1 entry.2.replicas.length }

def allocate (nodes : List (NodeRegistration ν)) (currentTable : Option AllocationTable)
    (indexName : String) (partitionCount replicationFactor : Int)
    (constraints : AllocationConstraints) (retainedNodeIds : List NodeId) :
    Except AllocationError AllocationResult :=
  if partitionCount ≤ 0 then .error (.invalidPartitionCount partitionCount)
  else if replicationFactor < 0 then .error (.invalidReplicationFactor replicationFactor)
  else
    let dataNodes := nodes.filter fun node => NodeRole.data ∈ node.roles
    if dataNodes.length = 0 then .error (.noDataNodes nodes.length)
    else
      let deciders := createDeciderChain constraints (readPartitionSizes nodes indexName)
      match currentTable with
      | none =>
        initialAllocate dataNodes indexName partitionCount.toNat replicationFactor.toNat deciders
      | some table =>
        .ok (rebalanceAllocate dataNodes table replicationFactor.toNat deciders retainedNodeIds)

end Narsil.Allocator
