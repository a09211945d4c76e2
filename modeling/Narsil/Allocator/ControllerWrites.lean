import Narsil.Allocator.LeadershipSafety

/-!
# The writers of the allocation table

Besides the allocator, the controller rewrites one assignment when a primary
reports a replica out of sync or caught up, when a node reports its bootstrap
finished, and when a last holder of an unassigned partition answers. Each of
them reads the table and computes the one it asks the coordinator to store.
-/
namespace Narsil.Allocator

def belongsToAnotherIndex (table : AllocationTable) (indexUuid : Option String) : Bool :=
  match table.indexUuid, indexUuid with
  | some own, some current => own ≠ current
  | _, _ => false

def stampedWith (table : AllocationTable) (indexUuid : Option String) : AllocationTable :=
  match indexUuid with
  | none => table
  | some uuid => { table with indexUuid := some uuid }

/-- `indexUuid` is the identity in the index metadata, absent without metadata. -/
def rewriteForCurrentIndex (indexUuid : Option String) (table : AllocationTable) :
    Option AllocationTable :=
  if belongsToAnotherIndex table indexUuid then none else some (stampedWith table indexUuid)

/-- The assignment a message names; an id below zero names none. -/
def assignmentOf (table : AllocationTable) (partitionId : Int) : Option PartitionAssignment :=
  if partitionId < 0 then none else Assoc.lookup table.assignments partitionId.toNat

/-- The table with one assignment replaced, as the writers put it. -/
def withAssignment (indexUuid : Option String) (table : AllocationTable) (partitionId : Int)
    (assignment : PartitionAssignment) : Option AllocationTable :=
  rewriteForCurrentIndex indexUuid { table with
    version := table.version + 1
    assignments := Assoc.set table.assignments partitionId.toNat assignment }

inductive AssignmentDecision
  | refuse
  | accept
  | write (assignment : PartitionAssignment)

structure InsyncRemovePayload where
  partitionId : Int
  replicaNodeId : NodeId
  primaryTerm : Int

structure InsyncAddPayload extends InsyncRemovePayload where
  appliedSeqNo : Nat
  commitPoint : Nat

def updateInsyncSet (indexUuid : Option String) (table : AllocationTable)
    (partitionId primaryTerm : Int) (decide : PartitionAssignment → AssignmentDecision) :
    Option AllocationTable :=
  match assignmentOf table partitionId with
  | none => none
  | some assignment =>
    if primaryTerm ≠ assignment.primaryTerm then none
    else
      match decide assignment with
      | .refuse => none
      | .accept => none
      | .write updated => withAssignment indexUuid table partitionId updated

def decideInsyncRemoval (payload : InsyncRemovePayload) (assignment : PartitionAssignment) :
    AssignmentDecision :=
  if assignment.state = .unassigned then .refuse
  else if payload.replicaNodeId ∉ assignment.inSyncSet then .accept
  else .write { assignment with
    inSyncSet := assignment.inSyncSet.filter fun nodeId => nodeId ≠ payload.replicaNodeId }

def handleInsyncRemoval (indexUuid : Option String) (table : AllocationTable)
    (payload : InsyncRemovePayload) : Option AllocationTable :=
  updateInsyncSet indexUuid table payload.partitionId payload.primaryTerm
    (decideInsyncRemoval payload)

def decideInsyncAdmission (payload : InsyncAddPayload) (assignment : PartitionAssignment) :
    AssignmentDecision :=
  if assignment.state ≠ .active then .refuse
  else if payload.replicaNodeId ∉ assignment.replicas then .refuse
  else if payload.appliedSeqNo < assignment.commitPoint
      ∨ payload.appliedSeqNo < payload.commitPoint then .refuse
  else
    let alreadyInSync := payload.replicaNodeId ∈ assignment.inSyncSet
    let commitPoint := max assignment.commitPoint payload.commitPoint
    if alreadyInSync ∧ commitPoint = assignment.commitPoint then .accept
    else .write { assignment with
      inSyncSet := if alreadyInSync then assignment.inSyncSet
        else assignment.inSyncSet ++ [payload.replicaNodeId]
      commitPoint := commitPoint }

def handleInsyncAdmission (indexUuid : Option String) (registered : List NodeId)
    (table : AllocationTable) (payload : InsyncAddPayload) : Option AllocationTable :=
  if payload.replicaNodeId ∉ registered then none
  else
    updateInsyncSet indexUuid table payload.partitionId payload.primaryTerm
      (decideInsyncAdmission payload)

structure BootstrapCompletePayload where
  partitionId : Int
  nodeId : NodeId
  primaryTerm : Int

def served (assignment : PartitionAssignment) : PartitionAssignment :=
  { assignment with state := .active, lastHolders := none }

def processBootstrapComplete (indexUuid : Option String) (table : AllocationTable)
    (payload : BootstrapCompletePayload) : Option AllocationTable :=
  match assignmentOf table payload.partitionId with
  | none => none
  | some assignment =>
    if payload.primaryTerm ≠ assignment.primaryTerm then none
    else if assignment.primary ≠ some payload.nodeId then none
    else if assignment.state ≠ .initialising then none
    else withAssignment indexUuid table payload.partitionId (served assignment)

/-- A report counts only from the node it names. -/
def handleBootstrapCompleteMessage (indexUuid : Option String) (sourceId : NodeId)
    (table : AllocationTable) (payload : BootstrapCompletePayload) : Option AllocationTable :=
  if sourceId ≠ payload.nodeId then none else processBootstrapComplete indexUuid table payload

inductive StoresAnswer
  | held (partitionIds : List Nat)
  | unreachable
  | identityMismatch
  deriving DecidableEq

def reasonFor (assignment : PartitionAssignment) (liveNodeIds : List NodeId)
    (answers : List (NodeId × StoresAnswer)) : Option UnassignedReason :=
  let holders := lastHoldersOf assignment
  if holders.length = 0 then none
  else if holders.any fun nodeId => nodeId ∉ liveNodeIds then some .holderOffline
  else
    let given := holders.map (Assoc.lookup answers)
    if given.any fun answer => answer = none ∨ answer = some .unreachable then
      some .holderUnreachable
    else if given.any fun answer => answer = some .identityMismatch then
      some .holderIdentityMismatch
    else some .holderWithoutData

def promoteAssignment (assignment : PartitionAssignment) (nodeId : NodeId) : PartitionAssignment :=
  { assignment with
    primary := some nodeId
    replicas := []
    inSyncSet := []
    primaryTerm := assignment.primaryTerm + 1
    state := .initialising
    unassignedReason := none }

def holderThatAnswered (assignment : PartitionAssignment) (partitionId : Nat)
    (answers : List (NodeId × StoresAnswer)) : Option NodeId :=
  (sortCodePoints (lastHoldersOf assignment)).find? fun nodeId =>
    match Assoc.lookup answers nodeId with
    | some (.held partitionIds) => partitionId ∈ partitionIds
    | _ => false

def rewriteAssignment (assignment : PartitionAssignment) (partitionId : Nat)
    (liveNodeIds : List NodeId) (answers : List (NodeId × StoresAnswer)) :
    Option PartitionAssignment :=
  match holderThatAnswered assignment partitionId answers with
  | some holder => some (promoteAssignment assignment holder)
  | none =>
    let reason := reasonFor assignment liveNodeIds answers
    if reason = assignment.unassignedReason then none
    else some { assignment with unassignedReason := reason }

/-- The outcome for one partition; `none` leaves it as it is. -/
def recoveryOutcome (liveNodeIds : List NodeId) (answers : List (NodeId × StoresAnswer))
    (entry : Nat × PartitionAssignment) : Option PartitionAssignment :=
  if entry.2.state ≠ .unassigned then none
  else rewriteAssignment entry.2 entry.1 liveNodeIds answers

def writeRecoveryOutcome (indexUuid : Option String) (table : AllocationTable)
    (liveNodeIds : List NodeId) (answers : List (NodeId × StoresAnswer)) :
    Option AllocationTable :=
  if table.assignments.all fun entry => recoveryOutcome liveNodeIds answers entry = none then none
  else
    rewriteForCurrentIndex indexUuid { table with
      version := table.version + 1
      assignments := table.assignments.map fun entry =>
        (entry.1, (recoveryOutcome liveNodeIds answers entry).getD entry.2) }

variable {ν : Type} [Number ν]

/-- What one run of the allocator reads besides the table. -/
structure AllocatorInput (ν : Type) where
  nodes : List (NodeRegistration ν)
  partitionCount : Int
  replicationFactor : Int
  constraints : AllocationConstraints
  retainedNodeIds : List NodeId

/-- `runAllocatorForIndex` on the table it read. -/
def runAllocatorForIndex (indexName indexUuid : String) (input : AllocatorInput ν)
    (storedTable : Option AllocationTable) : Option AllocationTable :=
  let currentTable := storedTable.filter fun table => !belongsToAnotherIndex table (some indexUuid)
  match allocate input.nodes currentTable indexName input.partitionCount input.replicationFactor
      input.constraints (if currentTable = none then [] else input.retainedNodeIds) with
  | .ok result => some (stampedWith result.table (some indexUuid))
  | .error _ => none

/-- `handleSchemaCreated`, which starts afresh from a table without assignments. -/
def handleSchemaCreated (indexName indexUuid : String) (input : AllocatorInput ν)
    (storedTable : Option AllocationTable) : Option AllocationTable :=
  let currentTable := storedTable.filter fun table =>
    !belongsToAnotherIndex table (some indexUuid) && table.assignments.length ≠ 0
  match allocate input.nodes currentTable indexName input.partitionCount input.replicationFactor
      input.constraints [] with
  | .ok result => some (stampedWith result.table (some indexUuid))
  | .error _ => none

end Narsil.Allocator
