import Narsil.Allocator.Assignments

/-!
# Placing a copy

The deciders that admit, throttle or refuse a node for a copy, and the choice
of the least loaded node they admit.
-/
namespace Narsil.Allocator

variable {ν : Type} [Number ν]

inductive DeciderVerdict
  | yes | no | throttle
  deriving DecidableEq, Repr

inductive CopyRole
  | primary | replica
  deriving DecidableEq, Repr

structure DeciderContext (ν : Type) where
  partitionId : Nat
  role : CopyRole
  currentAssignment : Option PartitionAssignment
  allAssignments : Assignments
  nodeAssignmentCounts : List (NodeId × Nat)
  nodes : List (NodeId × NodeRegistration ν)

/-- `canAllocate` of one decider, for a candidate node. -/
abbrev Decider (ν : Type) := DeciderContext ν → NodeId → DeciderVerdict

structure PartitionSizes (ν : Type) where
  sizeOf : Nat → ν
  reports : NodeId → Nat → Bool
  heldBytesOf : NodeId → Assignments → ν

def ESTIMATED_PARTITION_BYTES : Nat := 50 * 1024 * 1024

def isByteCount (value : ν) : Bool :=
  Number.isFinite value && Number.atMost (Number.ofNat 0) value

/-- The valid entries a node reports: index name, partition id, bytes. -/
def reportedEntriesOf (node : NodeRegistration ν) : List (String × Nat × ν) :=
  node.partitionBytes.flatMap fun index =>
    (index.partitions.filter fun pair => isByteCount pair.2).map fun pair =>
      (index.indexName, pair.1, pair.2)

def largestOf (a b : ν) : ν := if Number.less a b then b else a

/-- A copy of this index a node holds without reporting it. -/
def unreportedCopy (node : NodeId) (reports : NodeId → Nat → Bool)
    (entry : Nat × PartitionAssignment) : Bool :=
  (entry.2.primary = some node || node ∈ entry.2.replicas) && !reports node entry.1

def readPartitionSizes (nodes : List (NodeRegistration ν)) (indexName : String) :
    PartitionSizes ν :=
  let entriesOf := nodes.map fun node => (node.nodeId, reportedEntriesOf node)
  let own := fun entries : List (String × Nat × ν) =>
    (entries.filter fun entry => entry.1 = indexName).map Prod.snd
  let largestByPartition := entriesOf.foldl (fun largest node =>
    (own node.2).foldl (fun largest entry =>
      Assoc.set largest entry.1
        (largestOf ((Assoc.lookup largest entry.1).getD (Number.ofNat 0)) entry.2)) largest)
    ([] : List (Nat × ν))
  let reportedByNode := entriesOf.foldl (fun reported node =>
    Assoc.set reported node.1 ((own node.2).map Prod.fst)) []
  let reportedBytesByNode := entriesOf.foldl (fun reported node =>
    Assoc.set reported node.1
      (node.2.foldl (fun total entry => Number.add total entry.2.2) (Number.ofNat 0)))
    ([] : List (NodeId × ν))
  let sizeOf := fun partitionId =>
    (Assoc.lookup largestByPartition partitionId).getD (Number.ofNat ESTIMATED_PARTITION_BYTES)
  let reports := fun nodeId partitionId =>
    match Assoc.lookup reportedByNode nodeId with
    | none => false
    | some partitions => decide (partitionId ∈ partitions)
  { sizeOf := sizeOf
    reports := reports
    heldBytesOf := fun nodeId assignments =>
      assignments.foldl (fun held entry =>
        if unreportedCopy nodeId reports entry then Number.add held (sizeOf entry.1) else held)
        ((Assoc.lookup reportedBytesByNode nodeId).getD (Number.ofNat 0)) }

def drainingDecider : Decider ν := fun context candidate =>
  match Assoc.lookup context.nodes candidate with
  | some node => if node.draining then .no else .yes
  | none => .yes

def colocationDecider : Decider ν := fun context candidate =>
  match context.currentAssignment with
  | none => .yes
  | some current =>
    match context.role with
    | .primary => if candidate ∈ current.replicas then .no else .yes
    | .replica =>
      if current.primary = some candidate then .no
      else if candidate ∈ current.replicas then .no
      else .yes

def createMaxShardsDecider (maxShardsPerNode : Option Nat) : Decider ν := fun context candidate =>
  match maxShardsPerNode with
  | none => .yes
  | some limit => if limit ≤ countOf context.nodeAssignmentCounts candidate then .no else .yes

def createCapacityDecider (sizes : PartitionSizes ν) : Decider ν := fun context candidate =>
  match Assoc.lookup context.nodes candidate with
  | none => .no
  | some node =>
    if Number.equal node.memoryBytes (Number.ofNat 0) || node.memoryFull then .no
    else
      let addedBytes := if sizes.reports candidate context.partitionId then Number.ofNat 0
        else sizes.sizeOf context.partitionId
      let projectedBytes := Number.add (sizes.heldBytesOf candidate context.allAssignments)
        addedBytes
      if Number.less node.memoryBytes projectedBytes then .no else .yes

def zoneOf (zoneAttribute : String) (nodes : List (NodeId × NodeRegistration ν))
    (nodeId : NodeId) : Option String :=
  (Assoc.lookup nodes nodeId).bind fun node => Assoc.lookup node.metadata zoneAttribute

def createZoneDecider (zoneAttribute : String) : Decider ν := fun context candidate =>
  match Assoc.lookup context.nodes candidate with
  | none => .no
  | some candidateNode =>
    match Assoc.lookup candidateNode.metadata zoneAttribute, context.currentAssignment with
    | none, _ => .yes
    | some _, none => .yes
    | some candidateZone, some current =>
      let assignedZones := (current.primary.toList ++ current.replicas).filterMap
        (zoneOf zoneAttribute context.nodes)
      if candidateZone ∉ assignedZones then .yes
      else
        let allZones := context.nodes.filterMap fun entry =>
          Assoc.lookup entry.2.metadata zoneAttribute
        if allZones.any fun zone => zone ∉ assignedZones then .throttle else .yes

def balanceDecider : Decider ν := fun context candidate =>
  if context.nodes.length = 0 then .yes
  else
    let totalSlots := (context.allAssignments.map fun entry =>
      entry.2.primary.toList.length + entry.2.replicas.length).sum
    let idealPerNode : ν := Number.ceil
      (Number.div (Number.ofNat totalSlots) (Number.ofNat context.nodes.length))
    -- 1.2 is the number nearest to 12 / 10
    let allowed := Number.mul idealPerNode (Number.div (Number.ofNat 12) (Number.ofNat 10))
    if Number.atMost allowed (Number.ofNat (countOf context.nodeAssignmentCounts candidate))
    then .throttle else .yes

def createDeciderChain (constraints : AllocationConstraints) (partitionSizes : PartitionSizes ν) :
    List (Decider ν) :=
  [drainingDecider, colocationDecider, createMaxShardsDecider constraints.maxShardsPerNode,
    createCapacityDecider partitionSizes]
  ++ (if constraints.zoneAwareness then [createZoneDecider constraints.zoneAttribute] else [])
  ++ [balanceDecider]

def runAllDeciders (deciders : List (Decider ν)) (context : DeciderContext ν)
    (candidate : NodeId) : DeciderVerdict :=
  if deciders.any fun decider => decider context candidate = .no then .no
  else if deciders.any fun decider => decider context candidate = .throttle then .throttle
  else .yes

/-- Whether the comparison of two candidates leaves `a` in front of `b`. -/
def candidateOrder (weights : List (NodeWeight ν)) (role : CopyRole) (a b : NodeId) : Bool :=
  let weightByNodeId := weights.foldl (fun byId w => Assoc.set byId w.nodeId w) []
  let read := fun (field : NodeWeight ν → ν) id =>
    match Assoc.lookup weightByNodeId id with
    | some w => field w
    | none => Number.ofNat 0
  let primaryA := read (·.primaryWeight) a
  let primaryB := read (·.primaryWeight) b
  let weightA := read (·.weight) a
  let weightB := read (·.weight) b
  if role = .primary && !Number.equal primaryA primaryB then !Number.less primaryB primaryA
  else if !Number.equal weightA weightB then !Number.less weightB weightA
  else !unitsBelow b a

/-- The first candidate every decider admits, else the first one throttled. -/
def firstAdmitted (verdict : NodeId → DeciderVerdict) (throttled : Option NodeId) :
    List NodeId → Option NodeId
  | [] => throttled
  | candidate :: rest =>
    match verdict candidate with
    | .yes => some candidate
    | .no => firstAdmitted verdict throttled rest
    | .throttle => firstAdmitted verdict (throttled.or (some candidate)) rest

def findBestNode (candidates : List NodeId) (weights : List (NodeWeight ν))
    (deciders : List (Decider ν)) (context : DeciderContext ν) : Option NodeId :=
  firstAdmitted (runAllDeciders deciders context) none
    (candidates.insertionSort fun a b => candidateOrder weights context.role a b = true)

structure PlacementContext (ν : Type) where
  placementNodes : List (NodeRegistration ν)
  nodeMap : List (NodeId × NodeRegistration ν)
  deciders : List (Decider ν)
  drainingNodeIds : List NodeId

/-- The context the deciders judge a replica of one partition in. -/
def replicaContext (assignments : Assignments) (partitionId : Nat)
    (assignment : PartitionAssignment) (nodeMap : List (NodeId × NodeRegistration ν)) :
    DeciderContext ν where
  partitionId := partitionId
  role := .replica
  currentAssignment := some assignment
  allAssignments := assignments
  nodeAssignmentCounts := countNodeAssignments assignments
  nodes := nodeMap

def placeReplica (assignments : Assignments) (partitionId : Nat)
    (assignment : PartitionAssignment) (context : PlacementContext ν) : Option NodeId :=
  findBestNode (context.placementNodes.map (·.nodeId))
    (computeNodeWeights context.placementNodes assignments) context.deciders
    (replicaContext assignments partitionId assignment context.nodeMap)

theorem firstAdmitted_some {verdict : NodeId → DeciderVerdict} {candidates : List NodeId}
    {throttled : Option NodeId} {chosen : NodeId}
    (found : firstAdmitted verdict throttled candidates = some chosen) :
    throttled = some chosen ∨ (chosen ∈ candidates ∧ verdict chosen ≠ .no) := by
  induction candidates generalizing throttled with
  | nil => exact Or.inl found
  | cons candidate rest ih =>
    rw [firstAdmitted] at found
    cases judged : verdict candidate with
    | yes =>
      simp only [judged, Option.some.injEq] at found
      subst found
      exact Or.inr ⟨by simp, by simp [judged]⟩
    | no =>
      simp only [judged] at found
      rcases ih found with old | ⟨member, admitted⟩
      · exact Or.inl old
      · exact Or.inr ⟨by simp [member], admitted⟩
    | throttle =>
      simp only [judged] at found
      rcases ih found with old | ⟨member, admitted⟩
      · cases throttled with
        | some first => exact Or.inl (by simpa using old)
        | none =>
          simp only [Option.none_or, Option.some.injEq] at old
          subst old
          exact Or.inr ⟨by simp, by simp [judged]⟩
      · exact Or.inr ⟨by simp [member], admitted⟩

theorem findBestNode_some {candidates : List NodeId} {weights : List (NodeWeight ν)}
    {deciders : List (Decider ν)} {context : DeciderContext ν} {chosen : NodeId}
    (found : findBestNode candidates weights deciders context = some chosen) :
    chosen ∈ candidates ∧ ∀ decider ∈ deciders, decider context chosen ≠ .no := by
  rcases firstAdmitted_some found with old | ⟨member, admitted⟩
  · simp at old
  · refine ⟨(List.mem_insertionSort _).mp member, ?_⟩
    intro decider listed refused
    apply admitted
    rw [runAllDeciders, if_pos]
    exact List.any_eq_true.mpr ⟨decider, listed, by simp [refused]⟩

theorem colocationDecider_mem (constraints : AllocationConstraints) (sizes : PartitionSizes ν) :
    colocationDecider ∈ createDeciderChain constraints sizes := by
  simp [createDeciderChain]

theorem findBestNode_apart {candidates : List NodeId} {weights : List (NodeWeight ν)}
    {deciders : List (Decider ν)} {assignments : Assignments} {partitionId : Nat}
    {assignment : PartitionAssignment} {nodeMap : List (NodeId × NodeRegistration ν)}
    {chosen : NodeId} (chain : colocationDecider ∈ deciders)
    (found : findBestNode candidates weights deciders
      (replicaContext assignments partitionId assignment nodeMap) = some chosen) :
    chosen ∈ candidates ∧ assignment.primary ≠ some chosen ∧ chosen ∉ assignment.replicas := by
  obtain ⟨member, admitted⟩ := findBestNode_some found
  have apart := admitted colocationDecider chain
  simp only [colocationDecider, replicaContext] at apart
  constructor
  · exact member
  · constructor
    · intro led
      simp [led] at apart
    · intro held
      by_cases led : assignment.primary = some chosen <;> simp [led, held] at apart

end Narsil.Allocator
