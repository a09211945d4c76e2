import Narsil.Allocator.LeadershipSafety

/-!
# The steps of a run

A run of the allocator, written out as the rewrites of single assignments it is made of,
each with the table it is made in. The steps of a run lead from the table it reads to the
one it returns.
-/
namespace Narsil.Allocator

variable {ν : Type} [Number ν]

inductive Pass
  | lostNodes | settle | handOver | trim | fill | drain | balance | leadership | clearUp
  deriving DecidableEq, Repr

structure RunStep where
  pass : Pass
  done : Assignments
  partitionId : Nat
  old : PartitionAssignment
  new : PartitionAssignment
  rest : Assignments
  deriving DecidableEq, Repr

/-- The table around the assignment of a step. -/
def RunStep.table (step : RunStep) (assignment : PartitionAssignment) : Assignments :=
  step.done ++ (step.partitionId, assignment) :: step.rest

/-- Each step starts from the table the one before it left. -/
def Chained : Assignments → List RunStep → Assignments → Prop
  | first, [], last => first = last
  | first, step :: steps, last => step.table step.old = first ∧ Chained (step.table step.new) steps last

theorem Chained.append {first middle last : Assignments} {steps later : List RunStep}
    (front : Chained first steps middle) (back : Chained middle later last) :
    Chained first (steps ++ later) last := by
  induction steps generalizing first with
  | nil =>
    cases (front : first = middle)
    exact back
  | cons step steps ih => exact ⟨front.1, ih front.2⟩

theorem Chained.keeps {P : PartitionAssignment → Prop} {first last : Assignments} {steps : List RunStep}
    (chained : Chained first steps last) (step : ∀ step ∈ steps, P step.old → P step.new)
    (start : ∀ entry ∈ first, P entry.2) : ∀ entry ∈ last, P entry.2 := by
  induction steps generalizing first with
  | nil =>
    cases (chained : first = last)
    exact start
  | cons head steps ih =>
    obtain ⟨rfl, rest⟩ := chained
    apply ih rest fun later member => step later (List.mem_cons_of_mem _ member)
    intro entry member
    rcases List.mem_append.mp member with before | behind
    · exact start entry (List.mem_append_left _ before)
    · rcases List.mem_cons.mp behind with rfl | behind
      · apply step head List.mem_cons_self
        exact start (head.partitionId, head.old) (List.mem_append_right _ List.mem_cons_self)
      · exact start entry (List.mem_append_right _ (List.mem_cons_of_mem _ behind))

/-- The rewrites of one assignment through several values. -/
def stepsThrough (pass : Pass) (done : Assignments) (partitionId : Nat) (rest : Assignments) :
    PartitionAssignment → List PartitionAssignment → List RunStep
  | _, [] => []
  | old, new :: later =>
    ⟨pass, done, partitionId, old, new, rest⟩ :: stepsThrough pass done partitionId rest new later

/-- A visitor that lists the values it takes an assignment through. -/
abbrev Visitor (σ : Type) :=
  (PartitionAssignment → Assignments) → σ → Nat → PartitionAssignment → List PartitionAssignment × σ

def visitSteps {σ : Type} (pass : Pass) (visitor : Visitor σ) :
    Assignments → Assignments → σ → List RunStep
  | _, [], _ => []
  | done, (partitionId, assignment) :: rest, st =>
    let visited := visitor (fun value => done ++ (partitionId, value) :: rest) st partitionId assignment
    stepsThrough pass done partitionId rest assignment visited.1 ++
      visitSteps pass visitor (done ++ [(partitionId, visited.1.getLastD assignment)]) rest visited.2

/-- A pass that rewrites each assignment once. -/
def once {σ : Type}
    (f : (PartitionAssignment → Assignments) → σ → Nat → PartitionAssignment → PartitionAssignment × σ) :
    Visitor σ :=
  fun whole st partitionId assignment =>
    ([(f whole st partitionId assignment).1], (f whole st partitionId assignment).2)

theorem stepsThrough_chained (pass : Pass) (done : Assignments) (partitionId : Nat) (rest : Assignments)
    (old : PartitionAssignment) (values : List PartitionAssignment) :
    Chained (done ++ (partitionId, old) :: rest) (stepsThrough pass done partitionId rest old values)
      (done ++ (partitionId, values.getLastD old) :: rest) := by
  induction values generalizing old with
  | nil => rfl
  | cons new later ih =>
    constructor
    · rfl
    · have last : (new :: later).getLastD old = later.getLastD new := by
        cases later <;> rfl
      rw [last]
      exact ih new

theorem visitSteps_chained {σ : Type} (pass : Pass) {visitor : Visitor σ}
    {f : (PartitionAssignment → Assignments) → σ → Nat → PartitionAssignment → PartitionAssignment × σ}
    (same : ∀ whole st partitionId assignment,
      (((visitor whole st partitionId assignment).1.getLastD assignment,
        (visitor whole st partitionId assignment).2)) = f whole st partitionId assignment)
    (done rest : Assignments) (st : σ) :
    Chained (done ++ rest) (visitSteps pass visitor done rest st) (Assoc.visit f done rest st).1 := by
  induction rest generalizing done st with
  | nil =>
    rw [List.append_nil]
    rfl
  | cons entry rest ih =>
    obtain ⟨partitionId, assignment⟩ := entry
    have here := same (fun value => done ++ (partitionId, value) :: rest) st partitionId assignment
    rw [visitSteps, Assoc.visit]
    apply Chained.append (stepsThrough_chained pass done partitionId rest assignment _)
    rw [List.append_cons]
    have later := ih (done ++ [(partitionId, (f (fun value => done ++ (partitionId, value) :: rest) st
      partitionId assignment).1)]) (f (fun value => done ++ (partitionId, value) :: rest) st
      partitionId assignment).2
    simp only [← here] at later ⊢
    exact later

theorem visitSteps_all {σ : Type} {pass : Pass} {visitor : Visitor σ} {P : PartitionAssignment → Prop}
    {Law : RunStep → Prop}
    (each : ∀ done rest st partitionId assignment, P assignment →
      ∀ step ∈ stepsThrough pass done partitionId rest assignment
        (visitor (fun value => done ++ (partitionId, value) :: rest) st partitionId assignment).1, Law step)
    {done rest : Assignments} {st : σ} (all : ∀ entry ∈ rest, P entry.2) :
    ∀ step ∈ visitSteps pass visitor done rest st, Law step := by
  induction rest generalizing done st with
  | nil => exact fun step member => absurd member List.not_mem_nil
  | cons entry rest ih =>
    obtain ⟨partitionId, assignment⟩ := entry
    intro step member
    rcases List.mem_append.mp member with here | later
    · exact each done rest st partitionId assignment (all _ List.mem_cons_self) step here
    · exact ih (fun entry among => all entry (List.mem_cons_of_mem _ among)) step later

theorem visitAll_all {σ : Type} (P P' : PartitionAssignment → Prop)
    {f : (PartitionAssignment → Assignments) → σ → Nat → PartitionAssignment → PartitionAssignment × σ}
    (each : ∀ whole st partitionId assignment, P assignment → P' (f whole st partitionId assignment).1)
    {entries : Assignments} {st : σ} (all : ∀ entry ∈ entries, P entry.2) :
    ∀ entry ∈ Assoc.visitAll f entries st, P' entry.2 := by
  have start : Assoc.Related (fun _ assignment => P assignment) entries entries :=
    Assoc.Related.of_values all
  have related : Assoc.Related (fun _ assignment => P' assignment) entries (Assoc.visitAll f entries st) :=
    start.visitAll (fun whole st partitionId _ assignment holds => each whole st partitionId assignment holds) st
  intro entry member
  obtain ⟨_, _, _, holds⟩ := related.value member
  exact holds

theorem visitAll_eq_map (g : PartitionAssignment → PartitionAssignment) (entries : Assignments) :
    Assoc.visitAll (fun _ (_ : Unit) _ assignment => (g assignment, ())) entries () =
      entries.map fun entry => (entry.1, g entry.2) := by
  have general (done : Assignments) :
      (Assoc.visit (fun _ (_ : Unit) _ assignment => (g assignment, ())) done entries ()).1 =
        done ++ entries.map fun entry => (entry.1, g entry.2) := by
    induction entries generalizing done with
    | nil => simp [Assoc.visit]
    | cons entry entries ih =>
      rw [Assoc.visit, ih, List.map_cons, List.append_assoc]
      rfl
  exact general []

/-- The rewrite of the assignment at one position. -/
def stepAt (pass : Pass) (assignments : Assignments) (position : Nat)
    (f : PartitionAssignment → PartitionAssignment) : List RunStep :=
  match assignments[position]? with
  | none => []
  | some entry =>
    [⟨pass, assignments.take position, entry.1, entry.2, f entry.2, assignments.drop (position + 1)⟩]

theorem stepAt_chained (pass : Pass) (assignments : Assignments) (position : Nat)
    (f : PartitionAssignment → PartitionAssignment) :
    Chained assignments (stepAt pass assignments position f)
      (assignments.modify position fun entry => (entry.1, f entry.2)) := by
  rw [stepAt]
  split
  next none =>
    rw [List.modify_eq_self (List.getElem?_eq_none_iff.mp none)]
    rfl
  next entry at_ =>
    obtain ⟨inside, rfl⟩ := List.getElem?_eq_some_iff.mp at_
    constructor
    · rw [RunStep.table]
      simp
    · rw [List.modify_eq_take_cons_drop inside]
      rfl

/-- The values `fillSlots` takes an assignment through. -/
def fillRounds (placement : PlacementContext ν) (replicationFactor partitionId : Nat)
    (whole : PartitionAssignment → Assignments) : Nat → PartitionAssignment → List PartitionAssignment
  | 0, _ => []
  | rounds + 1, assignment =>
    if (replicasOutsideMove assignment).length < replicationFactor then
      match placeReplica (whole assignment) partitionId assignment placement with
      | none => []
      | some replicaNodeId =>
        let filled := { assignment with replicas := assignment.replicas ++ [replicaNodeId] }
        filled :: fillRounds placement replicationFactor partitionId whole rounds filled
    else []

theorem fillRounds_last (placement : PlacementContext ν) (replicationFactor partitionId : Nat)
    (whole : PartitionAssignment → Assignments) (rounds : Nat) (assignment : PartitionAssignment) :
    (fillRounds placement replicationFactor partitionId whole rounds assignment).getLastD assignment =
      fillSlots placement replicationFactor partitionId whole rounds assignment := by
  induction rounds generalizing assignment with
  | zero => rfl
  | succ rounds ih =>
    rw [fillRounds, fillSlots]
    split
    · cases placeReplica (whole assignment) partitionId assignment placement with
      | none => rfl
      | some target =>
        simp only [← ih]
        generalize fillRounds placement replicationFactor partitionId whole rounds _ = later
        cases later <;> rfl
    · rfl

def lostNodeSteps (assignments : Assignments) (activeNodeIds retainedNodeIds : List NodeId)
    (shares : List (NodeId × ν)) (drainingNodeIds : List NodeId) : List RunStep :=
  visitSteps .lostNodes (once fun _ primaryCounts _ assignment =>
    handleLostNode activeNodeIds retainedNodeIds shares drainingNodeIds primaryCounts assignment)
    [] assignments (countPrimaryAssignments assignments)

def settleSteps (assignments : Assignments) (replicationFactor : Nat) : List RunStep :=
  visitSteps .settle (once fun _ (_ : Unit) _ assignment => (settleMove replicationFactor assignment, ()))
    [] assignments ()

def handOverSteps (assignments : Assignments) (context : PlacementContext ν) (shares : List (NodeId × ν)) :
    List RunStep :=
  visitSteps .handOver (once (handOverDrainingLead context shares)) [] assignments
    (countPrimaryAssignments assignments)

def trimSteps (assignments : Assignments) (sortedNodes : List (NodeRegistration ν)) (replicationFactor : Nat)
    (drainingNodeIds : List NodeId) : List RunStep :=
  visitSteps .trim (once fun whole (_ : Unit) _ assignment =>
    if assignment.removingReplicas ≠ none ∨ ledByDraining drainingNodeIds assignment then (assignment, ())
    else (trimSurplus sortedNodes replicationFactor drainingNodeIds whole
      assignment.replicas.length assignment, ())) [] assignments ()

def fillSteps (assignments : Assignments) (placement : PlacementContext ν) (replicationFactor : Nat) :
    List RunStep :=
  visitSteps .fill (fun whole (_ : Unit) partitionId assignment =>
    if assignment.primary = none then ([], ())
    else (fillRounds placement replicationFactor partitionId whole
      (placement.placementNodes.length + 1) assignment, ())) [] assignments ()

def drainSteps (assignments : Assignments) (context : PlacementContext ν) (replicationFactor : Nat) :
    List RunStep :=
  visitSteps .drain (once fun whole (_ : Unit) partitionId assignment =>
    (moveDrainingReplica context replicationFactor whole partitionId assignment, ())) [] assignments ()

def clearUpSteps (assignments : Assignments) : List RunStep :=
  visitSteps .clearUp (once fun _ (_ : Unit) _ assignment => (clearRecoveryState (pruneInSyncSet assignment), ()))
    [] assignments ()

theorem once_chained {σ : Type} (pass : Pass)
    (f : (PartitionAssignment → Assignments) → σ → Nat → PartitionAssignment → PartitionAssignment × σ)
    (assignments : Assignments) (st : σ) :
    Chained assignments (visitSteps pass (once f) [] assignments st) (Assoc.visitAll f assignments st) :=
  visitSteps_chained pass (fun _ _ _ _ => rfl) [] assignments st

theorem lostNodeSteps_chained (assignments : Assignments) (activeNodeIds retainedNodeIds : List NodeId)
    (shares : List (NodeId × ν)) (drainingNodeIds : List NodeId) :
    Chained assignments (lostNodeSteps assignments activeNodeIds retainedNodeIds shares drainingNodeIds)
      (handleLostNodes assignments activeNodeIds retainedNodeIds shares drainingNodeIds) :=
  once_chained _ _ _ _

theorem settleSteps_chained (assignments : Assignments) (replicationFactor : Nat) :
    Chained assignments (settleSteps assignments replicationFactor) (settleMoves assignments replicationFactor) :=
  once_chained _ _ _ _

theorem handOverSteps_chained (assignments : Assignments) (context : PlacementContext ν)
    (shares : List (NodeId × ν)) :
    Chained assignments (handOverSteps assignments context shares)
      (handOverDrainingLeads assignments context shares) :=
  once_chained _ _ _ _

theorem trimSteps_chained (assignments : Assignments) (sortedNodes : List (NodeRegistration ν))
    (replicationFactor : Nat) (drainingNodeIds : List NodeId) :
    Chained assignments (trimSteps assignments sortedNodes replicationFactor drainingNodeIds)
      (trimSurplusReplicas assignments sortedNodes replicationFactor drainingNodeIds) :=
  once_chained _ _ _ _

theorem fillSteps_chained (assignments : Assignments) (placement : PlacementContext ν) (replicationFactor : Nat) :
    Chained assignments (fillSteps assignments placement replicationFactor)
      (fillReplicaSlots assignments placement replicationFactor) := by
  apply visitSteps_chained .fill _ [] assignments ()
  intro whole st partitionId assignment
  split
  · rfl
  · rw [fillRounds_last]

theorem drainSteps_chained (assignments : Assignments) (context : PlacementContext ν) (replicationFactor : Nat) :
    Chained assignments (drainSteps assignments context replicationFactor)
      (moveDrainingReplicas assignments context replicationFactor) :=
  once_chained _ _ _ _

theorem clearUpSteps_chained (assignments : Assignments) :
    Chained assignments (clearUpSteps assignments)
      (clearRecoveryStateOnServedPartitions (pruneInSyncSets assignments)) := by
  have cleared : clearRecoveryStateOnServedPartitions (pruneInSyncSets assignments) =
      Assoc.visitAll (fun _ (_ : Unit) _ assignment => (clearRecoveryState (pruneInSyncSet assignment), ()))
        assignments () := by
    rw [visitAll_eq_map, pruneInSyncSets, clearRecoveryStateOnServedPartitions, List.map_map]
    rfl
  rw [cleared]
  exact once_chained _ _ _ _

/-- The guards of one balance round: the move it looks for. -/
def balanceMove (context : BalanceContext ν) (assignments : Assignments) : Option (ReplicaMove ν) :=
  let weights := computeNodeWeights context.sortedNodes assignments
  let sorted := weights.insertionSort fun a b => ¬ Number.less b.weight a.weight = true
  match sorted.head?, sorted.getLast? with
  | some leastLoaded, some mostLoaded =>
    if weights.length < 2 then none
    else if Number.less (Number.sub mostLoaded.weight leastLoaded.weight) REBALANCE_THRESHOLD then none
    else if !moveNarrowsGap mostLoaded leastLoaded context.shares then none
    else some ⟨mostLoaded.nodeId, leastLoaded.nodeId, weights, context.nodeMap, context.deciders⟩
  | _, _ => none

/-- The position a move is made at, and its target. -/
def moveChosen (assignments : Assignments) (move : ReplicaMove ν) (laggingOnly : Bool) :
    Option (Nat × NodeId) :=
  assignments.zipIdx.findSome? fun entry =>
    (moveTarget assignments move laggingOnly entry.1.1 entry.1.2).map fun target => (entry.2, target)

/-- The assignment of a move that begins. -/
def opened (source target : NodeId) (assignment : PartitionAssignment) : PartitionAssignment :=
  { assignment with
    replicas := assignment.replicas ++ [target]
    removingReplicas := some [source] }

def roundChosen (context : BalanceContext ν) (assignments : Assignments) :
    Option (ReplicaMove ν × Nat × NodeId) :=
  (balanceMove context assignments).bind fun move =>
    ((moveChosen assignments move true).or (moveChosen assignments move false)).map fun chosen => (move, chosen)

theorem balanceOnce_eq (context : BalanceContext ν) (assignments : Assignments) :
    balanceOnce context assignments = (roundChosen context assignments).map fun chosen =>
      assignments.modify chosen.2.1 fun entry => (entry.1, opened chosen.1.fromNodeId chosen.2.2 entry.2) := by
  rw [balanceOnce, roundChosen, balanceMove]
  simp only
  generalize computeNodeWeights context.sortedNodes assignments = weights
  generalize (weights.insertionSort fun a b => ¬ Number.less b.weight a.weight = true).head? = first
  generalize (weights.insertionSort fun a b => ¬ Number.less b.weight a.weight = true).getLast? = last
  cases first with
  | none => rfl
  | some leastLoaded =>
    cases last with
    | none => rfl
    | some mostLoaded =>
      simp only
      split
      · rfl
      · split
        · rfl
        · split
          · rfl
          · rw [Option.bind_some, Option.map_map, moveOneReplica, moveOneReplica, ← Option.map_or]
            rfl

def balanceSteps (context : BalanceContext ν) : Nat → Assignments → List RunStep
  | 0, _ => []
  | rounds + 1, assignments =>
    match roundChosen context assignments with
    | none => []
    | some chosen =>
      stepAt .balance assignments chosen.2.1 (opened chosen.1.fromNodeId chosen.2.2) ++
        balanceSteps context rounds (assignments.modify chosen.2.1 fun entry =>
          (entry.1, opened chosen.1.fromNodeId chosen.2.2 entry.2))

theorem balanceSteps_chained (context : BalanceContext ν) (rounds : Nat) (assignments : Assignments) :
    Chained assignments (balanceSteps context rounds assignments) (balanceRounds context rounds assignments) := by
  induction rounds generalizing assignments with
  | zero => rfl
  | succ rounds ih =>
    rw [balanceSteps, balanceRounds, balanceOnce_eq]
    cases roundChosen context assignments with
    | none => rfl
    | some chosen => exact (stepAt_chained .balance assignments _ _).append (ih _)

def leadershipSteps (shares : List (NodeId × ν)) (excludedNodeIds : List NodeId) :
    Nat → Assignments → List NodeId → List RunStep
  | 0, _, _ => []
  | rounds + 1, assignments, withoutHandover =>
    match leadershipRound shares excludedNodeIds assignments withoutHandover with
    | .finished => []
    | .withoutHandover heaviest =>
      leadershipSteps shares excludedNodeIds rounds assignments (heaviest :: withoutHandover)
    | .handover heaviest swap =>
      stepAt .leadership assignments swap.position (handOverTo · swap.candidateNodeId heaviest) ++
        leadershipSteps shares excludedNodeIds rounds (applySwap assignments swap heaviest) withoutHandover

theorem leadershipSteps_chained (shares : List (NodeId × ν)) (excludedNodeIds : List NodeId) (rounds : Nat)
    (assignments : Assignments) (withoutHandover : List NodeId) :
    Chained assignments (leadershipSteps shares excludedNodeIds rounds assignments withoutHandover)
      (leadershipRounds shares excludedNodeIds rounds assignments withoutHandover) := by
  induction rounds generalizing assignments withoutHandover with
  | zero => rfl
  | succ rounds ih =>
    rw [leadershipSteps, leadershipRounds]
    cases leadershipRound shares excludedNodeIds assignments withoutHandover with
    | finished => rfl
    | withoutHandover heaviest => exact ih _ _
    | handover heaviest swap => exact (stepAt_chained .leadership assignments _ _).append (ih _ _)

section Run
variable (nodes : List (NodeRegistration ν)) (current : Assignments) (replicationFactor : Nat)
  (deciders : List (Decider ν)) (retainedNodeIds : List NodeId)

/-- The tables of a run between its passes. -/
structure Stages where
  failedOver : Assignments
  settled : Assignments
  handedOver : Assignments
  trimmed : Assignments
  filled : Assignments
  drained : Assignments
  settledAgain : Assignments
  balanced : Assignments
  led : Assignments

def stagesOf : Stages :=
  let sortedNodes := sortById nodes
  let placement := placementContext sortedNodes deciders
  let shares := capacityShares sortedNodes
  let failedOver := handleLostNodes current (registeredIds nodes) retainedNodeIds shares placement.drainingNodeIds
  let settled := settleMoves failedOver replicationFactor
  let handedOver := handOverDrainingLeads settled placement shares
  let trimmed := trimSurplusReplicas handedOver sortedNodes replicationFactor placement.drainingNodeIds
  let filled := fillReplicaSlots trimmed placement replicationFactor
  let drained := moveDrainingReplicas filled placement replicationFactor
  let settledAgain := settleMoves drained replicationFactor
  let balanced := rebalanceForBalance settledAgain
    ⟨placement.placementNodes, placement.nodeMap, deciders, shares⟩
  { failedOver, settled, handedOver, trimmed, filled, drained, settledAgain, balanced
    led := rebalanceLeadership balanced shares placement.drainingNodeIds }

/-- The context of the balance rounds. -/
def balanceContextOf : BalanceContext ν :=
  let placement := placementContext (sortById nodes) deciders
  ⟨placement.placementNodes, placement.nodeMap, deciders, capacityShares (sortById nodes)⟩

def slotsOf (assignments : Assignments) : Nat :=
  (assignments.map fun entry => entry.2.primary.toList.length + entry.2.replicas.length).sum

/-- Each pass starts from the table the one before it left. -/
structure Stages.Follow (stages : Stages) : Prop where
  failedOver : stages.failedOver = handleLostNodes current (registeredIds nodes) retainedNodeIds
    (capacityShares (sortById nodes)) (placementContext (sortById nodes) deciders).drainingNodeIds
  settled : stages.settled = settleMoves stages.failedOver replicationFactor
  handedOver : stages.handedOver = handOverDrainingLeads stages.settled
    (placementContext (sortById nodes) deciders) (capacityShares (sortById nodes))
  trimmed : stages.trimmed = trimSurplusReplicas stages.handedOver (sortById nodes) replicationFactor
    (placementContext (sortById nodes) deciders).drainingNodeIds
  filled : stages.filled = fillReplicaSlots stages.trimmed (placementContext (sortById nodes) deciders)
    replicationFactor
  drained : stages.drained = moveDrainingReplicas stages.filled
    (placementContext (sortById nodes) deciders) replicationFactor
  settledAgain : stages.settledAgain = settleMoves stages.drained replicationFactor
  balanced : stages.balanced = balanceRounds (balanceContextOf nodes deciders)
    (slotsOf stages.settledAgain * 2) stages.settledAgain
  led : stages.led = leadershipRounds (capacityShares (sortById nodes))
    (placementContext (sortById nodes) deciders).drainingNodeIds stages.balanced.length stages.balanced []

theorem stagesOf_follow :
    (stagesOf nodes current replicationFactor deciders retainedNodeIds).Follow nodes current replicationFactor
      deciders retainedNodeIds := by
  constructor <;> simp only [stagesOf, rebalanceForBalance, balanceContextOf, slotsOf, rebalanceLeadership]

def runSteps : List RunStep :=
  let sortedNodes := sortById nodes
  let placement := placementContext sortedNodes deciders
  let shares := capacityShares sortedNodes
  let stages := stagesOf nodes current replicationFactor deciders retainedNodeIds
  lostNodeSteps current (registeredIds nodes) retainedNodeIds shares placement.drainingNodeIds ++
  (settleSteps stages.failedOver replicationFactor ++
  (handOverSteps stages.settled placement shares ++
  (trimSteps stages.handedOver sortedNodes replicationFactor placement.drainingNodeIds ++
  (fillSteps stages.trimmed placement replicationFactor ++
  (drainSteps stages.filled placement replicationFactor ++
  (settleSteps stages.drained replicationFactor ++
  (balanceSteps (balanceContextOf nodes deciders) (slotsOf stages.settledAgain * 2) stages.settledAgain ++
  (leadershipSteps shares placement.drainingNodeIds stages.balanced.length stages.balanced [] ++
  clearUpSteps stages.led))))))))

theorem runSteps_chained (table : AllocationTable) :
    Chained table.assignments (runSteps nodes table.assignments replicationFactor deciders retainedNodeIds)
      (rebalanceAllocate nodes table replicationFactor deciders retainedNodeIds).table.assignments := by
  have result : (rebalanceAllocate nodes table replicationFactor deciders retainedNodeIds).table.assignments =
      clearRecoveryStateOnServedPartitions (pruneInSyncSets
        (stagesOf nodes table.assignments replicationFactor deciders retainedNodeIds).led) := by
    simp only [rebalanceAllocate, placeCopies, stagesOf, registeredIds]
  have follow := stagesOf_follow nodes table.assignments replicationFactor deciders retainedNodeIds
  rw [result, runSteps]
  generalize stagesOf nodes table.assignments replicationFactor deciders retainedNodeIds = stages at follow ⊢
  apply (follow.failedOver ▸ lostNodeSteps_chained _ _ _ _ _).append
  apply (follow.settled ▸ settleSteps_chained _ _).append
  apply (follow.handedOver ▸ handOverSteps_chained _ _ _).append
  apply (follow.trimmed ▸ trimSteps_chained _ _ _ _).append
  apply (follow.filled ▸ fillSteps_chained _ _ _).append
  apply (follow.drained ▸ drainSteps_chained _ _ _).append
  apply (follow.settledAgain ▸ settleSteps_chained _ _).append
  apply (follow.balanced ▸ balanceSteps_chained _ _ _).append
  apply (follow.led ▸ leadershipSteps_chained _ _ _ _ _).append
  exact clearUpSteps_chained _

end Run

end Narsil.Allocator
