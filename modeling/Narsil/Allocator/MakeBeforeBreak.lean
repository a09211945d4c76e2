import Narsil.Allocator.ControllerRun
import Narsil.Allocator.MovePasses

/-!
# Make before break

Every run of the allocator from a table the controller stored keeps the laws of a move,
whatever was written in between: the target or the source lost, copies admitted to the
in-sync set and removed from it, the factor changed.
-/
namespace Narsil.Allocator

section Run
variable {ν : Type} [Number ν]

def RunInput.result (input : RunInput ν) (table : AllocationTable) : AllocationTable :=
  (rebalanceAllocate input.nodes table input.replicationFactor input.deciders input.retainedNodeIds).table

def RunInput.steps (input : RunInput ν) (table : AllocationTable) : List RunStep :=
  runSteps input.nodes table.assignments input.replicationFactor input.deciders input.retainedNodeIds

omit [Number ν] in
theorem lawful_of_once {σ : Type} {pass : Pass} {input : RunInput ν} (P : PartitionAssignment → Prop)
    {f : (PartitionAssignment → Assignments) → σ → Nat → PartitionAssignment → PartitionAssignment × σ}
    {assignments : Assignments} {st : σ} (all : ∀ entry ∈ assignments, P entry.2)
    (lawful : ∀ step : RunStep, step.pass = pass → P step.old →
      (∃ st, step.new = (f step.table st step.partitionId step.old).1) → Lawful input step) :
    ∀ step ∈ visitSteps pass (once f) [] assignments st, Lawful input step := by
  apply @visitSteps_all _ pass (once f) P (Lawful input) _ [] assignments st all
  intro done rest st partitionId assignment holds step member
  rw [List.mem_singleton.mp member]
  exact lawful ⟨pass, done, partitionId, assignment, _, rest⟩ rfl holds ⟨st, rfl⟩

theorem fillSteps_lawful {input : RunInput ν} (assignments : Assignments) :
    ∀ step ∈ fillSteps assignments input.placement input.replicationFactor, Lawful input step := by
  apply @visitSteps_all _ .fill _ (fun _ => True) (Lawful input) _ [] assignments () (fun _ _ => trivial)
  intro done rest _ partitionId assignment _ step member
  split at member
  · exact absurd member List.not_mem_nil
  · exact fillRounds_lawful done partitionId rest _ assignment step member

/-- What the passes of a run leave of a tidy table. -/
structure Stages.Kept (input : RunInput ν) (stages : Stages) : Prop where
  failedOver : ∀ entry ∈ stages.failedOver, Tidy entry.2
  settled : ∀ entry ∈ stages.settled, Tidy entry.2 ∧ Waiting input.replicationFactor entry.2
  handedOver : ∀ entry ∈ stages.handedOver, Tidy entry.2 ∧ Waiting input.replicationFactor entry.2
  filled : ∀ entry ∈ stages.filled, Settled input.replicationFactor (drainingIds input.nodes) entry.2
  drained : ∀ entry ∈ stages.drained, Tidy entry.2
  settledAgain : ∀ entry ∈ stages.settledAgain,
    Tidy entry.2 ∧ Trimmed input.replicationFactor (drainingIds input.nodes) entry.2

theorem Stages.Follow.kept {input : RunInput ν} {current : Assignments} {stages : Stages}
    (follow : stages.Follow input.nodes current input.replicationFactor input.deciders input.retainedNodeIds)
    (tidy : ∀ entry ∈ current, Tidy entry.2) : stages.Kept input := by
  have chain : colocationDecider ∈ input.placement.deciders := colocationDecider_mem _ _
  have failedOver : ∀ entry ∈ stages.failedOver, Tidy entry.2 := by
    rw [follow.failedOver]
    refine visitAll_all Tidy Tidy ?_ tidy
    intro _ counts _ assignment tidy
    have loses := handleLostNode_losesOnly (registeredIds input.nodes) input.retainedNodeIds
      (capacityShares (sortById input.nodes)) (drainingIds input.nodes) counts tidy.structured
    refine ⟨(handleLostNode_placed _ _ _ _ counts tidy.structured).structured, ?_⟩
    intro after listed
    obtain ⟨before, listed', fewer⟩ := loses.removing after listed
    exact Nat.le_trans fewer.length_le (tidy.oneMove before listed')
  have settled : ∀ entry ∈ stages.settled, Tidy entry.2 ∧ Waiting input.replicationFactor entry.2 := by
    rw [follow.settled]
    refine visitAll_all Tidy (fun a => Tidy a ∧ Waiting input.replicationFactor a) ?_ failedOver
    exact fun _ _ _ _ tidy => ⟨settle_tidy tidy, settle_waiting tidy.structured⟩
  have handedOver : ∀ entry ∈ stages.handedOver, Tidy entry.2 ∧ Waiting input.replicationFactor entry.2 := by
    rw [follow.handedOver]
    refine visitAll_all (fun a => Tidy a ∧ Waiting input.replicationFactor a)
      (fun a => Tidy a ∧ Waiting input.replicationFactor a) ?_ settled
    exact fun whole counts partitionId _ kept => handOver_keeps chain _ whole counts partitionId kept.1 kept.2
  have trimmed : ∀ entry ∈ stages.trimmed,
      Settled input.replicationFactor (drainingIds input.nodes) entry.2 := by
    rw [follow.trimmed]
    refine visitAll_all (fun a => Tidy a ∧ Waiting input.replicationFactor a)
      (Settled input.replicationFactor (drainingIds input.nodes)) ?_ handedOver
    intro whole _ _ assignment kept
    obtain ⟨tidy, waiting, trimmed⟩ := @trim_keeps _ input.replicationFactor
      (placementContext (sortById input.nodes) input.deciders).drainingNodeIds assignment _
      (sortById input.nodes) whole kept.1 kept.2
    rw [trimOne] at tidy waiting trimmed
    split
    next still => rw [if_pos still] at tidy waiting trimmed; exact ⟨tidy, waiting, trimmed⟩
    next trims => rw [if_neg trims] at tidy waiting trimmed; exact ⟨tidy, waiting, trimmed⟩
  have filled : ∀ entry ∈ stages.filled,
      Settled input.replicationFactor (drainingIds input.nodes) entry.2 := by
    rw [follow.filled]
    refine visitAll_all (Settled input.replicationFactor (drainingIds input.nodes))
      (Settled input.replicationFactor (drainingIds input.nodes)) ?_ trimmed
    intro whole _ partitionId _ settled
    split
    · exact settled
    next served => exact fillRounds_keeps chain whole partitionId _ settled served
  have drained : ∀ entry ∈ stages.drained, Tidy entry.2 ∧
      Trimmed input.replicationFactor (drainingIds input.nodes) entry.2 ∧
        Begun input.replicationFactor (drainingIds input.nodes) entry.2 := by
    rw [follow.drained]
    refine visitAll_all (Settled input.replicationFactor (drainingIds input.nodes)) (fun a => Tidy a ∧
      Trimmed input.replicationFactor (drainingIds input.nodes) a ∧
        Begun input.replicationFactor (drainingIds input.nodes) a) ?_ filled
    exact fun whole _ partitionId _ settled => drain_keeps chain whole partitionId settled
  have settledAgain : ∀ entry ∈ stages.settledAgain,
      Tidy entry.2 ∧ Trimmed input.replicationFactor (drainingIds input.nodes) entry.2 := by
    rw [follow.settledAgain]
    refine visitAll_all (fun a => Tidy a ∧ Trimmed input.replicationFactor (drainingIds input.nodes) a ∧
      Begun input.replicationFactor (drainingIds input.nodes) a)
      (fun a => Tidy a ∧ Trimmed input.replicationFactor (drainingIds input.nodes) a) ?_ drained
    rintro _ _ _ _ ⟨tidy, trimmed, begun⟩
    exact ⟨settle_tidy tidy, settle_trimmed tidy trimmed begun⟩
  exact ⟨failedOver, settled, handedOver, filled, fun entry member => (drained entry member).1, settledAgain⟩

theorem runSteps_lawful (input : RunInput ν) (table : AllocationTable)
    (tidy : ∀ entry ∈ table.assignments, Tidy entry.2) : ∀ step ∈ input.steps table, Lawful input step := by
  have follow := stagesOf_follow input.nodes table.assignments input.replicationFactor input.deciders
    input.retainedNodeIds
  rw [RunInput.steps, runSteps]
  generalize stagesOf input.nodes table.assignments input.replicationFactor input.deciders
    input.retainedNodeIds = stages at follow ⊢
  have kept := follow.kept tidy
  have lost : ∀ step ∈ lostNodeSteps table.assignments (registeredIds input.nodes) input.retainedNodeIds
      (capacityShares (sortById input.nodes)) input.placement.drainingNodeIds, Lawful input step := by
    refine lawful_of_once Tidy tidy ?_
    rintro step pass tidy ⟨_, same⟩
    exact handleLostNode_lawful pass tidy.structured same
  have settle {assignments : Assignments} (tidy : ∀ entry ∈ assignments, Tidy entry.2) :
      ∀ step ∈ settleSteps assignments input.replicationFactor, Lawful input step := by
    refine lawful_of_once Tidy tidy ?_
    rintro step pass tidy ⟨_, same⟩
    exact settle_lawful (by simp [pass]) tidy.structured same
  have handOver : ∀ step ∈ handOverSteps stages.settled input.placement (capacityShares (sortById input.nodes)),
      Lawful input step := by
    refine lawful_of_once (fun _ => True) (fun _ _ => trivial) ?_
    rintro step pass - ⟨_, same⟩
    exact handOver_lawful (by simp [pass]) same
  have trim : ∀ step ∈ trimSteps stages.handedOver (sortById input.nodes) input.replicationFactor
      input.placement.drainingNodeIds, Lawful input step := by
    refine lawful_of_once (fun _ => True) (fun _ _ => trivial) ?_
    rintro step pass - ⟨_, same⟩
    apply @trim_lawful _ input.placement.drainingNodeIds _ input step (by simp [pass])
    rw [same, trimOne]
    split <;> rfl
  have drain : ∀ step ∈ drainSteps stages.filled input.placement input.replicationFactor, Lawful input step := by
    refine lawful_of_once (Settled input.replicationFactor (drainingIds input.nodes)) kept.filled ?_
    rintro step pass settled ⟨_, same⟩
    exact drain_lawful (by simp [pass]) settled same
  have balance := balanceSteps_lawful (slotsOf stages.settledAgain * 2)
    (fun entry member => (kept.settledAgain entry member).1) (fun entry member => (kept.settledAgain entry member).2)
  have lead := @leadershipSteps_lawful _ _ input (capacityShares (sortById input.nodes))
    input.placement.drainingNodeIds stages.balanced.length stages.balanced []
    (by rw [follow.balanced]; exact balance.2)
  have clearUp : ∀ step ∈ clearUpSteps stages.led, Lawful input step := by
    refine lawful_of_once (fun _ => True) (fun _ _ => trivial) ?_
    rintro step pass - ⟨_, same⟩
    exact clearUp_lawful (by simp [pass]) same
  simp only [List.forall_mem_append]
  exact ⟨lost, settle kept.failedOver, handOver, trim, fillSteps_lawful _, drain, settle kept.drained,
    balance.1, lead.1, clearUp⟩

/-- A table in which every partition has at most one move open. -/
def OneMoveTable (table : AllocationTable) : Prop := ∀ entry ∈ table.assignments, OneMove entry.2

theorem RunInput.result_oneMove (input : RunInput ν) {table : AllocationTable} (structured : StructuredTable table)
    (one : OneMoveTable table) : OneMoveTable (input.result table) := by
  have lawful := runSteps_lawful input table fun entry member => ⟨structured.structured entry member, one entry member⟩
  have chained : Chained table.assignments (input.steps table) (input.result table).assignments :=
    runSteps_chained input.nodes input.replicationFactor input.deciders input.retainedNodeIds table
  exact chained.keeps (fun step member => (lawful step member).oneMove) one

theorem initialReplicas_quiet (sortedNodes : List (NodeRegistration ν)) (deciders : List (Decider ν))
    (assignments : Assignments) (partitionId slots : Nat) (a : PartitionAssignment) :
    (initialReplicas sortedNodes deciders assignments partitionId slots a).removingReplicas = a.removingReplicas := by
  induction slots generalizing a with
  | zero => rfl
  | succ slots ih =>
    simp only [initialReplicas]
    split
    · rfl
    next target _ => exact ih { a with replicas := a.replicas ++ [target] }

theorem initialPartitions_quiet {sortedNodes : List (NodeRegistration ν)} {deciders : List (Decider ν)}
    {replicationFactor remaining : Nat} {before after : Assignments}
    (result : initialPartitions sortedNodes deciders replicationFactor remaining before = .ok after)
    (quiet : ∀ entry ∈ before, entry.2.removingReplicas = none) :
    ∀ entry ∈ after, entry.2.removingReplicas = none := by
  induction remaining generalizing before with
  | zero =>
    rw [initialPartitions, Except.ok.injEq] at result
    exact result ▸ quiet
  | succ remaining ih =>
    simp only [initialPartitions] at result
    split at result
    · cases result
    next primary _ =>
      apply ih result
      intro entry member
      rcases List.mem_append.mp member with old | added
      · exact quiet entry old
      · rw [List.mem_singleton.mp added]
        exact initialReplicas_quiet sortedNodes deciders _ _ _ _

theorem allocate_oneMove {nodes : List (NodeRegistration ν)} {table : Option AllocationTable} {indexName : String}
    {partitionCount replicationFactor : Int} {constraints : AllocationConstraints} {retainedNodeIds : List NodeId}
    {allocated : AllocationResult} (structured : ∀ old, table = some old → StructuredTable old)
    (one : ∀ old, table = some old → OneMoveTable old)
    (result : allocate nodes table indexName partitionCount replicationFactor constraints retainedNodeIds =
      .ok allocated) : OneMoveTable allocated.table := by
  rw [allocate] at result
  split at result
  · cases result
  · split at result
    · cases result
    · simp only at result
      split at result
      · cases result
      · cases table with
        | none =>
          simp only [initialAllocate] at result
          cases placed : initialPartitions
              (sortById (nodes.filter fun node => NodeRole.data ∈ node.roles))
              (createDeciderChain constraints (readPartitionSizes nodes indexName)) replicationFactor.toNat
              partitionCount.toNat [] with
          | error e =>
            rw [placed] at result
            cases result
          | ok assignments =>
            rw [placed] at result
            cases result
            intro entry member removing listed
            rw [initialPartitions_quiet placed (by simp) entry member] at listed
            cases listed
        | some old =>
          simp only [Except.ok.injEq] at result
          rw [← result]
          exact RunInput.result_oneMove ⟨nodes.filter fun node => NodeRole.data ∈ node.roles,
            replicationFactor.toNat, constraints, readPartitionSizes nodes indexName, retainedNodeIds⟩
            (structured old rfl) (one old rfl)

section Writers
variable {metadata : Option String} {table written : AllocationTable}

omit [Number ν] in
theorem stampedWith_oneMove (one : OneMoveTable table) : OneMoveTable (stampedWith table metadata) := by
  cases metadata <;> exact one

omit [Number ν] in
theorem withAssignment_oneMove {partitionId : Int} {a a' : PartitionAssignment} (one : OneMoveTable table)
    (found : assignmentOf table partitionId = some a) (same : a'.removingReplicas = a.removingReplicas)
    (result : withAssignment metadata table partitionId a' = some written) : OneMoveTable written := by
  rw [assignmentOf] at found
  split at found
  · cases found
  · have here := one _ (Assoc.mem_of_lookup found)
    rw [withAssignment, rewriteForCurrentIndex] at result
    split at result
    · cases result
    · rw [Option.some.injEq] at result
      rw [← result]
      apply stampedWith_oneMove
      intro entry member
      rcases Assoc.mem_set member with rfl | old
      · exact fun removing listed => here removing (same ▸ listed)
      · exact one entry old

omit [Number ν] in
theorem updateInsyncSet_oneMove {partitionId primaryTerm : Int} {decide : PartitionAssignment → AssignmentDecision}
    (keeps : ∀ a a', decide a = .write a' → a'.removingReplicas = a.removingReplicas) (one : OneMoveTable table)
    (result : updateInsyncSet metadata table partitionId primaryTerm decide = some written) :
    OneMoveTable written := by
  rw [updateInsyncSet] at result
  split at result
  · cases result
  next a found =>
    split at result
    · cases result
    · split at result
      · cases result
      · cases result
      next a' decided => exact withAssignment_oneMove one found (keeps a a' decided) result

omit [Number ν] in
theorem decideInsyncRemoval_keeps {payload : InsyncRemovePayload} {a a' : PartitionAssignment}
    (decided : decideInsyncRemoval payload a = .write a') : a'.removingReplicas = a.removingReplicas := by
  rw [decideInsyncRemoval] at decided
  split at decided
  · cases decided
  · split at decided
    · cases decided
    · cases decided
      rfl

omit [Number ν] in
theorem decideInsyncAdmission_keeps {payload : InsyncAddPayload} {a a' : PartitionAssignment}
    (decided : decideInsyncAdmission payload a = .write a') : a'.removingReplicas = a.removingReplicas := by
  rw [decideInsyncAdmission] at decided
  split at decided
  · cases decided
  · split at decided
    · cases decided
    · split at decided
      · cases decided
      · simp only at decided
        split at decided
        · cases decided
        · cases decided
          rfl

omit [Number ν] in
theorem processBootstrapComplete_oneMove {payload : BootstrapCompletePayload} (one : OneMoveTable table)
    (result : processBootstrapComplete metadata table payload = some written) : OneMoveTable written := by
  rw [processBootstrapComplete] at result
  split at result
  · cases result
  next a found =>
    split at result
    · cases result
    · split at result
      · cases result
      · split at result
        · cases result
        · have keeps : (served a).removingReplicas = a.removingReplicas := rfl
          exact withAssignment_oneMove one found keeps result

omit [Number ν] in
theorem writeRecoveryOutcome_oneMove {liveNodeIds : List NodeId} {answers : List (NodeId × StoresAnswer)}
    (one : OneMoveTable table) (result : writeRecoveryOutcome metadata table liveNodeIds answers = some written) :
    OneMoveTable written := by
  have keeps {entry : Nat × PartitionAssignment} {a' : PartitionAssignment}
      (outcome : recoveryOutcome liveNodeIds answers entry = some a') :
      a'.removingReplicas = entry.2.removingReplicas := by
    rw [recoveryOutcome] at outcome
    split at outcome
    · cases outcome
    · rw [rewriteAssignment] at outcome
      split at outcome
      · cases outcome
        rfl
      · simp only at outcome
        split at outcome
        · cases outcome
        · cases outcome
          rfl
  rw [writeRecoveryOutcome] at result
  split at result
  · cases result
  · rw [rewriteForCurrentIndex] at result
    split at result
    · cases result
    · rw [Option.some.injEq] at result
      rw [← result]
      apply stampedWith_oneMove
      intro entry member
      obtain ⟨old, among, rfl⟩ := List.mem_map.mp member
      intro removing listed
      cases outcome : recoveryOutcome liveNodeIds answers old with
      | none =>
        simp only [outcome, Option.getD_none] at listed
        exact one old among removing listed
      | some a' =>
        simp only [outcome, Option.getD_some] at listed
        exact one old among removing (keeps outcome ▸ listed)

end Writers

end Run

end Narsil.Allocator
