import Narsil.Allocator.MakeBeforeBreak

/-!
# Moves over runs of the controller

Every table the controller stores has at most one move open for each partition, so every
run of the allocator over a stored table keeps the laws of a move. Between two runs any
writer may admit a copy to the in-sync set, take one out of it, mark a partition served or
recover it.

**Strategy:** the tables stored and the tables asked for form one invariant. A writer that
rewrites an assignment leaves its move alone, and the allocator opens no second one.
-/
namespace Narsil.Allocator

section Run
variable {ν : Type} [Number ν] {indexName indexUuid : String}

/-- Every table stored or asked for has one move open at most for each partition. -/
structure OneMoveInv (s : ControllerState) : Prop where
  written : ∀ table ∈ s.written, OneMoveTable table
  pending : ∀ write ∈ s.pending, OneMoveTable write.table

theorem handleInsyncAdmission_oneMove {metadata : Option String} {registered : List NodeId}
    {payload : InsyncAddPayload} {table written : AllocationTable} (one : OneMoveTable table)
    (result : handleInsyncAdmission metadata registered table payload = some written) : OneMoveTable written := by
  rw [handleInsyncAdmission] at result
  split at result
  · cases result
  · exact updateInsyncSet_oneMove (fun _ _ => decideInsyncAdmission_keeps) one result

theorem handleBootstrapCompleteMessage_oneMove {metadata : Option String} {sourceId : NodeId}
    {payload : BootstrapCompletePayload} {table written : AllocationTable} (one : OneMoveTable table)
    (result : handleBootstrapCompleteMessage metadata sourceId table payload = some written) :
    OneMoveTable written := by
  rw [handleBootstrapCompleteMessage] at result
  split at result
  · cases result
  · exact processBootstrapComplete_oneMove one result

theorem requested_oneMove {stored : Option AllocationTable} {action : ControllerAction ν} {table : AllocationTable}
    (structured : ∀ old, stored = some old → StructuredTable old)
    (one : ∀ old, stored = some old → OneMoveTable old)
    (asked : requested indexName indexUuid stored action = some table) : OneMoveTable table := by
  have from_single (f : AllocationTable → Option AllocationTable) (bound : stored.bind f = some table)
      (keeps : ∀ old, OneMoveTable old → f old = some table → OneMoveTable table) : OneMoveTable table := by
    obtain ⟨old, found, result⟩ := Option.bind_eq_some_iff.mp bound
    exact keeps old (one old found) result
  -- The allocator reads the stored table, or none where it belongs to another index.
  have from_allocator {keep : AllocationTable → Bool} {input : AllocatorInput ν} {retained : List NodeId}
      {allocated : AllocationResult} (ran : allocate input.nodes (stored.filter keep) indexName input.partitionCount
        input.replicationFactor input.constraints retained = .ok allocated)
      (result : some (stampedWith allocated.table (some indexUuid)) = some table) : OneMoveTable table := by
    rw [Option.some.injEq] at result
    rw [← result]
    apply stampedWith_oneMove
    apply allocate_oneMove _ _ ran
    · exact fun old kept => structured old (Option.filter_eq_some_iff.mp kept).1
    · exact fun old kept => one old (Option.filter_eq_some_iff.mp kept).1
  cases action with
  | allocate input =>
    rw [requested, runAllocatorForIndex] at asked
    split at asked
    next ran => exact from_allocator ran asked
    · cases asked
  | schemaCreated input =>
    rw [requested, handleSchemaCreated] at asked
    split at asked
    next ran => exact from_allocator ran asked
    · cases asked
  | insyncRemoval payload metadata =>
    exact from_single _ asked fun _ one result =>
      updateInsyncSet_oneMove (fun _ _ => decideInsyncRemoval_keeps) one result
  | insyncAdmission payload registered metadata =>
    exact from_single _ asked fun _ one result => handleInsyncAdmission_oneMove one result
  | bootstrapComplete payload sourceId metadata =>
    exact from_single _ asked fun _ one result => handleBootstrapCompleteMessage_oneMove one result
  | recover liveNodeIds answers metadata =>
    exact from_single _ asked fun _ one result => writeRecoveryOutcome_oneMove one result
  | put index leaseHeld => cases asked

theorem controllerNext_oneMove {s s' : ControllerState} {action : ControllerAction ν}
    (inv : ControllerInv indexUuid s) (one : OneMoveInv s)
    (step : controllerNext indexName indexUuid s action = some s') : OneMoveInv s' := by
  have structured : ∀ old, s.stored = some old → StructuredTable old :=
    fun old found => (inv.sound old (List.mem_of_head? found)).structured
  have stored : ∀ old, s.stored = some old → OneMoveTable old :=
    fun old found => one.written old (List.mem_of_head? found)
  have reading {table : AllocationTable} (asked : requested indexName indexUuid s.stored action = some table)
      (result : some { s with pending := s.pending ++ [⟨s.stored.map (·.version), table⟩] } = some s') :
      OneMoveInv s' := by
    rw [Option.some.injEq] at result
    rw [← result]
    constructor
    · exact one.written
    · intro write member
      rcases List.mem_append.mp member with old | added
      · exact one.pending write old
      · rw [List.mem_singleton.mp added]
        exact requested_oneMove structured stored asked
  cases action with
  | put index leaseHeld =>
    rw [controllerNext] at step
    split at step
    · cases step
    next write asked =>
      rw [Option.some.injEq] at step
      rw [← step]
      have here := one.pending write (List.mem_of_getElem? asked)
      constructor
      · intro table member
        simp only [putAllocation] at member
        split at member
        · rcases List.mem_cons.mp member with rfl | old
          · exact here
          · exact one.written table old
        · exact one.written table member
      · exact fun other member => one.pending other (List.mem_of_mem_eraseIdx member)
  | _ =>
    rw [controllerNext] at step
    · split at step
      · rw [Option.some.injEq] at step
        exact step ▸ one
      next asked => exact reading asked step
    · intro index leaseHeld same
      cases same

/-- In every run of the controller's writers, every table stored has at most one move open
for each partition, and every run of the allocator over it is a chain of lawful steps. -/
theorem controller_makes_before_breaks (indexName indexUuid : String) (actions : List (ControllerAction ν))
    (s : ControllerState)
    (reached : Transition.run (controllerNext indexName indexUuid) startController actions = some s) :
    ∀ table ∈ s.written, OneMoveTable table ∧ ∀ input : RunInput ν,
      Chained table.assignments (input.steps table) (input.result table).assignments ∧
        ∀ step ∈ input.steps table, Lawful input step := by
  obtain ⟨inv, one⟩ : ControllerInv indexUuid s ∧ OneMoveInv s := by
    apply Transition.run_invariant (controllerNext indexName indexUuid)
      (fun s => ControllerInv indexUuid s ∧ OneMoveInv s) _ actions startController s _ reached
    · exact fun s s' action inv step => ⟨controllerNext_inv inv.1 step, controllerNext_oneMove inv.1 inv.2 step⟩
    · exact ⟨startController_inv, ⟨by simp [startController], by simp [startController]⟩⟩
  intro table member
  refine ⟨one.written table member, fun input => ⟨?_, ?_⟩⟩
  · exact runSteps_chained input.nodes input.replicationFactor input.deciders input.retainedNodeIds table
  · exact runSteps_lawful input table fun entry among =>
      ⟨(inv.sound table member).structured.structured entry among, one.written table member entry among⟩

end Run

private def moveMember (nodeId : NodeId) (draining : Bool) : NodeRegistration Exact where
  nodeId := nodeId
  roles := [.data]
  memoryBytes := .finite (1024 ^ 3)
  memoryFull := false
  metadata := []
  partitionBytes := []
  draining := draining

private def moveInput (nodes : List (NodeRegistration Exact)) (replicationFactor : Nat)
    (maxShardsPerNode : Option Nat) : AllocatorInput Exact where
  nodes := nodes
  partitionCount := 2
  replicationFactor := replicationFactor
  constraints := ⟨false, "zone", maxShardsPerNode⟩
  retainedNodeIds := []

private def nextRun (nodes : List (NodeRegistration Exact)) (replicationFactor : Nat)
    (maxShardsPerNode : Option Nat) : RunInput Exact where
  nodes := nodes
  replicationFactor := replicationFactor
  constraints := ⟨false, "zone", maxShardsPerNode⟩
  sizes := readPartitionSizes nodes "articles"
  retainedNodeIds := []

private def bothDraining : List (NodeRegistration Exact) :=
  [moveMember "A" true, moveMember "B" true, moveMember "C" false]

/-- Two partitions served by two nodes, which both begin to drain once a third one joins. -/
private def drainingActions : List (ControllerAction Exact) :=
  [.allocate (moveInput [moveMember "A" false, moveMember "B" false] 1 none), .put 0 true,
    .bootstrapComplete ⟨0, "A", 1⟩ "A" true, .put 0 true,
    .bootstrapComplete ⟨1, "B", 1⟩ "B" true, .put 0 true,
    .allocate (moveInput bothDraining 1 none), .put 0 true]

/-- Two partitions, one for each node, before either node served its copy. -/
private def unservedActions : List (ControllerAction Exact) :=
  [.allocate (moveInput [moveMember "A" false, moveMember "B" false] 0 (some 1)), .put 0 true]

theorem controller_makes_before_breaks_draining :
    ∃ s, Transition.run (controllerNext "articles" "uuid") startController drainingActions = some s ∧
      s.written.length = 4 ∧ ∀ table ∈ s.written, OneMoveTable table ∧ ∀ input : RunInput Exact,
        Chained table.assignments (input.steps table) (input.result table).assignments ∧
          ∀ step ∈ input.steps table, Lawful input step := by
  have writes : (Transition.run (controllerNext "articles" "uuid") startController
      drainingActions).map (·.written.length) = some 4 := by decide +kernel
  obtain ⟨s, reached, count⟩ := Option.map_eq_some_iff.mp writes
  exact ⟨s, reached, count, controller_makes_before_breaks "articles" "uuid" drainingActions s reached⟩

private def stepAfter (actions : List (ControllerAction Exact)) (input : RunInput Exact)
    (holds : RunStep → Bool) : Bool :=
  ((Transition.run (controllerNext "articles" "uuid") startController actions).bind (·.stored)).any
    fun table => (input.steps table).any holds

private theorem stepAfter_some {actions : List (ControllerAction Exact)} {input : RunInput Exact}
    {holds : RunStep → Bool} (found : stepAfter actions input holds = true) :
    ∃ s table, Transition.run (controllerNext "articles" "uuid") startController actions = some s ∧
      s.stored = some table ∧ ∃ step ∈ input.steps table, holds step = true := by
  rw [stepAfter, Option.any_eq_true] at found
  obtain ⟨table, reached, here⟩ := found
  obtain ⟨s, ran, stored⟩ := Option.bind_eq_some_iff.mp reached
  exact ⟨s, table, ran, stored, List.any_eq_true.mp here⟩

/-- A move leaves three replicas under a factor of one, and a partition that was never served
starts again on a node that the shard-count decider refuses. -/
theorem move_above_factor_and_restart_refused :
    (∃ s table, Transition.run (controllerNext "articles" "uuid") startController drainingActions = some s ∧
      s.stored = some table ∧
      ∃ step ∈ (nextRun (bothDraining ++ [moveMember "D" false]) 1 none).steps table,
        step.old.removingReplicas = none ∧ step.new.removingReplicas ≠ none ∧
          1 + 1 < step.new.replicas.length) ∧
    (∃ s table, Transition.run (controllerNext "articles" "uuid") startController unservedActions = some s ∧
      s.stored = some table ∧
      ∃ step ∈ (nextRun [moveMember "B" false] 0 (some 1)).steps table,
        step.old.primary = some "A" ∧ step.new.primary = some "B" ∧
          createMaxShardsDecider (some 1)
            (replicaContext (step.table step.old) step.partitionId step.old
              (nodeMapOf [moveMember "B" false])) "B" = .no) := by
  constructor
  · have found : stepAfter drainingActions (nextRun (bothDraining ++ [moveMember "D" false]) 1 none)
        (fun step => decide (step.old.removingReplicas = none ∧ step.new.removingReplicas ≠ none ∧
          1 + 1 < step.new.replicas.length)) = true := by decide +kernel
    obtain ⟨s, table, ran, stored, step, member, holds⟩ := stepAfter_some found
    exact ⟨s, table, ran, stored, step, member, of_decide_eq_true holds⟩
  · have found : stepAfter unservedActions (nextRun [moveMember "B" false] 0 (some 1))
        (fun step => decide (step.old.primary = some "A" ∧ step.new.primary = some "B" ∧
          createMaxShardsDecider (some 1)
            (replicaContext (step.table step.old) step.partitionId step.old
              (nodeMapOf [moveMember "B" false])) "B" = .no)) = true := by decide +kernel
    obtain ⟨s, table, ran, stored, step, member, holds⟩ := stepAfter_some found
    exact ⟨s, table, ran, stored, step, member, of_decide_eq_true holds⟩

end Narsil.Allocator
