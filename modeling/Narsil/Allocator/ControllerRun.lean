import Narsil.Allocator.ControllerWrites
import Narsil.Transition.Run

/-!
# Runs of the controller

One index name under one identity, from the moment the coordinator stores no
table for it. Every writer reads the stored table and later asks the coordinator
to store the table it computed, which the coordinator does only where the
version the writer read is still the stored one. In between, any other writer
may read and write.

**Strategy:** a table is `Later` than another when it may replace it. Each
writer computes a later table than the one it read, and versions grow, so a
request whose expected version is the stored one was computed from the stored
table.
-/
namespace Narsil.Allocator

/-- A table that may replace an older one of the same index. -/
structure Later (new old : AllocationTable) : Prop where
  version : old.version < new.version
  partitions : ∀ partitionId a, Assoc.lookup old.assignments partitionId = some a →
    ∃ a', Assoc.lookup new.assignments partitionId = some a' ∧
      a.primaryTerm ≤ a'.primaryTerm ∧ a.commitPoint ≤ a'.commitPoint

theorem Later.trans {a b c : AllocationTable} (h : Later b a) (h' : Later c b) : Later c a where
  version := Nat.lt_trans h.version h'.version
  partitions := by
    intro partitionId x found
    obtain ⟨y, at_y, term, commit⟩ := h.partitions partitionId x found
    obtain ⟨z, at_z, term', commit'⟩ := h'.partitions partitionId y at_y
    exact ⟨z, at_z, Nat.le_trans term term', Nat.le_trans commit commit'⟩

/-- An assignment that may replace an older one of the same partition. -/
structure Advances (old a : PartitionAssignment) : Prop where
  structured : Structured a
  term : old.primaryTerm ≤ a.primaryTerm
  commit : old.commitPoint ≤ a.commitPoint

theorem Advances.refl {a : PartitionAssignment} (h : Structured a) : Advances a a :=
  ⟨h, Nat.le_refl _, Nat.le_refl _⟩

theorem Advances.reshape {old a a' : PartitionAssignment} (h : Advances old a)
    (step : Reshapes a a') : Advances old a' where
  structured := step.structured h.structured
  term := step.term ▸ h.term
  commit := step.commit ▸ h.commit

theorem Advances.handOver {old a : PartitionAssignment} {successor leader : NodeId}
    (h : Advances old a) (may : MaySucceed a successor leader) :
    Advances old (handOverTo a successor leader) where
  structured := handOverTo_structured h.structured may
  term := Nat.le_succ_of_le h.term
  commit := h.commit

theorem Placed.advances {registered draining : List NodeId} {old a : PartitionAssignment}
    (h : Placed registered draining old a) : Advances old a :=
  ⟨h.structured, h.term, Nat.le_of_eq h.commit.symm⟩

theorem StructuredTable.of_related {old : AllocationTable} {new : AllocationTable}
    (h : StructuredTable old) (related : Assoc.Related Advances old.assignments new.assignments) :
    StructuredTable new where
  keys := related.keys ▸ h.keys
  structured := by
    intro entry member
    obtain ⟨_, _, _, pair⟩ := related.value member
    exact pair.structured

theorem Later.of_related {old new : AllocationTable} (version : new.version = old.version + 1)
    (related : Assoc.Related Advances old.assignments new.assignments) : Later new old where
  version := by omega
  partitions := by
    intro partitionId a found
    obtain ⟨a', found', pair⟩ := related.lookup found
    exact ⟨a', found', pair.term, pair.commit⟩

/-- What a writer may ask for, once it read `old`. -/
structure Follows (indexUuid : String) (old new : AllocationTable) : Prop where
  structured : StructuredTable new
  later : Later new old
  nonempty : new.assignments ≠ []
  identity : new.indexUuid = none ∨ new.indexUuid = some indexUuid

/-- A table the run stores. -/
structure Sound (indexUuid : String) (table : AllocationTable) : Prop where
  structured : StructuredTable table
  nonempty : table.assignments ≠ []
  identity : table.indexUuid = none ∨ table.indexUuid = some indexUuid

theorem Follows.sound {indexUuid : String} {old new : AllocationTable}
    (h : Follows indexUuid old new) : Sound indexUuid new :=
  ⟨h.structured, h.nonempty, h.identity⟩

theorem Sound.belongs {indexUuid : String} {table : AllocationTable}
    (h : Sound indexUuid table) : belongsToAnotherIndex table (some indexUuid) = false := by
  rcases h.identity with none | own <;> simp [belongsToAnotherIndex, *]

theorem follows_of_related {indexUuid : String} {old new written : AllocationTable}
    {metadata : Option String} (known : ∀ uuid, metadata = some uuid → uuid = indexUuid)
    (h : Sound indexUuid old) (identity : new.indexUuid = none ∨ new.indexUuid = some indexUuid)
    (version : new.version = old.version + 1)
    (related : Assoc.Related Advances old.assignments new.assignments)
    (stamped : written = stampedWith new metadata) : Follows indexUuid old written := by
  have same : written.assignments = new.assignments ∧ written.version = new.version := by
    subst stamped
    cases metadata <;> exact ⟨rfl, rfl⟩
  have related' : Assoc.Related Advances old.assignments written.assignments := same.1 ▸ related
  exact
  { structured := h.structured.of_related related'
    later := Later.of_related (same.2.trans version) related'
    nonempty := by
      intro empty
      have size := related'.length
      rw [empty] at size
      exact h.nonempty (List.eq_nil_of_length_eq_zero size)
    identity := by
      subst stamped
      cases found : metadata with
      | none => exact identity
      | some uuid => exact Or.inr (congrArg some (known uuid found)) }

section Writers
variable {indexUuid : String} {metadata : Option String} {table written : AllocationTable}

theorem withAssignment_follows (known : ∀ uuid, metadata = some uuid → uuid = indexUuid)
    (h : Sound indexUuid table) {partitionId : Int} {a a' : PartitionAssignment}
    (found : assignmentOf table partitionId = some a) (advances : Advances a a')
    (result : withAssignment metadata table partitionId a' = some written) :
    Follows indexUuid table written := by
  rw [assignmentOf] at found
  split at found
  · simp at found
  · rw [withAssignment, rewriteForCurrentIndex] at result
    split at result
    · simp at result
    · rw [Option.some.injEq] at result
      refine follows_of_related known h ?_ ?_ ?_ result.symm
      · exact h.identity
      · rfl
      · exact Assoc.Related.set
          (fun x member => Advances.refl (h.structured.structured x member)) found advances

theorem assignmentOf_structured (h : Sound indexUuid table) {partitionId : Int}
    {a : PartitionAssignment} (found : assignmentOf table partitionId = some a) :
    Structured a := by
  rw [assignmentOf] at found
  split at found
  · simp at found
  · exact h.structured.structured _ (Assoc.mem_of_lookup found)

theorem decideInsyncRemoval_advances {payload : InsyncRemovePayload} {a a' : PartitionAssignment}
    (h : Structured a) (decided : decideInsyncRemoval payload a = .write a') :
    Advances a a' := by
  rw [decideInsyncRemoval] at decided
  split at decided
  · simp at decided
  · split at decided
    · simp at decided
    · injection decided with same
      subst same
      apply (Advances.refl h).reshape
      have removing := h.removing_spec
      exact reshapes_drop (List.Sublist.refl _) List.filter_sublist
        (fun h n member => h.inSync_held n (List.mem_filter.mp member).1) (fun _ => removing)

theorem decideInsyncAdmission_advances {payload : InsyncAddPayload} {a a' : PartitionAssignment}
    (h : Structured a) (decided : decideInsyncAdmission payload a = .write a') :
    Advances a a' := by
  rw [decideInsyncAdmission] at decided
  split at decided
  · simp at decided
  · next active =>
    rw [not_not] at active
    split at decided
    · simp at decided
    · next held =>
      rw [not_not] at held
      split at decided
      · simp at decided
      · simp only at decided
        split at decided
        · simp at decided
        · injection decided with same
          subst same
          exact
          { structured :=
              { h with
                inSync_nodup := by
                  dsimp only
                  split
                  · exact h.inSync_nodup
                  · next fresh =>
                    rw [List.nodup_append]
                    refine ⟨h.inSync_nodup, by simp, ?_⟩
                    intro n old m added same
                    rw [List.mem_singleton] at added
                    exact fresh (added ▸ same ▸ old)
                inSync_held := by
                  dsimp only
                  split
                  · exact h.inSync_held
                  · intro n member
                    rcases List.mem_append.mp member with old | added
                    · exact h.inSync_held n old
                    · rw [List.mem_singleton] at added
                      exact added ▸ held
                unserved := by simp [active] }
            term := Nat.le_refl _
            commit := Nat.le_max_left _ _ }

theorem updateInsyncSet_follows (known : ∀ uuid, metadata = some uuid → uuid = indexUuid)
    (h : Sound indexUuid table) {partitionId primaryTerm : Int}
    {decide : PartitionAssignment → AssignmentDecision}
    (advances : ∀ a a', Structured a → decide a = .write a' → Advances a a')
    (result : updateInsyncSet metadata table partitionId primaryTerm decide = some written) :
    Follows indexUuid table written := by
  rw [updateInsyncSet] at result
  split at result
  · simp at result
  · next a found =>
    split at result
    · simp at result
    · split at result
      · simp at result
      · simp at result
      · next a' decided =>
        exact withAssignment_follows known h found
          (advances a a' (assignmentOf_structured h found) decided) result

theorem served_advances {a : PartitionAssignment} (h : Structured a) (led : a.primary ≠ none) :
    Advances a (served a) where
  structured := { h with
    unassigned_iff := by simp [served, led]
    unserved := by simp [served] }
  term := Nat.le_refl _
  commit := Nat.le_refl _

theorem handleBootstrapComplete_follows
    (known : ∀ uuid, metadata = some uuid → uuid = indexUuid) (h : Sound indexUuid table)
    {sourceId : NodeId} {payload : BootstrapCompletePayload}
    (result : handleBootstrapCompleteMessage metadata sourceId table payload = some written) :
    Follows indexUuid table written := by
  rw [handleBootstrapCompleteMessage] at result
  split at result
  · simp at result
  · rw [processBootstrapComplete] at result
    split at result
    · simp at result
    · next a found =>
      split at result
      · simp at result
      · split at result
        · simp at result
        · next led =>
          rw [not_not] at led
          split at result
          · simp at result
          · exact withAssignment_follows known h found
              (served_advances (assignmentOf_structured h found) (by simp [led])) result

theorem promoteAssignment_advances {a : PartitionAssignment} (h : Structured a)
    (unserved : a.state = .unassigned) (nodeId : NodeId) :
    Advances a (promoteAssignment a nodeId) where
  structured :=
    { primary_apart := by simp [promoteAssignment]
      replicas_nodup := List.nodup_nil
      inSync_nodup := List.nodup_nil
      inSync_held := by simp [promoteAssignment]
      removing_nonempty := h.removing_nonempty
      removing_held := by
        intro removing listed
        have quiet := h.removing_none_of_unassigned unserved
        simp [promoteAssignment, quiet] at listed
      unassigned_iff := by simp [promoteAssignment]
      unserved := by simp [promoteAssignment] }
  term := Nat.le_succ _
  commit := Nat.le_refl _

theorem recoveryOutcome_advances {liveNodeIds : List NodeId}
    {answers : List (NodeId × StoresAnswer)} {entry : Nat × PartitionAssignment}
    (h : Structured entry.2) :
    Advances entry.2 ((recoveryOutcome liveNodeIds answers entry).getD entry.2) := by
  rw [recoveryOutcome]
  split
  · exact Advances.refl h
  · next unserved =>
    rw [not_not] at unserved
    rw [rewriteAssignment]
    split
    · exact promoteAssignment_advances h unserved _
    · simp only
      split
      · exact Advances.refl h
      · exact ⟨{ h with }, Nat.le_refl _, Nat.le_refl _⟩

theorem writeRecoveryOutcome_follows
    (known : ∀ uuid, metadata = some uuid → uuid = indexUuid) (h : Sound indexUuid table)
    {liveNodeIds : List NodeId} {answers : List (NodeId × StoresAnswer)}
    (result : writeRecoveryOutcome metadata table liveNodeIds answers = some written) :
    Follows indexUuid table written := by
  rw [writeRecoveryOutcome] at result
  split at result
  · simp at result
  · rw [rewriteForCurrentIndex] at result
    split at result
    · simp at result
    · rw [Option.some.injEq] at result
      refine follows_of_related known h ?_ ?_ ?_ result.symm
      · exact h.identity
      · rfl
      · have every := h.structured.structured
        simp only
        generalize table.assignments = entries at every
        induction entries with
        | nil => exact .nil
        | cons entry rest ih =>
          apply List.Forall₂.cons
          · exact ⟨rfl, recoveryOutcome_advances (every entry (by simp))⟩
          · exact ih fun later member => every later (by simp [member])

end Writers

section Allocation
variable {ν : Type} [Number ν] {indexUuid : String}

theorem rebalanceAllocate_advances (nodes : List (NodeRegistration ν)) {table : AllocationTable}
    (h : StructuredTable table) (replicationFactor : Nat) {deciders : List (Decider ν)}
    (chain : colocationDecider ∈ deciders) (retainedNodeIds : List NodeId) :
    Assoc.Related Advances table.assignments
      (rebalanceAllocate nodes table replicationFactor deciders
        retainedNodeIds).table.assignments := by
  have placed : Assoc.Related Advances table.assignments
      (placedCopies nodes table replicationFactor deciders retainedNodeIds) :=
    (placeCopies_placed nodes h.structured replicationFactor chain retainedNodeIds).imp
      fun _ _ p => p.advances
  have led := rebalanceLeadership_related placed (fun _ _ _ _ h may => h.handOver may)
    (capacityShares (sortById nodes)) (drainingIds nodes)
  rw [rebalanceAllocate_assignments]
  exact clearedUp_related led fun _ _ _ h step => h.reshape step

theorem initialAssignment_structured (primary : NodeId) :
    Structured (initialAssignment primary) := by
  constructor <;> simp [initialAssignment]

theorem initialReplicas_structured (sortedNodes : List (NodeRegistration ν))
    {deciders : List (Decider ν)} (chain : colocationDecider ∈ deciders)
    (assignments : Assignments) (partitionId slots : Nat) {a : PartitionAssignment}
    (h : Structured a) (led : a.primary ≠ none) :
    Structured (initialReplicas sortedNodes deciders assignments partitionId slots a) := by
  induction slots generalizing a with
  | zero => exact h
  | succ slots ih =>
    simp only [initialReplicas]
    split
    · exact h
    · next target placed =>
      have apart := findBestNode_apart chain placed
      have added : Reshapes a { a with replicas := a.replicas ++ [target] } :=
        reshapes_add led apart.2.1 apart.2.2 Structured.removing_spec
      exact ih (added.structured h) led

theorem initialPartitions_spec (sortedNodes : List (NodeRegistration ν))
    {deciders : List (Decider ν)} (chain : colocationDecider ∈ deciders) (replicationFactor : Nat)
    {remaining : Nat} {before after : Assignments}
    (result : initialPartitions sortedNodes deciders replicationFactor remaining before = .ok after)
    (keys : before.map Prod.fst = List.range before.length)
    (structured : ∀ entry ∈ before, Structured entry.2) :
    after.map Prod.fst = List.range after.length ∧ (∀ entry ∈ after, Structured entry.2) ∧
      after.length = before.length + remaining := by
  induction remaining generalizing before with
  | zero =>
    simp only [initialPartitions, Except.ok.injEq] at result
    subst result
    exact ⟨keys, structured, rfl⟩
  | succ remaining ih =>
    simp only [initialPartitions] at result
    split at result
    · simp at result
    · next primary _ =>
      obtain ⟨keys', structured', size⟩ := ih result
        (by simp [keys, List.range_succ]) (by
          intro entry member
          rcases List.mem_append.mp member with old | added
          · exact structured entry old
          · rw [List.mem_singleton] at added
            subst added
            exact initialReplicas_structured sortedNodes chain _ _ _
              (initialAssignment_structured primary) (by simp [initialAssignment]))
      refine ⟨keys', structured', ?_⟩
      rw [size, List.length_append, List.length_singleton]
      omega

theorem initialAllocate_spec {nodes : List (NodeRegistration ν)} {indexName : String}
    {partitionCount replicationFactor : Nat} {deciders : List (Decider ν)}
    (chain : colocationDecider ∈ deciders) {allocated : AllocationResult}
    (result : initialAllocate nodes indexName partitionCount replicationFactor deciders =
      .ok allocated) :
    StructuredTable allocated.table ∧ allocated.table.version = 1 ∧
      allocated.table.assignments.length = partitionCount := by
  rw [initialAllocate] at result
  cases placed : initialPartitions (sortById nodes) deciders replicationFactor partitionCount [] with
  | error e => simp [placed, bind, Except.bind] at result
  | ok assignments =>
    simp only [placed, bind, Except.bind, pure, Except.pure, Except.ok.injEq] at result
    subst result
    obtain ⟨keys, structured, size⟩ := initialPartitions_spec _ chain _ placed rfl (by simp)
    refine ⟨⟨?_, structured⟩, rfl, by simpa using size⟩
    rw [keys]
    exact List.nodup_range

theorem allocate_first {nodes : List (NodeRegistration ν)} {indexName : String}
    {partitionCount replicationFactor : Int} {constraints : AllocationConstraints}
    {retainedNodeIds : List NodeId} {allocated : AllocationResult}
    (result : allocate nodes none indexName partitionCount replicationFactor constraints
      retainedNodeIds = .ok allocated) :
    StructuredTable allocated.table ∧ allocated.table.assignments ≠ [] := by
  rw [allocate] at result
  split at result
  · simp at result
  · next some_partition =>
    split at result
    · simp at result
    · simp only at result
      split at result
      · simp at result
      · obtain ⟨structured, _, size⟩ :=
          initialAllocate_spec (colocationDecider_mem constraints _) result
        refine ⟨structured, ?_⟩
        intro empty
        rw [empty, List.length_nil] at size
        omega

theorem allocate_again {nodes : List (NodeRegistration ν)} {table : AllocationTable}
    {indexName : String} {partitionCount replicationFactor : Int}
    {constraints : AllocationConstraints} {retainedNodeIds : List NodeId}
    {allocated : AllocationResult} (h : StructuredTable table)
    (result : allocate nodes (some table) indexName partitionCount replicationFactor constraints
      retainedNodeIds = .ok allocated) :
    allocated.table.version = table.version + 1 ∧ allocated.table.indexUuid = none ∧
      Assoc.Related Advances table.assignments allocated.table.assignments := by
  rw [allocate] at result
  split at result
  · simp at result
  · split at result
    · simp at result
    · simp only at result
      split at result
      · simp at result
      · simp only [Except.ok.injEq] at result
        subst result
        exact ⟨rfl, rfl, rebalanceAllocate_advances _ h _ (colocationDecider_mem constraints _) _⟩

end Allocation

/-- A table a writer computed, with the version it read. -/
structure PendingWrite where
  expectedVersion : Option Nat
  table : AllocationTable

structure ControllerState where
  /-- The tables the coordinator stored, the newest first. -/
  written : List AllocationTable
  pending : List PendingWrite

def ControllerState.stored (s : ControllerState) : Option AllocationTable := s.written.head?

/-- Where the writers read; `metadata` tells whether the index metadata was found. -/
inductive ControllerAction (ν : Type)
  | allocate (input : AllocatorInput ν)
  | schemaCreated (input : AllocatorInput ν)
  | insyncRemoval (payload : InsyncRemovePayload) (metadata : Bool)
  | insyncAdmission (payload : InsyncAddPayload) (registered : List NodeId) (metadata : Bool)
  | bootstrapComplete (payload : BootstrapCompletePayload) (sourceId : NodeId) (metadata : Bool)
  | recover (liveNodeIds : List NodeId) (answers : List (NodeId × StoresAnswer)) (metadata : Bool)
  | put (index : Nat) (leaseHeld : Bool)

/-- `putAllocation` with an expected version. -/
def putAllocation (s : ControllerState) (write : PendingWrite) (leaseHeld : Bool) :
    List AllocationTable :=
  if leaseHeld ∧ s.stored.map (·.version) = write.expectedVersion then write.table :: s.written
  else s.written

section Run
variable {ν : Type} [Number ν] (indexName indexUuid : String)

/-- The table a writer asks for, from the table it reads. -/
def requested (stored : Option AllocationTable) : ControllerAction ν → Option AllocationTable
  | .allocate input => runAllocatorForIndex indexName indexUuid input stored
  | .schemaCreated input => handleSchemaCreated indexName indexUuid input stored
  | .insyncRemoval payload metadata => stored.bind fun table =>
      handleInsyncRemoval (if metadata then some indexUuid else none) table payload
  | .insyncAdmission payload registered metadata => stored.bind fun table =>
      handleInsyncAdmission (if metadata then some indexUuid else none) registered table payload
  | .bootstrapComplete payload sourceId metadata => stored.bind fun table =>
      handleBootstrapCompleteMessage (if metadata then some indexUuid else none) sourceId table
        payload
  | .recover liveNodeIds answers metadata => stored.bind fun table =>
      writeRecoveryOutcome (if metadata then some indexUuid else none) table liveNodeIds answers
  | .put _ _ => none

def controllerNext (s : ControllerState) (action : ControllerAction ν) : Option ControllerState :=
  match action with
  | .put index leaseHeld =>
    match s.pending[index]? with
    | none => none
    | some write =>
      some { written := putAllocation s write leaseHeld, pending := s.pending.eraseIdx index }
  | reading =>
    match requested indexName indexUuid s.stored reading with
    | none => some s
    | some table =>
      some { s with pending := s.pending ++ [⟨s.stored.map (·.version), table⟩] }

def startController : ControllerState where
  written := []
  pending := []

/-- A request still in flight, against the tables stored so far. -/
def PendingSound (written : List AllocationTable) (write : PendingWrite) : Prop :=
  Sound indexUuid write.table ∧
    match write.expectedVersion with
    | none => True
    | some version => ∃ table, written.head? = some table ∧ version ≤ table.version ∧
        (version = table.version → Later write.table table)

structure ControllerInv (s : ControllerState) : Prop where
  sound : ∀ table ∈ s.written, Sound indexUuid table
  order : s.written.Pairwise Later
  pending : ∀ write ∈ s.pending, PendingSound indexUuid s.written write

variable {indexName indexUuid}

theorem requested_sound {s : ControllerState} (inv : ControllerInv indexUuid s)
    {action : ControllerAction ν} {table : AllocationTable}
    (asked : requested indexName indexUuid s.stored action = some table) :
    PendingSound indexUuid s.written ⟨s.stored.map (·.version), table⟩ := by
  have sound : ∀ t, s.stored = some t → Sound indexUuid t := fun t at_t =>
    inv.sound t (List.mem_of_head? at_t)
  have known : ∀ (metadata : Bool) (uuid : String),
      (if metadata then some indexUuid else none) = some uuid → uuid = indexUuid := by
    intro metadata uuid found
    cases metadata <;> simp_all
  have from_follows : ∀ t, s.stored = some t → Follows indexUuid t table →
      PendingSound indexUuid s.written ⟨s.stored.map (·.version), table⟩ := by
    intro t at_t follows
    refine ⟨follows.sound, ?_⟩
    rw [at_t]
    exact ⟨t, at_t, Nat.le_refl _, fun _ => follows.later⟩
  have from_single : ∀ f : AllocationTable → Option AllocationTable, s.stored.bind f = some table →
      (∀ t, Sound indexUuid t → f t = some table → Follows indexUuid t table) →
      PendingSound indexUuid s.written ⟨s.stored.map (·.version), table⟩ := by
    intro f bound follows
    obtain ⟨t, at_t, result⟩ := Option.bind_eq_some_iff.mp bound
    exact from_follows t at_t (follows t (sound t at_t) result)
  have from_allocator : ∀ (input : AllocatorInput ν) (retained : List NodeId)
      (allocated : AllocationResult),
      allocate input.nodes s.stored indexName input.partitionCount input.replicationFactor
        input.constraints retained = .ok allocated →
      table = stampedWith allocated.table (some indexUuid) →
      PendingSound indexUuid s.written ⟨s.stored.map (·.version), table⟩ := by
    intro input retained allocated result same
    cases at_t : s.stored with
    | none =>
      rw [at_t] at result
      obtain ⟨structured, nonempty⟩ := allocate_first result
      subst same
      exact ⟨⟨⟨structured.keys, structured.structured⟩, nonempty, Or.inr rfl⟩, trivial⟩
    | some t =>
      rw [at_t] at result
      have h := sound t at_t
      obtain ⟨version, unstamped, related⟩ := allocate_again h.structured result
      have follows := from_follows t at_t
        (follows_of_related (fun uuid found => (Option.some.inj found).symm) h (Or.inl unstamped)
          version related same)
      rwa [at_t] at follows
  cases action with
  | allocate input =>
    have own : (s.stored.filter fun table => !belongsToAnotherIndex table (some indexUuid)) =
        s.stored := by
      cases at_t : s.stored with
      | none => rfl
      | some t => simp [(sound t at_t).belongs]
    simp only [requested, runAllocatorForIndex, own] at asked
    split at asked
    · next allocated result =>
      rw [Option.some.injEq] at asked
      exact from_allocator input _ allocated result asked.symm
    · simp at asked
  | schemaCreated input =>
    have own : (s.stored.filter fun table => !belongsToAnotherIndex table (some indexUuid)
        && table.assignments.length ≠ 0) = s.stored := by
      cases at_t : s.stored with
      | none => rfl
      | some t => simp [(sound t at_t).belongs, (sound t at_t).nonempty]
    simp only [requested, handleSchemaCreated, own] at asked
    split at asked
    · next allocated result =>
      rw [Option.some.injEq] at asked
      exact from_allocator input _ allocated result asked.symm
    · simp at asked
  | insyncRemoval payload metadata =>
    apply from_single _ asked
    intro t h result
    exact updateInsyncSet_follows (known metadata) h
      (fun _ _ => decideInsyncRemoval_advances) result
  | insyncAdmission payload registered metadata =>
    apply from_single _ asked
    intro t h result
    rw [handleInsyncAdmission] at result
    split at result
    · simp at result
    · exact updateInsyncSet_follows (known metadata) h
        (fun _ _ => decideInsyncAdmission_advances) result
  | bootstrapComplete payload sourceId metadata =>
    apply from_single _ asked
    intro t h result
    exact handleBootstrapComplete_follows (known metadata) h result
  | recover liveNodeIds answers metadata =>
    apply from_single _ asked
    intro t h result
    exact writeRecoveryOutcome_follows (known metadata) h result
  | put index leaseHeld => simp [requested] at asked

theorem ControllerInv.reads {s : ControllerState} (inv : ControllerInv indexUuid s)
    {table : AllocationTable}
    (sound : PendingSound indexUuid s.written ⟨s.stored.map (·.version), table⟩) :
    ControllerInv indexUuid
      { s with pending := s.pending ++ [⟨s.stored.map (·.version), table⟩] } where
  sound := inv.sound
  order := inv.order
  pending := by
    intro write member
    rcases List.mem_append.mp member with old | added
    · exact inv.pending write old
    · rw [List.mem_singleton] at added
      exact added ▸ sound

theorem ControllerInv.puts {s : ControllerState} (inv : ControllerInv indexUuid s)
    {index : Nat} {write : PendingWrite} (asked : s.pending[index]? = some write)
    (leaseHeld : Bool) :
    ControllerInv indexUuid
      { written := putAllocation s write leaseHeld, pending := s.pending.eraseIdx index } := by
  have left : ∀ other ∈ s.pending.eraseIdx index, PendingSound indexUuid s.written other :=
    fun other member => inv.pending other (List.mem_of_mem_eraseIdx member)
  obtain ⟨sound, request⟩ := inv.pending write (List.mem_of_getElem? asked)
  by_cases granted : leaseHeld ∧ s.stored.map (·.version) = write.expectedVersion
  · simp only [putAllocation, if_pos granted]
    have newest : ∀ table, s.written.head? = some table → Later write.table table := by
      intro table at_table
      have version : write.expectedVersion = some table.version := by
        rw [← granted.2, ControllerState.stored, at_table]
        rfl
      rw [version] at request
      obtain ⟨table', at_table', _, later⟩ := request
      rw [at_table, Option.some.injEq] at at_table'
      subst at_table'
      exact later rfl
    have later : ∀ table ∈ s.written, Later write.table table := by
      intro table member
      have order := inv.order
      cases written : s.written with
      | nil => simp [written] at member
      | cons first rest =>
        rw [written] at newest member order
        have top := newest first rfl
        rcases List.mem_cons.mp member with rfl | older
        · exact top
        · exact Later.trans ((List.pairwise_cons.mp order).1 table older) top
    exact
    { sound := by
        intro table member
        rcases List.mem_cons.mp member with rfl | old
        · exact sound
        · exact inv.sound table old
      order := List.pairwise_cons.mpr ⟨later, inv.order⟩
      pending := by
        intro other member
        obtain ⟨sound', request'⟩ := left other member
        refine ⟨sound', ?_⟩
        cases expected : other.expectedVersion with
        | none => trivial
        | some version =>
          rw [expected] at request'
          obtain ⟨table, at_table, bound, _⟩ := request'
          have grows := (newest table at_table).version
          exact ⟨write.table, rfl, by omega, fun same => by omega⟩ }
  · simp only [putAllocation, if_neg granted]
    exact ⟨inv.sound, inv.order, left⟩

theorem controllerNext_inv {s s' : ControllerState} {action : ControllerAction ν}
    (inv : ControllerInv indexUuid s)
    (step : controllerNext indexName indexUuid s action = some s') :
    ControllerInv indexUuid s' := by
  have reading : (match requested indexName indexUuid s.stored action with
      | none => some s
      | some table =>
        some { s with pending := s.pending ++ [⟨s.stored.map (·.version), table⟩] }) = some s' →
      ControllerInv indexUuid s' := by
    intro result
    split at result
    · rw [Option.some.injEq] at result
      exact result ▸ inv
    · next table asked =>
      rw [Option.some.injEq] at result
      exact result ▸ inv.reads (requested_sound inv asked)
  cases action with
  | put index leaseHeld =>
    rw [controllerNext] at step
    split at step
    · simp at step
    · next write asked =>
      rw [Option.some.injEq] at step
      exact step ▸ inv.puts asked leaseHeld
  | _ => exact reading step

theorem startController_inv : ControllerInv indexUuid startController where
  sound := by simp [startController]
  order := List.Pairwise.nil
  pending := by simp [startController]

/-- In every run of the controller's writers, every table stored is well
structured, and each one replaced an older version whose terms and commit
points it does not lower. -/
theorem controller_keeps_table_invariant (indexName indexUuid : String)
    (actions : List (ControllerAction ν)) (s : ControllerState)
    (reached : Transition.run (controllerNext indexName indexUuid) startController actions =
      some s) :
    (∀ table ∈ s.written, StructuredTable table) ∧ s.written.Pairwise Later := by
  have inv : ControllerInv indexUuid s :=
    Transition.run_invariant (controllerNext indexName indexUuid) (ControllerInv indexUuid)
      (fun _ _ _ inv step => controllerNext_inv inv step) actions startController s
      startController_inv reached
  exact ⟨fun table member => (inv.sound table member).structured, inv.order⟩

end Run

private def sampleInput (nodes : List (NodeRegistration Exact)) : AllocatorInput Exact where
  nodes := nodes
  partitionCount := 1
  replicationFactor := 1
  constraints := ⟨false, "zone", none⟩
  retainedNodeIds := []

private def sampleMember (nodeId : NodeId) : NodeRegistration Exact where
  nodeId := nodeId
  roles := [.data]
  memoryBytes := .finite (1024 ^ 3)
  memoryFull := false
  metadata := []
  partitionBytes := []
  draining := false

/-- A table allocated, served, lost with its nodes and given back to a holder. -/
private def sampleActions : List (ControllerAction Exact) :=
  [.allocate (sampleInput [sampleMember "A", sampleMember "B"]), .put 0 true,
    .bootstrapComplete ⟨0, "A", 1⟩ "A" true, .put 0 true,
    .insyncAdmission ⟨⟨0, "B", 1⟩, 5, 5⟩ ["A", "B"] true,
    .insyncRemoval ⟨0, "B", 1⟩ true, .put 0 true,
    .allocate (sampleInput [sampleMember "C"]), .put 0 true,
    .recover ["A"] [("A", .held [0])] true, .put 0 true]

theorem controller_keeps_table_invariant_sample :
    ∃ s, Transition.run (controllerNext "articles" "uuid") startController sampleActions = some s ∧
      s.written.length = 5 ∧
      (∀ table ∈ s.written, StructuredTable table) ∧ s.written.Pairwise Later := by
  have writes : (Transition.run (controllerNext "articles" "uuid") startController
      sampleActions).map (·.written.length) = some 5 := by decide +kernel
  obtain ⟨s, reached, count⟩ := Option.map_eq_some_iff.mp writes
  exact ⟨s, reached, count,
    controller_keeps_table_invariant "articles" "uuid" sampleActions s reached⟩

end Narsil.Allocator
