import Mathlib.Data.List.Pairwise
import Narsil.Distribution.CopyFailover

/-!
# What a query reports of its partitions

A query that fans out several times counts each partition once, by the worst of its results.
Since each fan-out reports each routed partition in one outcome, the counts add up to the
partitions that were routed and those that no copy serves.
-/
namespace Narsil.Distribution
open Narsil.Allocator (NodeId AllocationTable)

/-- `buildCoverage` over the outcomes of any number of fan-outs. -/
def buildCoverageOfAll (totalPartitions : Nat) (unavailablePartitions : List Nat)
    (outcomeSets : List (List NodeQueryOutcome)) : QueryCoverage :=
  let worst := (outcomeSets.foldl (fun worst outcomes =>
    outcomes.foldl (fun worst outcome => outcome.partitionIds.foldl (noteWorst · outcome.status ·) worst) worst)
    (unavailablePartitions.foldl (Assoc.set · · .failed) [])).map Prod.snd
  { totalPartitions
    queriedPartitions := worst.countP (· = .success)
    timedOutPartitions := worst.countP (· = .timeout)
    failedPartitions := worst.countP (· = .failed) }

theorem buildCoverageOfAll_eq (totalPartitions : Nat) (unavailablePartitions : List Nat)
    (outcomeSets : List (List NodeQueryOutcome)) :
    buildCoverageOfAll totalPartitions unavailablePartitions outcomeSets =
      buildCoverage totalPartitions unavailablePartitions outcomeSets.flatten := by
  rw [buildCoverageOfAll, buildCoverage, worstByPartition, List.foldl_flatten]

def queryOutcome (outcome : FailoverOutcome (List PartitionSearchResult)) : NodeQueryOutcome :=
  ⟨outcome.nodeId, outcome.partitionIds, outcome.status, outcome.result⟩

def worseOf (soFar : Option OutcomeStatus) (status : OutcomeStatus) : OutcomeStatus :=
  match soFar with
  | none => status
  | some soFar => if outcomeSeverity soFar < outcomeSeverity status then status else soFar

/-- The results that the outcomes report of a partition. -/
def resultsOf (outcomes : List NodeQueryOutcome) (partitionId : Nat) : List OutcomeStatus :=
  (outcomes.filter fun outcome => partitionId ∈ outcome.partitionIds).map NodeQueryOutcome.status

def worstOf (soFar : Option OutcomeStatus) (results : List OutcomeStatus) : Option OutcomeStatus :=
  results.foldl (fun soFar status => some (worseOf soFar status)) soFar

theorem worseOf_again (soFar : Option OutcomeStatus) (status : OutcomeStatus) :
    worseOf (some (worseOf soFar status)) status = worseOf soFar status := by
  cases soFar with
  | none => simp [worseOf]
  | some soFar =>
    simp only [worseOf]
    split
    · simp
    · rfl

theorem worseOf_failed (status : OutcomeStatus) : worseOf (some .failed) status = .failed := by
  cases status <;> rfl

section Worst
variable {worst : List (Nat × OutcomeStatus)} {status : OutcomeStatus} {ids : List Nat}

theorem lookup_noteWorst (worst : List (Nat × OutcomeStatus)) (status : OutcomeStatus) (noted partitionId : Nat) :
    Assoc.lookup (noteWorst worst status noted) partitionId =
      if partitionId = noted then some (worseOf (Assoc.lookup worst partitionId) status)
      else Assoc.lookup worst partitionId := by
  rw [noteWorst]
  by_cases same : partitionId = noted
  · subst same
    rw [if_pos rfl]
    cases before : Assoc.lookup worst partitionId with
    | none => simp [Assoc.lookup_set, worseOf]
    | some soFar =>
      simp only [worseOf]
      split
      · rw [Assoc.lookup_set, if_pos rfl]
      · exact before
  · rw [if_neg same]
    split
    · rw [Assoc.lookup_set, if_neg same]
    · split
      · rw [Assoc.lookup_set, if_neg same]
      · rfl

theorem noteWorst_distinct (distinct : (worst.map Prod.fst).Nodup) (noted : Nat) :
    ((noteWorst worst status noted).map Prod.fst).Nodup := by
  rw [noteWorst]
  split
  · exact Assoc.set_distinct distinct _ _
  · split
    · exact Assoc.set_distinct distinct _ _
    · exact distinct

theorem lookup_noteAll (worst : List (Nat × OutcomeStatus)) (status : OutcomeStatus) (ids : List Nat)
    (partitionId : Nat) :
    Assoc.lookup (ids.foldl (noteWorst · status ·) worst) partitionId =
      if partitionId ∈ ids then some (worseOf (Assoc.lookup worst partitionId) status)
      else Assoc.lookup worst partitionId := by
  induction ids generalizing worst with
  | nil => simp
  | cons noted rest ih =>
    rw [List.foldl_cons, ih, lookup_noteWorst]
    by_cases same : partitionId = noted
    · simp [same, worseOf_again]
    · simp [same]

theorem noteAll_distinct (distinct : (worst.map Prod.fst).Nodup) (status : OutcomeStatus) (ids : List Nat) :
    ((ids.foldl (noteWorst · status ·) worst).map Prod.fst).Nodup := by
  induction ids generalizing worst with
  | nil => exact distinct
  | cons noted rest ih => exact ih (noteWorst_distinct distinct noted)

theorem lookup_unavailable (unavailable : List Nat) (worst : List (Nat × OutcomeStatus)) (partitionId : Nat) :
    Assoc.lookup (unavailable.foldl (Assoc.set · · .failed) worst) partitionId =
      if partitionId ∈ unavailable then some .failed else Assoc.lookup worst partitionId := by
  induction unavailable generalizing worst with
  | nil => simp
  | cons first rest ih =>
    rw [List.foldl_cons, ih, Assoc.lookup_set]
    by_cases same : partitionId = first <;> simp [same]

theorem unavailable_distinct (unavailable : List Nat) (distinct : (worst.map Prod.fst).Nodup) :
    ((unavailable.foldl (Assoc.set · · .failed) worst).map Prod.fst).Nodup := by
  induction unavailable generalizing worst with
  | nil => exact distinct
  | cons first rest ih => exact ih (Assoc.set_distinct distinct _ _)

theorem worstByPartition_spec (unavailable : List Nat) (outcomes : List NodeQueryOutcome) :
    ((worstByPartition unavailable outcomes).map Prod.fst).Nodup ∧
      ∀ partitionId, Assoc.lookup (worstByPartition unavailable outcomes) partitionId =
        worstOf (if partitionId ∈ unavailable then some .failed else none) (resultsOf outcomes partitionId) := by
  rw [worstByPartition]
  suffices run : ∀ (outcomes : List NodeQueryOutcome) (worst : List (Nat × OutcomeStatus)),
      (worst.map Prod.fst).Nodup →
      ((outcomes.foldl (fun worst outcome => outcome.partitionIds.foldl (noteWorst · outcome.status ·) worst)
          worst).map Prod.fst).Nodup ∧
        ∀ partitionId, Assoc.lookup (outcomes.foldl (fun worst outcome =>
          outcome.partitionIds.foldl (noteWorst · outcome.status ·) worst) worst) partitionId =
            worstOf (Assoc.lookup worst partitionId) (resultsOf outcomes partitionId) by
    obtain ⟨distinct, lookups⟩ := run outcomes _ (@unavailable_distinct [] unavailable List.nodup_nil)
    refine ⟨distinct, fun partitionId => ?_⟩
    rw [lookups, lookup_unavailable]
    rfl
  intro outcomes
  induction outcomes with
  | nil => exact fun worst distinct => ⟨distinct, fun _ => rfl⟩
  | cons outcome rest ih =>
    intro worst distinct
    obtain ⟨rest_distinct, lookups⟩ := ih _ (noteAll_distinct distinct outcome.status outcome.partitionIds)
    refine ⟨rest_distinct, fun partitionId => ?_⟩
    rw [List.foldl_cons, lookups, lookup_noteAll]
    by_cases reported : partitionId ∈ outcome.partitionIds
    · have counted : resultsOf (outcome :: rest) partitionId = outcome.status :: resultsOf rest partitionId := by
        simp [resultsOf, reported]
      rw [if_pos reported, counted]
      rfl
    · have skipped : resultsOf (outcome :: rest) partitionId = resultsOf rest partitionId := by
        simp [resultsOf, reported]
      rw [if_neg reported, skipped]

end Worst

theorem worstOf_isSome (soFar : Option OutcomeStatus) (results : List OutcomeStatus) :
    (worstOf soFar results).isSome = true ↔ soFar.isSome = true ∨ results ≠ [] := by
  cases results with
  | nil => simp [worstOf]
  | cons status rest =>
    have kept : ∀ (results : List OutcomeStatus) (soFar : OutcomeStatus), (worstOf (some soFar) results).isSome = true := by
      intro results
      induction results with
      | nil => exact fun _ => rfl
      | cons status rest ih => exact fun soFar => ih (worseOf (some soFar) status)
    exact iff_of_true (kept rest (worseOf soFar status)) (.inr (List.cons_ne_nil status rest))

theorem worstOf_failed (results : List OutcomeStatus) : worstOf (some .failed) results = some .failed := by
  induction results with
  | nil => rfl
  | cons status rest ih =>
    rw [worstOf, List.foldl_cons, worseOf_failed]
    exact ih

theorem countP_values {entries : List (Nat × OutcomeStatus)} (distinct : (entries.map Prod.fst).Nodup)
    (status : OutcomeStatus) :
    (entries.map Prod.snd).countP (· = status) =
      (entries.map Prod.fst).countP fun partitionId => Assoc.lookup entries partitionId = some status := by
  rw [List.countP_map, List.countP_map]
  apply List.countP_congr
  intro entry member
  have found := Assoc.lookup_of_mem distinct member
  simp [found]

theorem statuses_add_up (statuses : List OutcomeStatus) :
    statuses.countP (· = .success) + statuses.countP (· = .timeout) + statuses.countP (· = .failed) =
      statuses.length := by
  induction statuses with
  | nil => rfl
  | cons status rest ih =>
    cases status <;> simp only [List.countP_cons, List.length_cons, reduceCtorEq, decide_false, decide_true,
      Bool.false_eq_true, if_false, if_true] <;> omega

section Reports
variable {T : Type} {routing : PartitionRouting} {attempt : NodeId → List Nat → Except SendError (Option T)}
variable {sending : Sending T}

theorem Accounts.answered {ids : List Nat} {copies : Nat → List NodeId}
    (accounts : Accounts attempt ids copies sending) (once : ids.Nodup) {partitionId : Nat} (member : partitionId ∈ ids)
    {outcome : FailoverOutcome T} (listed : outcome ∈ sending.outcomes) (inside : partitionId ∈ outcome.partitionIds) :
    outcome.status = .success ↔ ∃ message ∈ messagesFor partitionId sending.sent, message.nodeId = outcome.nodeId ∧
      ∃ result, attempt message.nodeId message.partitionIds = .ok (some result) := by
  obtain ⟨earlier, last, left, messages, _, passed, _, reported, reported_listed, reported_inside, node, status, _⟩ :=
    accounts.tried partitionId member
  -- The outcomes have different partitions, so this outcome is the one of the last message.
  have apart := (List.nodup_flatMap.mp (accounts.reported.nodup_iff.mpr once)).2
  have same : outcome = reported := by
    by_contra different
    have either_way : Std.Symm (Function.onFun List.Disjoint (@FailoverOutcome.partitionIds T)) :=
      ⟨fun _ _ disjoint _ second first => disjoint first second⟩
    have disjoint := apart.forall listed reported_listed different
    exact disjoint inside reported_inside
  subst same
  have answers : ∀ answer : Except SendError (Option T), (∃ result, resultOf answer = some result) ↔
      ∃ result, answer = .ok (some result) := by
    intro answer
    rcases answer with error | _ | result <;> simp [resultOf]
  rw [status, statusOf_success, answers, messages]
  constructor
  · exact fun answered => ⟨last, List.mem_append_right _ (List.mem_singleton_self last), node.symm, answered⟩
  · rintro ⟨message, among, _, result, answered⟩
    rcases List.mem_append.mp among with before | final
    · have none_found := (passed message before).1
      rw [answered] at none_found
      exact absurd none_found (Option.some_ne_none result)
    · rw [← List.mem_singleton.mp final]
      exact ⟨result, answered⟩

end Reports

/-- The outcomes of all fan-outs, one after another. -/
def allOutcomes (fanOuts : List (Sending (List PartitionSearchResult))) : List NodeQueryOutcome :=
  (fanOuts.map fun sending => sending.outcomes.map queryOutcome).flatten

theorem reported_iff {routing : PartitionRouting} (routed : WellRouted routing)
    {fanOuts : List (Sending (List PartitionSearchResult))}
    (ended : ∀ sending ∈ fanOuts, ∃ attempt, Ends routing attempt sending) (partitionId : Nat) :
    resultsOf (allOutcomes fanOuts) partitionId ≠ [] ↔
      fanOuts ≠ [] ∧ partitionId ∈ routing.copiesByPartition.map Prod.fst := by
  have reports : ∀ sending ∈ fanOuts, (sending.outcomes.flatMap FailoverOutcome.partitionIds).Perm
      (routing.copiesByPartition.map Prod.fst) := by
    intro sending member
    obtain ⟨attempt, ends⟩ := ended sending member
    obtain ⟨other, other_ends, accounts⟩ := sendWithFailover_accounts routed attempt
    rw [ends.unique other_ends]
    exact accounts.reported.trans routed.sent
  constructor
  · intro some_result
    obtain ⟨status, result⟩ := List.exists_mem_of_ne_nil _ some_result
    obtain ⟨outcome, reported, _⟩ := List.mem_map.mp result
    obtain ⟨member, inside⟩ := List.mem_filter.mp reported
    obtain ⟨outcomes, among, listed⟩ := List.mem_flatten.mp member
    obtain ⟨sending, fan_out, rfl⟩ := List.mem_map.mp among
    obtain ⟨source, here, rfl⟩ := List.mem_map.mp listed
    refine ⟨List.ne_nil_of_mem fan_out, (reports sending fan_out).mem_iff.mp ?_⟩
    exact List.mem_flatMap.mpr ⟨source, here, of_decide_eq_true inside⟩
  · rintro ⟨some_fan_out, listed⟩
    obtain ⟨sending, fan_out⟩ := List.exists_mem_of_ne_nil _ some_fan_out
    obtain ⟨outcome, here, inside⟩ := List.mem_flatMap.mp ((reports sending fan_out).mem_iff.mpr listed)
    have member : queryOutcome outcome ∈ allOutcomes fanOuts :=
      List.mem_flatten.mpr ⟨_, List.mem_map_of_mem fan_out, List.mem_map_of_mem here⟩
    have reported : queryOutcome outcome ∈ (allOutcomes fanOuts).filter fun outcome => partitionId ∈ outcome.partitionIds :=
      List.mem_filter.mpr ⟨member, decide_eq_true inside⟩
    exact List.ne_nil_of_mem (List.mem_map_of_mem reported)

theorem worst_keys {routing : PartitionRouting} (routed : WellRouted routing)
    {fanOuts : List (Sending (List PartitionSearchResult))}
    (ended : ∀ sending ∈ fanOuts, ∃ attempt, Ends routing attempt sending) :
    ((worstByPartition routing.unavailablePartitions (allOutcomes fanOuts)).map Prod.fst).Perm
      ((if fanOuts = [] then [] else routing.copiesByPartition.map Prod.fst) ++ routing.unavailablePartitions) := by
  obtain ⟨distinct, lookups⟩ := worstByPartition_spec routing.unavailablePartitions (allOutcomes fanOuts)
  have once : ((if fanOuts = [] then [] else routing.copiesByPartition.map Prod.fst) ++
      routing.unavailablePartitions).Nodup := by
    split
    · exact (List.nodup_append.mp routed.once).2.1
    · exact routed.once
  apply (List.perm_ext_iff_of_nodup distinct once).mpr
  intro partitionId
  have start : (if partitionId ∈ routing.unavailablePartitions then some OutcomeStatus.failed else none).isSome = true ↔
      partitionId ∈ routing.unavailablePartitions := by
    split <;> simp_all
  rw [← Assoc.lookup_isSome, lookups, worstOf_isSome, reported_iff routed ended, List.mem_append, start, or_comm]
  by_cases no_fan_out : fanOuts = []
  · simp [no_fan_out]
  · simp [no_fan_out]

/-- The worst result that the outcomes report of a partition; none where they do not report it. -/
def worstResult (outcomes : List NodeQueryOutcome) (partitionId : Nat) : Option OutcomeStatus :=
  worstOf none (resultsOf outcomes partitionId)

/-- How many routed partitions have a result as their worst one. -/
def countWorst (routing : PartitionRouting) (outcomes : List NodeQueryOutcome) (status : OutcomeStatus) : Nat :=
  (routing.copiesByPartition.map Prod.fst).countP fun partitionId => worstResult outcomes partitionId = some status

theorem countP_worst {routing : PartitionRouting} (routed : WellRouted routing)
    {fanOuts : List (Sending (List PartitionSearchResult))}
    (ended : ∀ sending ∈ fanOuts, ∃ attempt, Ends routing attempt sending) (status : OutcomeStatus) :
    ((worstByPartition routing.unavailablePartitions (allOutcomes fanOuts)).map Prod.snd).countP (· = status) =
      countWorst routing (allOutcomes fanOuts) status +
        if status = .failed then routing.unavailablePartitions.length else 0 := by
  obtain ⟨distinct, lookups⟩ := worstByPartition_spec routing.unavailablePartitions (allOutcomes fanOuts)
  have routed_worst : ∀ partitionId ∈ routing.copiesByPartition.map Prod.fst,
      Assoc.lookup (worstByPartition routing.unavailablePartitions (allOutcomes fanOuts)) partitionId =
        worstResult (allOutcomes fanOuts) partitionId := by
    intro partitionId member
    have served : partitionId ∉ routing.unavailablePartitions :=
      fun missing => (List.nodup_append.mp routed.once).2.2 partitionId member partitionId missing rfl
    rw [lookups, if_neg served, worstResult]
  have unavailable_worst : ∀ partitionId ∈ routing.unavailablePartitions,
      Assoc.lookup (worstByPartition routing.unavailablePartitions (allOutcomes fanOuts)) partitionId =
        some .failed := by
    intro partitionId member
    rw [lookups, if_pos member, worstOf_failed]
  rw [countP_values distinct, (worst_keys routed ended).countP_eq, List.countP_append]
  congr 1
  · split
    next no_fan_out => simp [no_fan_out, allOutcomes, countWorst, worstResult, resultsOf, worstOf]
    next =>
      apply List.countP_congr
      intro partitionId member
      rw [routed_worst partitionId member]
  · split
    next failed =>
      apply List.countP_eq_length.mpr
      intro partitionId member
      rw [unavailable_worst partitionId member, failed]
      exact decide_eq_true rfl
    next other =>
      apply List.countP_eq_zero.mpr
      intro partitionId member
      rw [unavailable_worst partitionId member]
      simpa using Ne.symm other

/--
Over the routing that the copy selection builds: whatever the nodes answer, a fan-out ends and
accounts for each routed partition, and the coverage of any number of fan-outs counts each
partition once, by its worst result.
-/
theorem sendWithFailover_covers (allocationTable : AllocationTable)
    (distinct : (allocationTable.assignments.map Prod.fst).Nodup) (selector : ReplicaSelector) :
    let routing := selectReplicasForQuery allocationTable selector
    (∀ (T : Type) (attempt : NodeId → List Nat → Except SendError (Option T)), ∃ sending,
      Ends routing attempt sending ∧
      (sending.outcomes.flatMap FailoverOutcome.partitionIds).Perm (routing.copiesByPartition.map Prod.fst) ∧
      ∀ partition ∈ routing.copiesByPartition, partition.2.Nodup ∧
        FailsOver attempt sending partition.2 partition.1 ∧
        ∀ outcome ∈ sending.outcomes, partition.1 ∈ outcome.partitionIds →
          (outcome.status = .success ↔ ∃ message ∈ messagesFor partition.1 sending.sent,
            message.nodeId = outcome.nodeId ∧
              ∃ result, attempt message.nodeId message.partitionIds = .ok (some result))) ∧
    ∀ fanOuts : List (Sending (List PartitionSearchResult)),
      (∀ sending ∈ fanOuts, ∃ attempt, Ends routing attempt sending) →
      ∀ totalPartitions,
        let outcomeSets := fanOuts.map fun sending => sending.outcomes.map queryOutcome
        let coverage := buildCoverageOfAll totalPartitions routing.unavailablePartitions outcomeSets
        coverage.queriedPartitions = countWorst routing outcomeSets.flatten .success ∧
          coverage.timedOutPartitions = countWorst routing outcomeSets.flatten .timeout ∧
          coverage.failedPartitions =
            countWorst routing outcomeSets.flatten .failed + routing.unavailablePartitions.length ∧
          coverage.queriedPartitions + coverage.timedOutPartitions + coverage.failedPartitions =
            (if fanOuts = [] then 0 else routing.copiesByPartition.length) + routing.unavailablePartitions.length := by
  intro routing
  have routed : WellRouted routing := (selectReplicasForQuery_routed allocationTable distinct selector).1
  have copies_once := (List.nodup_append.mp routed.once).1
  have sent_once := routed.sent.nodup_iff.mpr copies_once
  constructor
  · intro T attempt
    obtain ⟨sending, ends, accounts⟩ := sendWithFailover_accounts routed attempt
    refine ⟨sending, ends, accounts.reported.trans routed.sent, fun partition member => ?_⟩
    have asked : partition.1 ∈ routing.nodeToPartitions.flatMap Prod.snd :=
      routed.sent.mem_iff.mpr (List.mem_map_of_mem member)
    have copies : copiesOf routing partition.1 = partition.2 := by
      rw [copiesOf, Assoc.lookup_of_mem copies_once member, Option.getD_some]
    have tried := accounts.tried partition.1 asked
    rw [copies] at tried
    exact ⟨routed.distinct partition member, tried,
      fun outcome listed inside => accounts.answered sent_once asked listed inside⟩
  · intro fanOuts ended totalPartitions outcomeSets coverage
    have built : coverage = buildCoverage totalPartitions routing.unavailablePartitions (allOutcomes fanOuts) :=
      buildCoverageOfAll_eq _ _ _
    have counted := countP_worst routed ended
    have total := (worst_keys routed ended).length_eq
    have sum := statuses_add_up
      ((worstByPartition routing.unavailablePartitions (allOutcomes fanOuts)).map Prod.snd)
    rw [List.length_map] at sum total
    rw [built]
    refine ⟨?_, ?_, ?_, ?_⟩
    · exact (counted .success).trans (by simp [allOutcomes, outcomeSets])
    · exact (counted .timeout).trans (by simp [allOutcomes, outcomeSets])
    · exact (counted .failed).trans (by simp [allOutcomes, outcomeSets])
    · refine sum.trans (total.trans ?_)
      rw [List.length_append]
      split
      · rfl
      · rw [List.length_map]

def twoPartitions : AllocationTable where
  indexName := "books"
  version := 1
  replicationFactor := 1
  assignments :=
    [(0, ⟨some "a", ["b"], ["b"], none, none, .active, 1, 0, none⟩),
      (1, ⟨some "b", ["a"], ["a"], none, none, .active, 1, 0, none⟩)]
  indexUuid := none

theorem sendWithFailover_covers_two :
    let routing := selectReplicasForQuery twoPartitions hashBasedSelector
    ∃ sending, Ends routing (fun nodeId _ => if nodeId = "a" then .error .other else .ok (some nodeId)) sending ∧
      (sending.outcomes.flatMap FailoverOutcome.partitionIds).Perm (routing.copiesByPartition.map Prod.fst) := by
  obtain ⟨sending, ends, reported, _⟩ := (sendWithFailover_covers twoPartitions (by decide) hashBasedSelector).1 NodeId
    fun nodeId _ => if nodeId = "a" then .error .other else .ok (some nodeId)
  exact ⟨sending, ends, reported⟩

end Narsil.Distribution
