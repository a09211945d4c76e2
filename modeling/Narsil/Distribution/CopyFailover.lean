import Narsil.Distribution.CopySelection
import Narsil.Distribution.FanOut

/-!
# Turning to the next copy

A query that fails on a node turns to the next copy of each partition it asked for there.
The partitions go on in groups, one for each node that holds a next copy, and the groups go
on apart. A partition ends where a copy answers, where a copy rejects the query, which all
others would too, or where no copy is left.
-/
namespace Narsil.Distribution
open Narsil.Allocator (NodeId)

inductive SendError
  | transport (code : String)
  /-- `rejection` tells whether the error is among the marked rejections. -/
  | narsil (code : String) (rejection : Bool)
  | other
  deriving DecidableEq, Repr

def isTimeoutFailure : SendError → Bool
  | .transport code => code = "TRANSPORT_TIMEOUT"
  | .narsil code _ => code = "QUERY_NODE_TIMEOUT"
  | .other => false

def isNodeRejection : SendError → Bool
  | .narsil _ rejection => rejection
  | _ => false

structure FailoverOutcome (T : Type) where
  nodeId : NodeId
  partitionIds : List Nat
  status : OutcomeStatus
  result : Option T
  error : Option SendError
  deriving DecidableEq, Repr

/-- A message sent to a node. -/
structure Attempt where
  nodeId : NodeId
  partitionIds : List Nat
  deriving DecidableEq, Repr

structure RetryGroups where
  retries : List (NodeId × List Nat)
  exhausted : List Nat
  deriving DecidableEq, Repr

def nextCopy (copies : List NodeId) (failedNodeId : NodeId) : Option NodeId :=
  (copies.idxOf? failedNodeId).bind fun position => copies[position + 1]?

/-- One turn of the loop of `groupByNextCopy`. -/
def groupPartition (routing : PartitionRouting) (failedNodeId : NodeId) (groups : RetryGroups) (partitionId : Nat) :
    RetryGroups :=
  let copies := (Assoc.lookup routing.copiesByPartition partitionId).getD []
  match nextCopy copies failedNodeId with
  | none => { groups with exhausted := groups.exhausted ++ [partitionId] }
  | some next => { groups with retries := Assoc.push groups.retries next partitionId }

def groupByNextCopy (routing : PartitionRouting) (failedNodeId : NodeId) (partitionIds : List Nat) : RetryGroups :=
  partitionIds.foldl (groupPartition routing failedNodeId) ⟨[], []⟩

/-- What a fan-out reports, and the messages it sent, each branch in its order. -/
structure Sending (T : Type) where
  outcomes : List (FailoverOutcome T)
  sent : List Attempt
  deriving DecidableEq, Repr

/-- The branches of `Promise.all`, their outcomes one after another. -/
def Sending.all {T : Type} (sendings : List (Sending T)) : Sending T :=
  ⟨sendings.flatMap Sending.outcomes, sendings.flatMap Sending.sent⟩

section Failover
variable {T : Type} (routing : PartitionRouting) (attempt : NodeId → List Nat → Except SendError (Option T))

def retryElsewhere (failure : FailoverOutcome T) (tryCopy : NodeId → List Nat → Option (Sending T)) :
    Option (Sending T) := do
  let groups := groupByNextCopy routing failure.nodeId failure.partitionIds
  let retried ← groups.retries.mapM fun group => tryCopy group.1 group.2
  let outcomes := (Sending.all retried).outcomes
  return {
    outcomes :=
      if 0 < groups.exhausted.length then outcomes ++ [{ failure with partitionIds := groups.exhausted }] else outcomes
    sent := ⟨failure.nodeId, failure.partitionIds⟩ :: (Sending.all retried).sent }

/-- `rounds` bounds how often the code calls itself. -/
def tryCopy : Nat → NodeId → List Nat → Option (Sending T)
  | 0, _, _ => none
  | rounds + 1, nodeId, partitionIds =>
    match attempt nodeId partitionIds with
    | .ok (some result) =>
      some ⟨[⟨nodeId, partitionIds, .success, some result, none⟩], [⟨nodeId, partitionIds⟩]⟩
    | .ok none => retryElsewhere routing ⟨nodeId, partitionIds, .timeout, none, none⟩ (tryCopy rounds)
    | .error error =>
      let failure := ⟨nodeId, partitionIds, if isTimeoutFailure error then .timeout else .failed, none, some error⟩
      if isNodeRejection error then some ⟨[failure], [⟨nodeId, partitionIds⟩]⟩
      else retryElsewhere routing failure (tryCopy rounds)

def sendWithFailover (rounds : Nat) : Option (Sending T) := do
  let first ← routing.nodeToPartitions.mapM fun group => tryCopy routing attempt rounds group.1 group.2
  return Sending.all first

end Failover

section Answers
variable {T : Type}

def resultOf : Except SendError (Option T) → Option T
  | .ok result => result
  | .error _ => none

def statusOf : Except SendError (Option T) → OutcomeStatus
  | .ok (some _) => .success
  | .ok none => .timeout
  | .error error => if isTimeoutFailure error then .timeout else .failed

def isRejected : Except SendError (Option T) → Bool
  | .ok _ => false
  | .error error => isNodeRejection error

/-- The answer is no result and no rejection, so that the next copy may do better. -/
def passesOn (answer : Except SendError (Option T)) : Prop := resultOf answer = none ∧ isRejected answer = false

theorem statusOf_success {answer : Except SendError (Option T)} :
    statusOf answer = .success ↔ ∃ result, resultOf answer = some result := by
  rcases answer with error | _ | result
  · simp only [statusOf, resultOf]
    split <;> simp
  · simp [statusOf, resultOf]
  · simp [statusOf, resultOf]

end Answers

def messagesFor (partitionId : Nat) (sent : List Attempt) : List Attempt :=
  sent.filter fun message => partitionId ∈ message.partitionIds

theorem messagesFor_append (partitionId : Nat) (sent later : List Attempt) :
    messagesFor partitionId (sent ++ later) = messagesFor partitionId sent ++ messagesFor partitionId later :=
  List.filter_append ..

section Accounts
variable {T : Type} (attempt : NodeId → List Nat → Except SendError (Option T))

/--
The copies of a partition are tried in their order. All but the last one tried pass it on,
and that one does only where no copy is left. The outcome of the partition is the answer of
that copy.
-/
def FailsOver (sending : Sending T) (copies : List NodeId) (partitionId : Nat) : Prop :=
  ∃ earlier last left,
    messagesFor partitionId sending.sent = earlier ++ [last] ∧
      copies = earlier.map Attempt.nodeId ++ last.nodeId :: left ∧
      (∀ message ∈ earlier, passesOn (attempt message.nodeId message.partitionIds)) ∧
      (passesOn (attempt last.nodeId last.partitionIds) → left = []) ∧
      ∃ outcome ∈ sending.outcomes, partitionId ∈ outcome.partitionIds ∧ outcome.nodeId = last.nodeId ∧
        outcome.status = statusOf (attempt last.nodeId last.partitionIds) ∧
        outcome.result = resultOf (attempt last.nodeId last.partitionIds)

/-- Each of the partitions is in one outcome, and no other partition is asked for. -/
structure Accounts (partitionIds : List Nat) (copies : Nat → List NodeId) (sending : Sending T) : Prop where
  reported : (sending.outcomes.flatMap FailoverOutcome.partitionIds).Perm partitionIds
  within : ∀ message ∈ sending.sent, ∀ partitionId ∈ message.partitionIds, partitionId ∈ partitionIds
  tried : ∀ partitionId ∈ partitionIds, FailsOver attempt sending (copies partitionId) partitionId

variable {attempt} {ids others : List Nat} {copies : Nat → List NodeId} {sending later : Sending T}

theorem Accounts.messagesFor_other (accounts : Accounts attempt ids copies sending) {partitionId : Nat}
    (other : partitionId ∉ ids) : messagesFor partitionId sending.sent = [] := by
  apply List.filter_eq_nil_iff.mpr
  intro message member
  simpa using fun inside => other (accounts.within message member partitionId inside)

theorem Accounts.append (accounts : Accounts attempt ids copies sending)
    (others_account : Accounts attempt others copies later) (apart : ∀ partitionId ∈ ids, partitionId ∉ others) :
    Accounts attempt (ids ++ others) copies
      ⟨sending.outcomes ++ later.outcomes, sending.sent ++ later.sent⟩ := by
  constructor
  · rw [List.flatMap_append]
    exact accounts.reported.append others_account.reported
  · intro message member partitionId inside
    rcases List.mem_append.mp member with first | second
    · exact List.mem_append_left _ (accounts.within message first partitionId inside)
    · exact List.mem_append_right _ (others_account.within message second partitionId inside)
  · intro partitionId member
    by_cases first : partitionId ∈ ids
    · obtain ⟨earlier, last, left, messages, split, passed, ended, outcome, listed, rest⟩ :=
        accounts.tried partitionId first
      refine ⟨earlier, last, left, ?_, split, passed, ended, outcome, List.mem_append_left _ listed, rest⟩
      rw [messagesFor_append, messages, others_account.messagesFor_other (apart partitionId first), List.append_nil]
    · have second := (List.mem_append.mp member).resolve_left first
      obtain ⟨earlier, last, left, messages, split, passed, ended, outcome, listed, rest⟩ :=
        others_account.tried partitionId second
      refine ⟨earlier, last, left, ?_, split, passed, ended, outcome, List.mem_append_right _ listed, rest⟩
      rw [messagesFor_append, messages, accounts.messagesFor_other first, List.nil_append]

theorem Accounts.all {groups : List (NodeId × List Nat)} {sendings : List (Sending T)}
    (once : (groups.flatMap Prod.snd).Nodup)
    (each : List.Forall₂ (fun group sending => Accounts attempt group.2 copies sending) groups sendings) :
    Accounts attempt (groups.flatMap Prod.snd) copies (Sending.all sendings) := by
  induction each with
  | nil =>
    constructor
    · exact .nil
    · intro message member
      exact absurd member List.not_mem_nil
    · intro partitionId member
      exact absurd member List.not_mem_nil
  | cons accounts _ ih =>
    rw [List.flatMap_cons] at once ⊢
    have parts := List.nodup_append.mp once
    exact accounts.append (ih parts.2.1) fun partitionId first second => parts.2.2 partitionId first partitionId second rfl

theorem Accounts.settled {nodeId : NodeId} {outcome : FailoverOutcome T}
    (first : ∀ partitionId ∈ ids, ∃ left, copies partitionId = nodeId :: left)
    (settles : ¬passesOn (attempt nodeId ids)) (node : outcome.nodeId = nodeId) (asked : outcome.partitionIds = ids)
    (status : outcome.status = statusOf (attempt nodeId ids)) (result : outcome.result = resultOf (attempt nodeId ids)) :
    Accounts attempt ids copies ⟨[outcome], [⟨nodeId, ids⟩]⟩ := by
  constructor
  · simp [asked]
  · intro message member partitionId inside
    rw [List.mem_singleton.mp member] at inside
    exact inside
  · intro partitionId member
    obtain ⟨left, split⟩ := first partitionId member
    refine ⟨[], ⟨nodeId, ids⟩, left, ?_, split, ?_, fun passes => absurd passes settles, outcome,
      List.mem_singleton_self outcome, asked ▸ member, node, status, result⟩
    · simp [messagesFor, member]
    · intro message earlier
      exact absurd earlier List.not_mem_nil

theorem Accounts.passedOn {nodeId : NodeId} {failure : FailoverOutcome T} {retried exhausted : List Nat}
    {further : Nat → List NodeId} (passes : passesOn (attempt nodeId ids)) (split : (retried ++ exhausted).Perm ids)
    (goes_on : ∀ partitionId ∈ retried, copies partitionId = nodeId :: further partitionId)
    (ends : ∀ partitionId ∈ exhausted, copies partitionId = [nodeId])
    (apart : ∀ partitionId ∈ exhausted, partitionId ∉ retried)
    (node : failure.nodeId = nodeId) (status : failure.status = statusOf (attempt nodeId ids))
    (result : failure.result = resultOf (attempt nodeId ids)) (accounts : Accounts attempt retried further later) :
    Accounts attempt ids copies
      { outcomes :=
          if 0 < exhausted.length then later.outcomes ++ [{ failure with partitionIds := exhausted }]
          else later.outcomes
        sent := ⟨nodeId, ids⟩ :: later.sent } := by
  have messages : ∀ partitionId ∈ ids, messagesFor partitionId (⟨nodeId, ids⟩ :: later.sent) =
      ⟨nodeId, ids⟩ :: messagesFor partitionId later.sent := by
    intro partitionId member
    rw [messagesFor, List.filter_cons_of_pos (by simpa using member)]
    rfl
  constructor
  · refine List.Perm.trans ?_ split
    dsimp only
    split
    · rw [List.flatMap_append, List.flatMap_singleton]
      exact accounts.reported.append_right exhausted
    next none_left =>
      have empty : exhausted = [] := List.length_eq_zero_iff.mp (by omega)
      rw [empty, List.append_nil]
      exact accounts.reported
  · intro message member partitionId inside
    rcases List.mem_cons.mp member with rfl | further_on
    · exact inside
    · exact split.mem_iff.mp (List.mem_append_left _ (accounts.within message further_on partitionId inside))
  · intro partitionId member
    rcases List.mem_append.mp (split.mem_iff.mpr member) with again | spent
    · obtain ⟨earlier, last, left, sent, tail, passed, ended, outcome, listed, rest⟩ :=
        accounts.tried partitionId again
      refine ⟨⟨nodeId, ids⟩ :: earlier, last, left, ?_, ?_, ?_, ended, outcome, ?_, rest⟩
      · rw [messages partitionId member, sent, List.cons_append]
      · rw [goes_on partitionId again, tail]
        rfl
      · intro message among
        rcases List.mem_cons.mp among with rfl | before
        · exact passes
        · exact passed message before
      · dsimp only
        split
        · exact List.mem_append_left _ listed
        · exact listed
    · have some_over : 0 < exhausted.length := List.length_pos_of_mem spent
      refine ⟨[], ⟨nodeId, ids⟩, [], ?_, ends partitionId spent, ?_, fun _ => rfl,
        { failure with partitionIds := exhausted }, ?_, spent, node, status, result⟩
      · rw [messages partitionId member, accounts.messagesFor_other (apart partitionId spent)]
        rfl
      · intro message earlier
        exact absurd earlier List.not_mem_nil
      · dsimp only
        rw [if_pos some_over]
        exact List.mem_append_right _ (List.mem_singleton_self _)

end Accounts

theorem nextCopy_behind {tried left : List NodeId} {nodeId : NodeId} (new : nodeId ∉ tried) :
    nextCopy (tried ++ nodeId :: left) nodeId = left.head? := by
  have position : (tried ++ nodeId :: left).idxOf? nodeId = some tried.length := by
    rw [List.idxOf?_eq_some_iff]
    refine ⟨by simp, by simp, fun i before same => ?_⟩
    rw [List.getElem_append_left before] at same
    exact new (same ▸ List.getElem_mem before)
  rw [nextCopy, position, Option.bind_some, List.getElem?_append_right (by omega), Nat.add_sub_cancel_left,
    List.getElem?_cons_succ, List.head?_eq_getElem?]

/-- Where a partition goes after a node. -/
def nextFor (routing : PartitionRouting) (nodeId : NodeId) (partitionId : Nat) : Option NodeId :=
  nextCopy ((Assoc.lookup routing.copiesByPartition partitionId).getD []) nodeId

structure Grouped (routing : PartitionRouting) (nodeId : NodeId) (partitionIds : List Nat) (groups : RetryGroups) :
    Prop where
  all : (groups.retries.flatMap Prod.snd ++ groups.exhausted).Perm partitionIds
  asked : ∀ group ∈ groups.retries, group.2 ≠ []
  goes_on : ∀ group ∈ groups.retries, ∀ partitionId ∈ group.2, nextFor routing nodeId partitionId = some group.1
  ends : ∀ partitionId ∈ groups.exhausted, nextFor routing nodeId partitionId = none

theorem Grouped.groupPartition {routing : PartitionRouting} {nodeId : NodeId} {partitionIds : List Nat}
    {groups : RetryGroups} (grouped : Grouped routing nodeId partitionIds groups) (partitionId : Nat) :
    Grouped routing nodeId (partitionIds ++ [partitionId]) (groupPartition routing nodeId groups partitionId) := by
  have here : nextCopy ((Assoc.lookup routing.copiesByPartition partitionId).getD []) nodeId =
      nextFor routing nodeId partitionId := rfl
  have last : (partitionId :: partitionIds).Perm (partitionIds ++ [partitionId]) :=
    (List.perm_append_singleton _ _).symm
  simp only [Distribution.groupPartition, here]
  split
  next spent =>
    constructor
    · rw [← List.append_assoc]
      exact grouped.all.append_right _
    · exact grouped.asked
    · exact grouped.goes_on
    · intro other member
      rcases List.mem_append.mp member with before | new
      · exact grouped.ends other before
      · rw [List.mem_singleton.mp new]
        exact spent
  next next again =>
    constructor
    · exact ((Assoc.push_perm _ _ _).append_right _).trans ((grouped.all.cons partitionId).trans last)
    · exact Assoc.push_ne_nil grouped.asked
    · intro group member other inside
      rcases Assoc.mem_push member inside with ⟨same, rfl⟩ | ⟨items, before, among⟩
      · rw [again, same]
      · exact grouped.goes_on _ before other among
    · exact grouped.ends

theorem groupByNextCopy_grouped (routing : PartitionRouting) (nodeId : NodeId) (partitionIds : List Nat) :
    Grouped routing nodeId partitionIds (groupByNextCopy routing nodeId partitionIds) := by
  suffices run : ∀ (ids before : List Nat) (groups : RetryGroups), Grouped routing nodeId before groups →
      Grouped routing nodeId (before ++ ids) (ids.foldl (groupPartition routing nodeId) groups) by
    have start : Grouped routing nodeId [] ⟨[], []⟩ := by
      constructor <;> simp
    exact run partitionIds [] _ start
  intro ids
  induction ids with
  | nil =>
    intro before groups grouped
    rwa [List.append_nil]
  | cons partitionId rest ih =>
    intro before groups grouped
    have step := ih _ _ (grouped.groupPartition partitionId)
    rwa [List.append_assoc] at step

private theorem mapM_ends {α β : Type} {f : Nat → α → Option β} {Q : α → β → Prop} {n : Nat} :
    ∀ xs : List α, (∀ x ∈ xs, ∃ y, (∀ rounds, n ≤ rounds → f rounds x = some y) ∧ Q x y) →
      ∃ ys, (∀ rounds, n ≤ rounds → xs.mapM (f rounds) = some ys) ∧ List.Forall₂ Q xs ys
  | [], _ => ⟨[], fun _ _ => rfl, .nil⟩
  | x :: xs, each => by
    obtain ⟨y, ends, holds⟩ := each x List.mem_cons_self
    obtain ⟨ys, rest_end, rest_hold⟩ := mapM_ends xs fun other member => each other (List.mem_cons_of_mem x member)
    refine ⟨y :: ys, fun rounds enough => ?_, .cons holds rest_hold⟩
    rw [List.mapM_cons, ends rounds enough, rest_end rounds enough]
    rfl

section Run
variable {T : Type} {routing : PartitionRouting} {attempt : NodeId → List Nat → Except SendError (Option T)}

/-- The node is a copy of the partition, and `left` are the ones behind it. -/
def Reaches (routing : PartitionRouting) (nodeId : NodeId) (partitionId : Nat) (left : List NodeId) : Prop :=
  ∃ tried, Assoc.lookup routing.copiesByPartition partitionId = some (tried ++ nodeId :: left) ∧
    (tried ++ nodeId :: left).Nodup

theorem Reaches.nextFor {nodeId : NodeId} {partitionId : Nat} {left : List NodeId}
    (reaches : Reaches routing nodeId partitionId left) : nextFor routing nodeId partitionId = left.head? := by
  obtain ⟨tried, found, once⟩ := reaches
  rw [Distribution.nextFor, found, Option.getD_some]
  exact nextCopy_behind fun before => (List.nodup_append.mp once).2.2 nodeId before nodeId List.mem_cons_self rfl

theorem Reaches.next {nodeId next : NodeId} {partitionId : Nat} {left : List NodeId}
    (reaches : Reaches routing nodeId partitionId (next :: left)) : Reaches routing next partitionId left := by
  obtain ⟨tried, found, once⟩ := reaches
  have split : tried ++ nodeId :: next :: left = (tried ++ [nodeId]) ++ next :: left := by simp
  exact ⟨tried ++ [nodeId], split ▸ found, split ▸ once⟩

theorem retryElsewhere_accounts {n : Nat} {nodeId : NodeId} {ids : List Nat} {left : Nat → List NodeId}
    (once : ids.Nodup) (reaches : ∀ partitionId ∈ ids, Reaches routing nodeId partitionId (left partitionId))
    (further : ∀ next others (left' : Nat → List NodeId), others ≠ [] → others.Nodup →
      (∀ partitionId ∈ others, Reaches routing next partitionId (left' partitionId)) →
      (∀ partitionId ∈ others, (left' partitionId).length < (left partitionId).length) →
      (∀ partitionId ∈ others, partitionId ∈ ids) →
      ∃ sending, (∀ rounds, n ≤ rounds → tryCopy routing attempt rounds next others = some sending) ∧
        Accounts attempt others (fun partitionId => next :: left' partitionId) sending)
    {failure : FailoverOutcome T} (passes : passesOn (attempt nodeId ids)) (node : failure.nodeId = nodeId)
    (asked : failure.partitionIds = ids) (status : failure.status = statusOf (attempt nodeId ids))
    (result : failure.result = resultOf (attempt nodeId ids)) :
    ∃ sending, (∀ rounds, n ≤ rounds → retryElsewhere routing failure (tryCopy routing attempt rounds) = some sending) ∧
      Accounts attempt ids (fun partitionId => nodeId :: left partitionId) sending := by
  have grouped := groupByNextCopy_grouped routing nodeId ids
  let groups := groupByNextCopy routing nodeId ids
  have groups_once := List.nodup_append.mp (grouped.all.nodup_iff.mpr once)
  have retried_ids : ∀ group ∈ groups.retries, ∀ partitionId ∈ group.2, partitionId ∈ ids := fun group member id inside =>
    grouped.all.mem_iff.mp (List.mem_append_left _ (List.mem_flatMap.mpr ⟨group, member, inside⟩))
  -- What is left of the copies of a retried partition begins with the node of its group.
  have left_split : ∀ group ∈ groups.retries, ∀ partitionId ∈ group.2,
      left partitionId = group.1 :: (left partitionId).tail := by
    intro group member partitionId inside
    have next := grouped.goes_on group member partitionId inside
    rw [(reaches partitionId (retried_ids group member partitionId inside)).nextFor] at next
    exact (List.cons_head?_tail next).symm
  obtain ⟨sendings, ends, each⟩ := mapM_ends
    (f := fun rounds (group : NodeId × List Nat) => tryCopy routing attempt rounds group.1 group.2)
    (Q := fun group sending => Accounts attempt group.2 left sending) groups.retries (by
      intro group member
      have group_once : group.2.Nodup := (List.nodup_flatMap.mp groups_once.1).1 group member
      have group_reaches : ∀ partitionId ∈ group.2, Reaches routing group.1 partitionId (left partitionId).tail := by
        intro partitionId inside
        have here := reaches partitionId (retried_ids group member partitionId inside)
        rw [left_split group member partitionId inside] at here
        exact here.next
      obtain ⟨sending, ends, accounts⟩ := further group.1 group.2 (fun partitionId => (left partitionId).tail)
        (grouped.asked group member) group_once group_reaches
        (fun partitionId inside => by
          rw [left_split group member partitionId inside, List.tail_cons, List.length_cons]
          omega)
        (retried_ids group member)
      refine ⟨sending, ends, accounts.reported, accounts.within, fun partitionId inside => ?_⟩
      rw [left_split group member partitionId inside]
      exact accounts.tried partitionId inside)
  refine ⟨_, fun rounds enough => ?_, Accounts.passedOn passes grouped.all ?_ ?_ ?_ node status result
    (Accounts.all groups_once.1 each)⟩
  · simp only [retryElsewhere, node, asked]
    rw [ends rounds enough]
    rfl
  · intro partitionId _
    rfl
  · intro partitionId spent
    have ended := grouped.ends partitionId spent
    rw [(reaches partitionId (grouped.all.mem_iff.mp (List.mem_append_right _ spent))).nextFor,
      List.head?_eq_none_iff] at ended
    rw [ended]
  · intro partitionId spent retried
    exact groups_once.2.2 partitionId retried partitionId spent rfl

theorem tryCopy_accounts : ∀ (n : Nat) (nodeId : NodeId) (ids : List Nat) (left : Nat → List NodeId), ids ≠ [] →
    ids.Nodup → (∀ partitionId ∈ ids, Reaches routing nodeId partitionId (left partitionId)) →
    (∀ partitionId ∈ ids, (left partitionId).length < n) →
    ∃ sending, (∀ rounds, n ≤ rounds → tryCopy routing attempt rounds nodeId ids = some sending) ∧
      Accounts attempt ids (fun partitionId => nodeId :: left partitionId) sending := by
  intro n
  induction n with
  | zero =>
    intro nodeId ids left some_id _ _ few
    obtain ⟨partitionId, member⟩ := List.exists_mem_of_ne_nil ids some_id
    exact absurd (few partitionId member) (Nat.not_lt_zero _)
  | succ n ih =>
    intro nodeId ids left some_id once reaches few
    have elsewhere := @retryElsewhere_accounts T routing attempt n nodeId ids left once reaches
      fun next others left' some_other others_once reach fewer among =>
        ih next others left' some_other others_once reach fun partitionId member =>
          Nat.lt_of_lt_of_le (fewer partitionId member) (Nat.le_of_lt_succ (few partitionId (among partitionId member)))
    have more : ∀ rounds, n + 1 ≤ rounds → ∃ before, rounds = before + 1 ∧ n ≤ before :=
      fun rounds enough => ⟨rounds - 1, by omega, by omega⟩
    have first : ∀ partitionId ∈ ids, ∃ others, nodeId :: left partitionId = nodeId :: others :=
      fun partitionId _ => ⟨left partitionId, rfl⟩
    cases answer : attempt nodeId ids with
    | ok found =>
      cases found with
      | some result =>
        refine ⟨⟨[⟨nodeId, ids, .success, some result, none⟩], [⟨nodeId, ids⟩]⟩, fun rounds enough => ?_, ?_⟩
        · obtain ⟨before, rfl, _⟩ := more rounds enough
          simp only [tryCopy, answer]
        · apply Accounts.settled first _ rfl rfl <;> simp [answer, passesOn, resultOf, statusOf]
      | none =>
        obtain ⟨sending, ends, accounts⟩ := @elsewhere ⟨nodeId, ids, .timeout, none, none⟩
          (by simp [passesOn, answer, resultOf, isRejected]) rfl rfl (by rw [answer]; rfl) (by rw [answer]; rfl)
        refine ⟨sending, fun rounds enough => ?_, accounts⟩
        obtain ⟨before, rfl, enough_left⟩ := more rounds enough
        simp only [tryCopy, answer]
        exact ends before enough_left
    | error error =>
      cases rejected : isNodeRejection error with
      | true =>
        refine ⟨⟨[⟨nodeId, ids, if isTimeoutFailure error then .timeout else .failed, none, some error⟩],
          [⟨nodeId, ids⟩]⟩, fun rounds enough => ?_, ?_⟩
        · obtain ⟨before, rfl, _⟩ := more rounds enough
          simp only [tryCopy, answer, rejected, if_true]
        · apply Accounts.settled first _ rfl rfl <;> simp [answer, passesOn, resultOf, statusOf, isRejected, rejected]
      | false =>
        obtain ⟨sending, ends, accounts⟩ := @elsewhere
          ⟨nodeId, ids, if isTimeoutFailure error then .timeout else .failed, none, some error⟩
          (by simp [passesOn, answer, resultOf, isRejected, rejected]) rfl rfl (by rw [answer]; rfl)
          (by rw [answer]; rfl)
        refine ⟨sending, fun rounds enough => ?_, accounts⟩
        obtain ⟨before, rfl, enough_left⟩ := more rounds enough
        simp only [tryCopy, answer, rejected, Bool.false_eq_true, if_false]
        exact ends before enough_left

end Run

/-- The fan-out ends with this report, however many more rounds it has. -/
def Ends {T : Type} (routing : PartitionRouting) (attempt : NodeId → List Nat → Except SendError (Option T))
    (sending : Sending T) : Prop :=
  ∃ rounds, ∀ more, rounds ≤ more → sendWithFailover routing attempt more = some sending

theorem Ends.unique {T : Type} {routing : PartitionRouting} {attempt : NodeId → List Nat → Except SendError (Option T)}
    {sending other : Sending T} (ends : Ends routing attempt sending) (other_ends : Ends routing attempt other) :
    sending = other := by
  obtain ⟨rounds, first⟩ := ends
  obtain ⟨other_rounds, second⟩ := other_ends
  have same := (first _ (Nat.le_max_left rounds other_rounds)).symm.trans (second _ (Nat.le_max_right _ _))
  exact Option.some.inj same

/-- The copies of a partition. -/
def copiesOf (routing : PartitionRouting) (partitionId : Nat) : List NodeId :=
  (Assoc.lookup routing.copiesByPartition partitionId).getD []

theorem sendWithFailover_accounts {T : Type} {routing : PartitionRouting} (routed : WellRouted routing)
    (attempt : NodeId → List Nat → Except SendError (Option T)) :
    ∃ sending, Ends routing attempt sending ∧
      Accounts attempt (routing.nodeToPartitions.flatMap Prod.snd) (copiesOf routing) sending := by
  have copies_once := (List.nodup_append.mp routed.once).1
  have sent_once := routed.sent.nodup_iff.mpr copies_once
  let rounds := (routing.copiesByPartition.map Prod.snd).flatten.length
  have first : ∀ group ∈ routing.nodeToPartitions, ∀ partitionId ∈ group.2,
      Assoc.lookup routing.copiesByPartition partitionId = some (group.1 :: (copiesOf routing partitionId).tail) ∧
        (copiesOf routing partitionId).tail.length < rounds ∧
        (group.1 :: (copiesOf routing partitionId).tail).Nodup := by
    intro group member partitionId inside
    obtain ⟨others, listed⟩ := routed.first group member partitionId inside
    have found := Assoc.lookup_of_mem copies_once listed
    have copies : copiesOf routing partitionId = group.1 :: others := by rw [copiesOf, found, Option.getD_some]
    have among : group.1 :: others ∈ routing.copiesByPartition.map Prod.snd :=
      List.mem_map.mpr ⟨(partitionId, group.1 :: others), listed, rfl⟩
    have counted : (group.1 :: others).length ≤ rounds := (List.sublist_flatten_of_mem among).length_le
    rw [copies, List.tail_cons]
    exact ⟨found, counted, routed.distinct _ listed⟩
  obtain ⟨sendings, ends, each⟩ := mapM_ends
    (f := fun rounds (group : NodeId × List Nat) => tryCopy routing attempt rounds group.1 group.2)
    (Q := fun group sending => Accounts attempt group.2 (copiesOf routing) sending) routing.nodeToPartitions (by
      intro group member
      have group_once := (List.nodup_flatMap.mp sent_once).1 group member
      obtain ⟨sending, ends, accounts⟩ := tryCopy_accounts rounds group.1 group.2
        (fun partitionId => (copiesOf routing partitionId).tail) (routed.asked group member) group_once
        (fun partitionId inside =>
          ⟨[], (first group member partitionId inside).1, (first group member partitionId inside).2.2⟩)
        (fun partitionId inside => (first group member partitionId inside).2.1)
      refine ⟨sending, ends, accounts.reported, accounts.within, fun partitionId inside => ?_⟩
      have copies : copiesOf routing partitionId = group.1 :: (copiesOf routing partitionId).tail := by
        conv_lhs => rw [copiesOf, (first group member partitionId inside).1, Option.getD_some]
      rw [copies]
      exact accounts.tried partitionId inside)
  refine ⟨Sending.all sendings, ⟨rounds, fun more enough => ?_⟩, Accounts.all sent_once each⟩
  rw [sendWithFailover, ends more enough]
  rfl

end Narsil.Distribution
