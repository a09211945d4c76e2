import Narsil.Allocator.Failover

/-!
# What each pass keeps

A relation between the assignments of the stored table and those of the table
being built, kept by every reshaping, is kept by every pass that only moves
copies. Failing over establishes it, and the hand-overs keep it.
-/
namespace Narsil.Allocator

variable {ν : Type} [Number ν]

section Passes
variable {R : PartitionAssignment → PartitionAssignment → Prop} {before m : Assignments}

theorem settleMoves_related (h : Assoc.Related R before m)
    (reshape : ∀ old a a', R old a → Reshapes a a' → R old a') (replicationFactor : Nat) :
    Assoc.Related R before (settleMoves m replicationFactor) := by
  apply h.visitAll
  intro _ _ _ old a related
  exact reshape _ _ _ related (settleMove_reshapes replicationFactor a)

theorem trimSurplusReplicas_related (h : Assoc.Related R before m)
    (reshape : ∀ old a a', R old a → Reshapes a a' → R old a')
    (sortedNodes : List (NodeRegistration ν)) (replicationFactor : Nat)
    (drainingNodeIds : List NodeId) :
    Assoc.Related R before
      (trimSurplusReplicas m sortedNodes replicationFactor drainingNodeIds) := by
  apply h.visitAll
  intro whole _ _ old a related
  split
  · exact related
  · next quiet =>
    rw [not_or, not_not] at quiet
    exact reshape _ _ _ related (trimSurplus_reshapes _ _ _ whole _ a quiet.1)

theorem fillReplicaSlots_related (h : Assoc.Related R before m)
    (reshape : ∀ old a a', R old a → Reshapes a a' → R old a') (placement : PlacementContext ν)
    (chain : colocationDecider ∈ placement.deciders) (replicationFactor : Nat) :
    Assoc.Related R before (fillReplicaSlots m placement replicationFactor) := by
  apply h.visitAll
  intro whole _ partitionId old a related
  split
  · exact related
  · next served =>
    exact reshape _ _ _ related (fillSlots_reshapes chain _ _ whole _ a served)

theorem moveDrainingReplicas_related (h : Assoc.Related R before m)
    (reshape : ∀ old a a', R old a → Reshapes a a' → R old a') (placement : PlacementContext ν)
    (chain : colocationDecider ∈ placement.deciders) (replicationFactor : Nat) :
    Assoc.Related R before (moveDrainingReplicas m placement replicationFactor) := by
  apply h.visitAll
  intro whole _ partitionId old a related
  exact reshape _ _ _ related (moveDrainingReplica_reshapes chain _ whole _ a)

theorem moveOneReplica_related (h : Assoc.Related R before m)
    (reshape : ∀ old a a', R old a → Reshapes a a' → R old a')
    (structured : ∀ old a, R old a → Structured a) {move : ReplicaMove ν}
    (chain : colocationDecider ∈ move.deciders) {laggingOnly : Bool} {moved : Assignments}
    (found : moveOneReplica m move laggingOnly = some moved) : Assoc.Related R before moved := by
  rw [moveOneReplica, Option.map_eq_some_iff] at found
  obtain ⟨⟨position, target⟩, chosen, rfl⟩ := found
  obtain ⟨⟨entry, index⟩, member, here⟩ := List.exists_of_findSome?_eq_some chosen
  rw [Option.map_eq_some_iff] at here
  obtain ⟨target', placed, same⟩ := here
  obtain ⟨rfl, rfl⟩ : index = position ∧ target' = target := by simpa using same
  have at_entry : m[index]? = some entry := by
    simpa using List.mk_mem_zipIdx_iff_getElem?.mp member
  refine h.modify index (fun a => { a with
    replicas := a.replicas ++ [target']
    removingReplicas := some [move.fromNodeId] }) ?_
  intro x y _ at_y related
  obtain rfl : entry = y := by simpa [at_entry] using at_y
  apply reshape _ _ _ related
  rw [moveTarget] at placed
  split at placed
  · simp at placed
  · next quiet =>
    rw [not_or, not_not, not_not] at quiet
    split at placed
    · simp at placed
    · have apart := findBestNode_apart chain placed
      apply reshapes_add
      · intro unled
        have h' := structured _ _ related
        have empty := (h'.unserved (h'.unassigned_iff.mpr unled)).1
        rw [empty] at quiet
        exact absurd quiet.2 (by simp)
      · exact apart.2.1
      · exact apart.2.2
      · intro _
        constructor
        · simp
        · intro listed eq n held
          rw [Option.some.injEq] at eq
          subst eq
          rw [List.mem_singleton] at held
          exact held ▸ quiet.2

theorem balanceOnce_related (h : Assoc.Related R before m)
    (reshape : ∀ old a a', R old a → Reshapes a a' → R old a')
    (structured : ∀ old a, R old a → Structured a) {context : BalanceContext ν}
    (chain : colocationDecider ∈ context.deciders) {moved : Assignments}
    (found : balanceOnce context m = some moved) : Assoc.Related R before moved := by
  rw [balanceOnce] at found
  simp only at found
  split at found
  · split at found
    · simp at found
    · split at found
      · simp at found
      · split at found
        · simp at found
        · rw [Option.or_eq_some_iff] at found
          rcases found with lagging | ⟨_, any⟩
          · exact moveOneReplica_related h reshape structured chain lagging
          · exact moveOneReplica_related h reshape structured chain any
  · simp at found

theorem rebalanceForBalance_related (h : Assoc.Related R before m)
    (reshape : ∀ old a a', R old a → Reshapes a a' → R old a')
    (structured : ∀ old a, R old a → Structured a) {context : BalanceContext ν}
    (chain : colocationDecider ∈ context.deciders) :
    Assoc.Related R before (rebalanceForBalance m context) := by
  have rounds : ∀ (n : Nat) (m : Assignments), Assoc.Related R before m →
      Assoc.Related R before (balanceRounds context n m) := by
    intro n
    induction n with
    | zero => exact fun _ h => h
    | succ n ih =>
      intro m h
      rw [balanceRounds]
      split
      · exact h
      · next moved found => exact ih moved (balanceOnce_related h reshape structured chain found)
  exact rounds _ m h

theorem handOverDrainingLeads_related (h : Assoc.Related R before m)
    (reshape : ∀ old a a', R old a → Reshapes a a' → R old a') (context : PlacementContext ν)
    (chain : colocationDecider ∈ context.deciders)
    (handOver : ∀ old a successor leader, R old a → MaySucceed a successor leader →
      successor ∉ context.drainingNodeIds → leader ∈ context.drainingNodeIds →
      R old (handOverTo a successor leader)) (shares : List (NodeId × ν)) :
    Assoc.Related R before (handOverDrainingLeads m context shares) := by
  apply h.visitAll
  intro whole counts partitionId old a related
  rw [handOverDrainingLead]
  split
  · exact related
  · next leader led =>
    split
    · exact related
    · next leaves =>
      rw [not_or, not_not, not_not] at leaves
      simp only
      split
      · exact reshape _ _ _ related
          (seedSuccessor_reshapes chain whole partitionId a (by simp [led]))
      · next successor found =>
        have member := leastLoadedCandidate_mem found
        rw [List.mem_filter, decide_eq_true_eq] at member
        apply handOver _ _ _ _ related _ member.2.2 leaves.2
        exact
        { led := led
          active := leaves.1
          inSync := member.2.1
          staying := by
            have outside := member.1
            rw [replicasOutsideMove] at outside
            split at outside
            · next quiet => simp [quiet]
            · next removing listed =>
              rw [List.mem_filter, decide_eq_true_eq] at outside
              simpa [listed] using outside.2 }

theorem clearedUp_related (h : Assoc.Related R before m)
    (reshape : ∀ old a a', R old a → Reshapes a a' → R old a') :
    Assoc.Related R before (clearRecoveryStateOnServedPartitions (pruneInSyncSets m)) := by
  induction h with
  | nil => exact .nil
  | cons pair _ ih =>
    refine .cons ⟨pair.1, ?_⟩ ih
    apply reshape _ _ _ pair.2
    exact (pruneInSyncSet_reshapes _).trans (clearRecoveryState_reshapes _)

end Passes

/-- The nodes a run of the allocator knows, and those among them that drain. -/
def registeredIds (nodes : List (NodeRegistration ν)) : List NodeId :=
  (sortById nodes).map (·.nodeId)

def drainingIds (nodes : List (NodeRegistration ν)) : List NodeId :=
  ((sortById nodes).filter (·.draining)).map (·.nodeId)

omit [Number ν] in
theorem drainingIds_registered {nodes : List (NodeRegistration ν)} {n : NodeId}
    (h : n ∈ drainingIds nodes) : n ∈ registeredIds nodes := by
  obtain ⟨node, member, rfl⟩ := List.mem_map.mp h
  exact List.mem_map.mpr ⟨node, (List.mem_filter.mp member).1, rfl⟩

theorem placeCopies_placed (nodes : List (NodeRegistration ν)) {current : Assignments}
    (structured : ∀ entry ∈ current, Structured entry.2) (replicationFactor : Nat)
    {deciders : List (Decider ν)} (chain : colocationDecider ∈ deciders)
    (retainedNodeIds : List NodeId) :
    Assoc.Related (Placed (registeredIds nodes) (drainingIds nodes)) current
      (placeCopies (sortById nodes) current replicationFactor deciders retainedNodeIds) := by
  have same : Assoc.Related (fun old a => old = a ∧ Structured a) current current := by
    apply Assoc.Related.of_values
    intro entry member
    exact ⟨rfl, structured entry member⟩
  have reshape : ∀ old a a', Placed (registeredIds nodes) (drainingIds nodes) old a →
      Reshapes a a' → Placed (registeredIds nodes) (drainingIds nodes) old a' :=
    fun _ _ _ placed step => placed.reshape step
  have failedOver : Assoc.Related (Placed (registeredIds nodes) (drainingIds nodes)) current
      (handleLostNodes current (registeredIds nodes) retainedNodeIds
        (capacityShares (sortById nodes)) (drainingIds nodes)) := by
    apply same.visitAll
    rintro _ counts _ old a ⟨rfl, h⟩
    exact handleLostNode_placed _ _ _ _ counts h
  have settled := settleMoves_related failedOver reshape replicationFactor
  have handedOver := handOverDrainingLeads_related settled reshape
    (placementContext (sortById nodes) deciders) chain
    (fun old a successor leader placed may stays leaves =>
      placed.handOver may stays leaves fun n => drainingIds_registered)
    (capacityShares (sortById nodes))
  have trimmed := trimSurplusReplicas_related handedOver reshape (sortById nodes)
    replicationFactor (drainingIds nodes)
  have filled := fillReplicaSlots_related trimmed reshape
    (placementContext (sortById nodes) deciders) chain replicationFactor
  have drained := moveDrainingReplicas_related filled reshape
    (placementContext (sortById nodes) deciders) chain replicationFactor
  have settledAgain := settleMoves_related drained reshape replicationFactor
  exact rebalanceForBalance_related settledAgain reshape (fun _ _ placed => placed.structured) chain

end Narsil.Allocator

/-!
## The pass that spreads leadership

Every round of the pass hands one partition to one of its in-sync replicas, or
none. The hand-overs it makes of one partition say who leads it afterwards, and
at which term.
-/
namespace Narsil.Allocator

variable {ν : Type} [Number ν]

theorem betterCandidate_spec {heaviest candidate : NodeId} {counts : List (NodeId × Nat)}
    {shares : List (NodeId × ν)} {excluded : List NodeId} {partitionId position : Nat}
    {best : Option (LeadershipSwap ν)} {swap : LeadershipSwap ν}
    (found : betterCandidate heaviest counts shares excluded partitionId position best candidate =
      some swap) :
    best = some swap ∨
      (swap.position = position ∧ swap.partitionId = partitionId ∧
        swap.candidateNodeId = candidate ∧ candidate ∉ excluded) := by
  simp only [betterCandidate] at found
  split at found
  · exact Or.inl found
  · next allowed =>
    have offered : some (LeadershipSwap.mk position partitionId candidate
        (loadOf candidate counts shares)) = some swap →
        swap.position = position ∧ swap.partitionId = partitionId ∧
          swap.candidateNodeId = candidate ∧ candidate ∉ excluded := by
      intro same
      rw [Option.some.injEq] at same
      subst same
      exact ⟨rfl, rfl, rfl, allowed⟩
    split at found
    · exact Or.inl found
    · split at found
      · exact Or.inr (offered found)
      · split at found
        · exact Or.inr (offered found)
        · exact Or.inl found

theorem betterSwap_spec {heaviest : NodeId} {counts : List (NodeId × Nat)}
    {shares : List (NodeId × ν)} {excluded : List NodeId} {best : Option (LeadershipSwap ν)}
    {entry : (Nat × PartitionAssignment) × Nat} {swap : LeadershipSwap ν}
    (found : betterSwap heaviest counts shares excluded best entry = some swap) :
    best = some swap ∨
      (swap.position = entry.2 ∧ swap.partitionId = entry.1.1 ∧
        MaySucceed entry.1.2 swap.candidateNodeId heaviest ∧ swap.candidateNodeId ∉ excluded) := by
  rw [betterSwap] at found
  split at found
  · exact Or.inl found
  · next eligible =>
    rw [not_or, not_or, not_not, not_not, not_not] at eligible
    obtain ⟨active, led, quiet⟩ := eligible
    have general : ∀ (inSync : List NodeId) (best : Option (LeadershipSwap ν)),
        (∀ n ∈ inSync, n ∈ entry.1.2.inSyncSet) →
        inSync.foldl (betterCandidate heaviest counts shares excluded entry.1.1 entry.2) best =
          some swap →
        best = some swap ∨
          (swap.position = entry.2 ∧ swap.partitionId = entry.1.1 ∧
            swap.candidateNodeId ∈ entry.1.2.inSyncSet ∧ swap.candidateNodeId ∉ excluded) := by
      intro inSync
      induction inSync with
      | nil => exact fun _ _ same => Or.inl same
      | cons candidate rest ih =>
        intro best listed same
        have member := listed candidate (by simp)
        rcases ih _ (fun n later => listed n (by simp [later])) same with here | later
        · rcases betterCandidate_spec here with old | ⟨at_, id, chosen, allowed⟩
          · exact Or.inl old
          · exact Or.inr ⟨at_, id, chosen ▸ member, chosen ▸ allowed⟩
        · exact Or.inr later
    rcases general _ best (fun _ member => member) found with old | ⟨at_, id, member, allowed⟩
    · exact Or.inl old
    · exact Or.inr ⟨at_, id, ⟨led, active, member, by simp [quiet]⟩, allowed⟩

theorem findSwap_spec {m : Assignments} {heaviest : NodeId} {counts : List (NodeId × Nat)}
    {shares : List (NodeId × ν)} {excluded : List NodeId} {swap : LeadershipSwap ν}
    (found : findSwap m heaviest counts shares excluded = some swap) :
    ∃ a, m[swap.position]? = some (swap.partitionId, a) ∧
      MaySucceed a swap.candidateNodeId heaviest ∧ swap.candidateNodeId ∉ excluded := by
  have general : ∀ (entries : List ((Nat × PartitionAssignment) × Nat))
      (best : Option (LeadershipSwap ν)),
      entries.foldl (betterSwap heaviest counts shares excluded) best = some swap →
      best = some swap ∨ ∃ entry ∈ entries, swap.position = entry.2 ∧
        swap.partitionId = entry.1.1 ∧ MaySucceed entry.1.2 swap.candidateNodeId heaviest ∧
        swap.candidateNodeId ∉ excluded := by
    intro entries
    induction entries with
    | nil => exact fun _ same => Or.inl same
    | cons entry rest ih =>
      intro best same
      rcases ih _ same with here | ⟨later, member, spec⟩
      · rcases betterSwap_spec here with old | spec
        · exact Or.inl old
        · exact Or.inr ⟨entry, by simp, spec⟩
      · exact Or.inr ⟨later, by simp [member], spec⟩
  rcases general _ none found with none_found | ⟨⟨entry, index⟩, member, at_, id, may, allowed⟩
  · simp at none_found
  · refine ⟨entry.2, ?_, may, allowed⟩
    rw [at_, id]
    simpa using List.mk_mem_zipIdx_iff_getElem?.mp member

theorem leadershipRound_handover {m : Assignments} {shares : List (NodeId × ν)}
    {excluded without : List NodeId} {heaviest : NodeId} {swap : LeadershipSwap ν}
    (decided : leadershipRound shares excluded m without = .handover heaviest swap) :
    ∃ a, m[swap.position]? = some (swap.partitionId, a) ∧
      MaySucceed a swap.candidateNodeId heaviest ∧ swap.candidateNodeId ∉ excluded := by
  rw [leadershipRound] at decided
  split at decided
  · simp at decided
  · split at decided
    · simp at decided
    · next swap' found =>
      injection decided with same same'
      subst same same'
      exact findSwap_spec found

theorem rebalanceLeadership_related {R : PartitionAssignment → PartitionAssignment → Prop}
    {before m : Assignments} (h : Assoc.Related R before m)
    (handOver : ∀ old a successor leader, R old a → MaySucceed a successor leader →
      R old (handOverTo a successor leader))
    (shares : List (NodeId × ν)) (excluded : List NodeId) :
    Assoc.Related R before (rebalanceLeadership m shares excluded) := by
  have rounds : ∀ (n : Nat) (m : Assignments) (without : List NodeId),
      Assoc.Related R before m →
      Assoc.Related R before (leadershipRounds shares excluded n m without) := by
    intro n
    induction n with
    | zero => exact fun _ _ h => h
    | succ n ih =>
      intro m without h
      rw [leadershipRounds]
      split
      · exact h
      · exact ih m _ h
      · next heaviest swap decided =>
        obtain ⟨a, at_a, may, _⟩ := leadershipRound_handover decided
        apply ih
        refine h.modify swap.position
          (fun a => handOverTo a swap.candidateNodeId heaviest) ?_
        intro x y _ at_y related
        rw [at_a, Option.some.injEq] at at_y
        subst at_y
        exact handOver _ _ _ _ related may
  exact rounds _ m [] h

/-- The partitions the pass hands over, with the node each one is handed to. -/
def leadershipHandovers (shares : List (NodeId × ν)) (excludedNodeIds : List NodeId) :
    Nat → Assignments → List NodeId → List (Nat × NodeId)
  | 0, _, _ => []
  | rounds + 1, assignments, withoutHandover =>
    match leadershipRound shares excludedNodeIds assignments withoutHandover with
    | .finished => []
    | .withoutHandover heaviest =>
      leadershipHandovers shares excludedNodeIds rounds assignments (heaviest :: withoutHandover)
    | .handover heaviest swap =>
      (swap.partitionId, swap.candidateNodeId) ::
        leadershipHandovers shares excludedNodeIds rounds (applySwap assignments swap heaviest)
          withoutHandover

def handedTo (handovers : List (Nat × NodeId)) (partitionId : Nat) : List NodeId :=
  (handovers.filter fun handover => handover.1 = partitionId).map Prod.snd

/-- An assignment after it was handed to each node of a list in turn. -/
structure HandedAlong (excluded : List NodeId) (a : PartitionAssignment) (nodes : List NodeId)
    (a' : PartitionAssignment) : Prop where
  structured : Structured a'
  primary : a'.primary = nodes.getLast?.or a.primary
  term : a'.primaryTerm = a.primaryTerm + nodes.length
  state : a'.state = a.state
  holders : a'.lastHolders = a.lastHolders
  active : nodes ≠ [] → a.state = .active ∧ a.primary ≠ none
  inSync : ∀ n ∈ a'.inSyncSet, n ∈ a.inSyncSet ∨ (a.primary = some n ∧ a.state = .active)
  allowed : ∀ n ∈ nodes, n ∉ excluded ∧ (n ∈ a.inSyncSet ∨ a.primary = some n)

theorem HandedAlong.refl {excluded : List NodeId} {a : PartitionAssignment} (h : Structured a) :
    HandedAlong excluded a [] a where
  structured := h
  primary := rfl
  term := rfl
  state := rfl
  holders := rfl
  active := fun some_left => absurd rfl some_left
  inSync := fun _ member => Or.inl member
  allowed := by simp

theorem handOverTo_inSync {a : PartitionAssignment} {successor leader n : NodeId}
    (member : n ∈ (handOverTo a successor leader).inSyncSet) : n ∈ a.inSyncSet ∨ n = leader := by
  simp only [handOverTo, List.mem_append, List.mem_filter, List.mem_singleton] at member
  exact member.imp_left (·.1)

theorem HandedAlong.cons {excluded nodes : List NodeId} {a a' : PartitionAssignment}
    {successor leader : NodeId} (may : MaySucceed a successor leader)
    (allowed : successor ∉ excluded)
    (rest : HandedAlong excluded (handOverTo a successor leader) nodes a') :
    HandedAlong excluded a (successor :: nodes) a' where
  structured := rest.structured
  primary := by
    rw [rest.primary]
    cases nodes with
    | nil => rfl
    | cons n nodes =>
      rw [List.getLast?_cons_cons, List.getLast?_eq_some_getLast (List.cons_ne_nil n nodes)]
      rfl
  term := by
    rw [rest.term, List.length_cons]
    simp only [handOverTo]
    omega
  state := rest.state
  holders := rest.holders
  active := fun _ => ⟨may.active, by simp [may.led]⟩
  inSync := by
    intro n member
    have held : n ∈ a.inSyncSet ∨ n = leader := by
      rcases rest.inSync n member with old | ⟨leads, _⟩
      · exact handOverTo_inSync old
      · have same : successor = n := by simpa [handOverTo] using leads
        exact Or.inl (same ▸ may.inSync)
    rcases held with old | rfl
    · exact Or.inl old
    · exact Or.inr ⟨may.led, may.active⟩
  allowed := by
    intro n member
    rcases List.mem_cons.mp member with rfl | later
    · exact ⟨allowed, Or.inl may.inSync⟩
    · obtain ⟨free, source⟩ := rest.allowed n later
      refine ⟨free, ?_⟩
      rcases source with old | leads
      · rcases handOverTo_inSync old with held | rfl
        · exact Or.inl held
        · exact Or.inr may.led
      · have same : successor = n := by simpa [handOverTo] using leads
        exact Or.inl (same ▸ may.inSync)

omit [Number ν] in
theorem applySwap_keys (m : Assignments) (swap : LeadershipSwap ν) (leader : NodeId) :
    (applySwap m swap leader).map Prod.fst = m.map Prod.fst := by
  apply List.ext_getElem?
  intro i
  simp only [applySwap, List.getElem?_map, List.getElem?_modify]
  cases m[i]? with
  | none => rfl
  | some entry => by_cases here : swap.position = i <;> simp [here]

theorem leadershipRounds_handedAlong (shares : List (NodeId × ν)) (excluded : List NodeId)
    (rounds : Nat) (m : Assignments) (without : List NodeId) (keys : (m.map Prod.fst).Nodup)
    (structured : ∀ entry ∈ m, Structured entry.2) {i : Nat} {entry : Nat × PartitionAssignment}
    (at_entry : m[i]? = some entry) :
    ∃ a', (leadershipRounds shares excluded rounds m without)[i]? = some (entry.1, a') ∧
      HandedAlong excluded entry.2
        (handedTo (leadershipHandovers shares excluded rounds m without) entry.1) a' := by
  have idle : HandedAlong excluded entry.2 [] entry.2 :=
    HandedAlong.refl (structured entry (List.mem_of_getElem? at_entry))
  induction rounds generalizing m without entry with
  | zero => exact ⟨entry.2, at_entry, idle⟩
  | succ rounds ih =>
    rw [leadershipRounds, leadershipHandovers]
    cases decided : leadershipRound shares excluded m without with
    | finished => exact ⟨entry.2, at_entry, idle⟩
    | withoutHandover heaviest => exact ih m _ keys structured at_entry idle
    | handover heaviest swap =>
      obtain ⟨a, at_a, may, allowed⟩ := leadershipRound_handover decided
      have moved := handOverTo_structured (structured _ (List.mem_of_getElem? at_a)) may
      have next_structured : ∀ e ∈ applySwap m swap heaviest, Structured e.2 := by
        intro e member
        obtain ⟨j, at_j⟩ := List.mem_iff_getElem?.mp member
        rw [applySwap, List.getElem?_modify] at at_j
        by_cases here : swap.position = j
        · subst here
          simp only [at_a, Option.map_eq_map, Option.map_some, if_true, Option.some.injEq] at at_j
          subst at_j
          exact moved
        · cases at_old : m[j]? with
          | none => simp [at_old] at at_j
          | some old =>
            simp only [at_old, here, if_false, Option.map_eq_map, Option.map_some,
              Option.some.injEq] at at_j
            subst at_j
            exact structured _ (List.mem_of_getElem? at_old)
      have next_keys : ((applySwap m swap heaviest).map Prod.fst).Nodup := by
        rw [applySwap_keys]
        exact keys
      by_cases here : swap.position = i
      · subst here
        rw [at_a, Option.some.injEq] at at_entry
        subst at_entry
        have at_next : (applySwap m swap heaviest)[swap.position]? =
            some (swap.partitionId, handOverTo a swap.candidateNodeId heaviest) := by
          simp [applySwap, at_a]
        obtain ⟨a', at_a', along⟩ := ih _ without next_keys next_structured at_next
          (HandedAlong.refl moved)
        refine ⟨a', at_a', ?_⟩
        have first : handedTo ((swap.partitionId, swap.candidateNodeId) ::
            leadershipHandovers shares excluded rounds (applySwap m swap heaviest) without)
            swap.partitionId = swap.candidateNodeId ::
              handedTo (leadershipHandovers shares excluded rounds
                (applySwap m swap heaviest) without) swap.partitionId := by
          simp [handedTo]
        rw [first]
        exact along.cons may allowed
      · have at_next : (applySwap m swap heaviest)[i]? = some entry := by
          simp [applySwap, here, at_entry]
        obtain ⟨a', at_a', along⟩ := ih _ without next_keys next_structured at_next idle
        refine ⟨a', at_a', ?_⟩
        have other : swap.partitionId ≠ entry.1 := by
          intro same
          have at_key : (m.map Prod.fst)[swap.position]? = some entry.1 := by
            simp [List.getElem?_map, at_a, same]
          have at_key' : (m.map Prod.fst)[i]? = some entry.1 := by
            simp [List.getElem?_map, at_entry]
          have bound : swap.position < (m.map Prod.fst).length :=
            (List.getElem?_eq_some_iff.mp at_key).1
          exact here ((List.getElem?_inj bound keys).mp (at_key.trans at_key'.symm))
        have skipped : handedTo ((swap.partitionId, swap.candidateNodeId) ::
            leadershipHandovers shares excluded rounds (applySwap m swap heaviest) without)
            entry.1 = handedTo (leadershipHandovers shares excluded rounds
              (applySwap m swap heaviest) without) entry.1 := by
          simp [handedTo, other]
        rw [skipped]
        exact along

end Narsil.Allocator
