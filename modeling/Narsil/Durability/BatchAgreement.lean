import Narsil.Durability.MemoryAndLog
import Narsil.Durability.WalDurability

/-!
# Memory and log agree after every batch

A record whose numbering is refused stays in memory: `recordPartitionBatch` answers
the failure, and the engine's mutations take the document back out. Everything else
that fails leaves no trace or marks the partition failed.
-/
namespace Narsil.Durability

variable {μ : Type} {deps : PartitionBatchDeps} {events : BatchEvents μ}

theorem BatchAgrees.after_failPartition {s s1 : ManagerState μ} {records : List MutationRecord}
    {outcomes : Outcomes} (error : NarsilError) (taken : List (Nat × ReplicationLogEntry))
    {kept : List Nat} (length : outcomes.length = records.length)
    (appended : s1.partition.appended = s.partition.appended ++ taken.map Prod.snd)
    (places : (taken.map Prod.fst).Pairwise (· < ·))
    (made : ∀ p ∈ taken, ∃ record, records[p.1]? = some record ∧ EntryOf deps events p.1 record p.2)
    (ascending : (s.partition.appliedSeqNo :: taken.map fun p => p.2.seqNo).Pairwise (· < ·))
    (keptPlaces : kept.Pairwise (· < ·))
    (memory : applyAll events kept s.memory = .ok s1.memory)
    (owner : s1.partition.appliedSeqNo ≤ s1.partition.seqOwner.current) :
    BatchAgrees deps events s records (failPartition deps s1 error).1
      (failUnlessAlreadyFailed outcomes (failPartition deps s1 error).2) := by
  obtain ⟨failure, partitionIs, memoryIs⟩ := failPartition_spec deps s1 error
  apply BatchAgrees.of_failed taken kept length _ places made ascending
    keptPlaces
  · rw [memoryIs]
    exact memory
  · rw [partitionIs]
    intro whole
    cases whole
  · rw [partitionIs]
    exact owner
  · rw [partitionIs]
    exact appended

theorem BatchAgrees.of_nothing_applied {s : ManagerState μ} {records : List MutationRecord}
    {applying : Applying μ}
    (applies : AppliedRecords events (records.zipIdx.map Prod.swap)
      ⟨s.memory, [], List.replicate records.length none⟩ applying [])
    (owner : s.partition.appliedSeqNo ≤ s.partition.seqOwner.current) :
    BatchAgrees deps events s records { s with memory := applying.memory } applying.outcomes := by
  have size : applying.outcomes.length = records.length :=
    applies.length.trans List.length_replicate
  have each : ∀ i, i < records.length → ∃ error, applying.outcomes[i]? = some (some (.failed error)) := by
    intro i inside
    apply applies.failed i _ (by simp) (by rw [List.length_replicate]; exact inside)
    rw [placed_places]
    exact List.mem_range.mpr inside
  have noOk : ∀ i seqNo, ¬ OkAt applying.outcomes i seqNo := by
    intro i seqNo ok
    obtain ⟨error, outcome⟩ := each i (size ▸ (List.getElem?_eq_some_iff.mp ok).1)
    rw [OkAt, outcome] at ok
    cases ok
  refine ⟨⟨size, ?_⟩, ⟨[], by simp, .nil, by simp, List.pairwise_singleton _ _, ?_⟩, ?_,
    ⟨[], .nil, applies.memory, ?_, by simp⟩, owner⟩
  · intro isIn
    obtain ⟨i, inside, here⟩ := List.mem_iff_getElem.mp isIn
    have here : applying.outcomes[i]? = some none := List.getElem?_eq_some_iff.mpr ⟨inside, here⟩
    obtain ⟨error, outcome⟩ := each i (size ▸ inside)
    rw [outcome] at here
    cases here
  · exact fun i seqNo => ⟨fun ok => absurd ok (noOk i seqNo), by rintro ⟨-, entry, isIn, -⟩; cases isIn⟩
  · exact fun _ i seqNo ok => absurd ok (noOk i seqNo)
  · exact fun i seqNo ok => absurd ok (noOk i seqNo)

theorem BatchAgrees.of_appended {s s1 : ManagerState μ} {records : List MutationRecord}
    {applying : Applying μ} {applied : List (Nat × MutationRecord)} {s0 numbering : Numbering}
    {taken : List (Nat × ReplicationLogEntry)}
    (applies : AppliedRecords events (records.zipIdx.map Prod.swap)
      ⟨s.memory, [], List.replicate records.length none⟩ applying applied)
    (outcomes : s0.outcomes = applying.outcomes) (lastSeqNo : s0.lastSeqNo = s.partition.appliedSeqNo)
    (numbers : NumberedRecords deps events applied s0 numbering none taken)
    (appended : s1.partition.appended = s.partition.appended ++ taken.map Prod.snd)
    (unfailed : s1.partition.failed = none) (memory : s1.memory = applying.memory)
    (owner : s1.partition.appliedSeqNo ≤ s1.partition.seqOwner.current)
    (committed : deps.syncEachBatch = true → taken ≠ [] → numbering.commitsHere = true →
      s1.partition.committed = s1.partition.appended.length) :
    BatchAgrees deps events s records s1 numbering.outcomes := by
  obtain ⟨answered, oks, kept⟩ := okAt_numbered applies outcomes numbers
  have placesSub := applies.sublist.map Prod.fst
  rw [placed_places] at placesSub
  have keptPlaces : (applied.map Prod.fst).Pairwise (· < ·) :=
    List.pairwise_lt_range.sublist placesSub
  refine ⟨answered, ⟨taken, appended, keptPlaces.sublist numbers.sublist, ?_, ?_, ?_⟩, ?_,
    ⟨applied.map Prod.fst, keptPlaces, ?_, ?_, ?_⟩, owner⟩
  · intro p isIn
    obtain ⟨record, listed, entryOf⟩ := numbers.made p isIn
    exact ⟨record, record_at (applies.sublist.subset listed), entryOf⟩
  · rw [← lastSeqNo]
    exact numbers.ascending
  · intro i seqNo
    rw [oks]
    exact ⟨fun ok => ⟨unfailed, ok⟩, fun ok => ok.2⟩
  · intro sync i seqNo ok
    obtain ⟨entry, isIn, -⟩ := (oks i seqNo).mp ok
    have some_ : taken ≠ [] := List.ne_nil_of_mem isIn
    rcases numbers.deferred with here | all
    · exact .inl (committed sync some_ here)
    · right
      intro j other record okOther recordAt
      obtain ⟨entry', isIn', -⟩ := (oks j other).mp okOther
      obtain ⟨record', listed, -⟩ := numbers.made _ isIn'
      have same := record_at (applies.sublist.subset listed)
      rw [recordAt] at same
      cases same
      exact all _ isIn' record listed
  · rw [memory]
    exact applies.memory
  · intro i seqNo ok
    obtain ⟨entry, isIn, -⟩ := (oks i seqNo).mp ok
    exact numbers.sublist.subset (List.mem_map_of_mem isIn)
  · exact fun i isIn _ => kept i isIn

theorem recordPartitionBatch_agrees_of (events : BatchEvents μ) (s : ManagerState μ)
    (records : List MutationRecord)
    (owner : s.partition.appliedSeqNo ≤ s.partition.seqOwner.current) :
    BatchAgrees deps events s records (recordPartitionBatch deps events s records).1
      (recordPartitionBatch deps events s records).2 := by
  have unset : (List.replicate records.length (none : Option MutationOutcome)).length
      = records.length := List.length_replicate
  have refusedAtOnce : ∀ error, BatchAgrees deps events s records s
      (failUnlessAlreadyFailed (List.replicate records.length none) error) := fun error =>
    .of_failed [] [] unset (by simp) .nil (by simp)
      (List.pairwise_singleton _ _) .nil rfl (fun _ => ⟨rfl, rfl⟩) owner
  obtain ⟨⟨appliedSeqNo, seqOwner, failed, appended, committed⟩, fatalError, memory⟩ := s
  rw [recordPartitionBatch]
  cases fatalError with
  | some fatal => exact refusedAtOnce fatal
  | none =>
    cases failed with
    | some error => exact refusedAtOnce error
    | none =>
      obtain ⟨applied, applies⟩ := applyEach_spec events
        (records.zipIdx.map Prod.swap) ⟨memory, [], List.replicate records.length none⟩
        (by rw [placed_places]; exact List.nodup_range)
      have appliedIs : (applyEach events (records.zipIdx.map Prod.swap)
          ⟨memory, [], List.replicate records.length none⟩).applied = applied := applies.applied
      simp only [appliedIs]
      generalize applyEach events (records.zipIdx.map Prod.swap)
        ⟨memory, [], List.replicate records.length none⟩ = applying at applies
      by_cases nothing : applied = []
      · rw [if_pos nothing]
        subst nothing
        exact .of_nothing_applied applies owner
      · rw [if_neg nothing]
        have placesSub := applies.sublist.map Prod.fst
        rw [placed_places] at placesSub
        have keptPlaces : (applied.map Prod.fst).Pairwise (· < ·) :=
          List.pairwise_lt_range.sublist placesSub
        obtain ⟨taken, numbers⟩ := numberEach_spec deps events applied
          ⟨seqOwner, appliedSeqNo, [], applying.outcomes, false⟩
          (List.nodup_range.sublist placesSub) owner
        have size : (numberEach deps events applied
            ⟨seqOwner, appliedSeqNo, [], applying.outcomes, false⟩).1.outcomes.length
              = records.length := numbers.length.trans (applies.length.trans unset)
        generalize numberEach deps events applied
          ⟨seqOwner, appliedSeqNo, [], applying.outcomes, false⟩ = result at numbers size
        obtain ⟨numbering, thrown⟩ := result
        have entries : numbering.entries = taken.map Prod.snd := by
          rw [numbers.entries, List.nil_append]
        have grown : appliedSeqNo ≤ numbering.seqOwner.current :=
          Nat.le_trans numbers.grows numbers.owner
        cases thrown with
        | some error =>
          exact .after_failPartition error [] size (by simp) .nil (by simp)
            (List.pairwise_singleton _ _) keptPlaces applies.memory grown
        | none =>
          simp only [entries]
          obtain ⟨reached, log, appends, logIs, whole⟩ := appendAll_spec events
            ⟨appliedSeqNo, numbering.seqOwner, none, appended, committed⟩ taken
          generalize appendAll events ⟨appliedSeqNo, numbering.seqOwner, none, appended, committed⟩
            (taken.map Prod.snd) = result at appends whole
          obtain ⟨partition, failure⟩ := result
          simp only at appends whole
          subst appends
          have front := List.take_sublist reached taken
          have made : ∀ p ∈ taken, ∃ record, records[p.1]? = some record ∧
              EntryOf deps events p.1 record p.2 := by
            intro p isIn
            obtain ⟨record, listed, entryOf⟩ := numbers.made p isIn
            exact ⟨record, record_at (applies.sublist.subset listed), entryOf⟩
          cases failure with
          | some error =>
            -- The front part of the entries may have reached the log.
            exact .after_failPartition error (taken.take reached) size logIs
              (keptPlaces.sublist ((front.map Prod.fst).trans numbers.sublist))
              (fun p isIn => made p (front.subset isIn))
              (numbers.ascending.sublist ((front.map _).cons_cons _)) keptPlaces applies.memory grown
          | none =>
            rw [whole rfl] at logIs
            simp only
            split
            next commits =>
              cases events.commitFails with
              | some error =>
                exact .after_failPartition error taken size logIs
                  (keptPlaces.sublist numbers.sublist) made numbers.ascending keptPlaces
                  applies.memory numbers.owner
              | none =>
                exact .of_appended applies rfl rfl numbers logIs rfl rfl numbers.owner
                  fun _ _ _ => rfl
            next waits =>
              refine .of_appended applies rfl rfl numbers logIs rfl rfl numbers.owner ?_
              intro sync some_ here
              refine absurd ?_ waits
              simp [sync, here, List.length_pos_iff, some_]

/-- The states of a partition: fresh at a position of its log, then changed by batches.
A failure elsewhere may turn fatal and a deferred commit may follow at any time. -/
inductive BatchReached (deps : PartitionBatchDeps) : ManagerState μ → Prop where
  | fresh (seqNo primaryTerm : Nat) (memory : μ) :
      BatchReached deps ⟨⟨seqNo, ⟨seqNo, primaryTerm⟩, none, [], 0⟩, none, memory⟩
  | batch {s : ManagerState μ} (before : BatchReached deps s) (events : BatchEvents μ)
      (records : List MutationRecord) :
      BatchReached deps (recordPartitionBatch deps events s records).1
  | fatal {s : ManagerState μ} (before : BatchReached deps s) (error : NarsilError) :
      BatchReached deps { s with fatalError := some error }
  | commit {s : ManagerState μ} (before : BatchReached deps s) :
      BatchReached deps
        { s with partition := { s.partition with committed := s.partition.appended.length } }

theorem BatchReached.owner {s : ManagerState μ} (reached : BatchReached deps s) :
    s.partition.appliedSeqNo ≤ s.partition.seqOwner.current := by
  induction reached with
  | fresh => exact Nat.le_refl _
  | batch _ events records ih => exact (recordPartitionBatch_agrees_of events _ records ih).owner
  | fatal _ _ ih => exact ih
  | commit _ ih => exact ih

theorem recordPartitionBatch_agrees (deps : PartitionBatchDeps) (events : BatchEvents μ)
    (s : ManagerState μ) (records : List MutationRecord) (reached : BatchReached deps s) :
    BatchAgrees deps events s records (recordPartitionBatch deps events s records).1
      (recordPartitionBatch deps events s records).2 :=
  recordPartitionBatch_agrees_of events s records reached.owner

def plainDeps (syncEachBatch defers : Bool) : PartitionBatchDeps where
  codec := sampleCodec
  syncEachBatch
  failsPartitionAlone _ := true
  defersCommit _ := defers

/-- Memory notes the places applied; numbering answers the same for every record. -/
def plainEvents (numbering : Except NarsilError (Option ReplicationLogEntry)) :
    BatchEvents (List Nat) where
  apply i memory := .ok (memory ++ [i])
  numberEntry _ := numbering
  appendFails := none
  commitFails := none

def plainState : ManagerState (List Nat) := ⟨⟨4, ⟨4, 1⟩, none, [], 0⟩, none, []⟩

/-- A record refused its number is still in memory, the partition not failed. In sync mode a
record that defers its commit is ok with nothing committed. Where an append fails midway, the
first record's entry is in the log and its outcome a failure. -/
theorem recordPartitionBatch_leaves_refused_record :
    ((recordPartitionBatch (plainDeps true false)
        (plainEvents (.error ⟨.persistenceSaveFailed, "log full"⟩)) plainState
        [⟨"i", 0, .delete, "d", none⟩]).2
          = [some (.failed ⟨.persistenceSaveFailed, "log full"⟩)] ∧
      (recordPartitionBatch (plainDeps true false)
        (plainEvents (.error ⟨.persistenceSaveFailed, "log full"⟩)) plainState
        [⟨"i", 0, .delete, "d", none⟩]).1.memory = [0] ∧
      (recordPartitionBatch (plainDeps true false)
        (plainEvents (.error ⟨.persistenceSaveFailed, "log full"⟩)) plainState
        [⟨"i", 0, .delete, "d", none⟩]).1.partition.failed = none) ∧
    ((recordPartitionBatch (plainDeps true true) (plainEvents (.ok none)) plainState
        [⟨"i", 0, .delete, "d", none⟩]).2 = [some (.ok 5)] ∧
      (recordPartitionBatch (plainDeps true true) (plainEvents (.ok none)) plainState
        [⟨"i", 0, .delete, "d", none⟩]).1.partition.committed = 0) ∧
    ((recordPartitionBatch (plainDeps true false)
        { plainEvents (.ok none) with appendFails := some (⟨.persistenceSaveFailed, "disk full"⟩, 1) }
        plainState [⟨"i", 0, .delete, "d", none⟩, ⟨"i", 0, .delete, "e", none⟩]).2
          = List.replicate 2 (some (.failed ⟨.persistenceSaveFailed, "disk full"⟩)) ∧
      (recordPartitionBatch (plainDeps true false)
        { plainEvents (.ok none) with appendFails := some (⟨.persistenceSaveFailed, "disk full"⟩, 1) }
        plainState [⟨"i", 0, .delete, "d", none⟩, ⟨"i", 0, .delete, "e", none⟩]).1.partition.appended.length
          = 1) :=
  ⟨⟨rfl, rfl, rfl⟩, ⟨rfl, rfl⟩, rfl, rfl⟩

theorem recordPartitionBatch_agrees_plain :
    BatchAgrees (plainDeps true false) (plainEvents (.ok none)) plainState
      [⟨"i", 0, .delete, "d", none⟩]
      (recordPartitionBatch (plainDeps true false) (plainEvents (.ok none)) plainState
        [⟨"i", 0, .delete, "d", none⟩]).1
      (recordPartitionBatch (plainDeps true false) (plainEvents (.ok none)) plainState
        [⟨"i", 0, .delete, "d", none⟩]).2 :=
  recordPartitionBatch_agrees (plainDeps true false) (plainEvents (.ok none)) plainState
    [⟨"i", 0, .delete, "d", none⟩] (.fresh 4 1 [])

end Narsil.Durability
