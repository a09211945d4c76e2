import Narsil.Durability.MutationBatch

/-!
# Memory and log after a batch

What each loop of a batch leaves behind, and from it what the whole batch does:
which records are in memory, which entries in the log, and which outcomes say so.
-/
namespace Narsil.Durability

variable {μ : Type} {deps : PartitionBatchDeps} {events : BatchEvents μ}

/-- Memory after the records at some places were applied in that order. -/
def applyAll (events : BatchEvents μ) (places : List Nat) (memory : μ) : Except NarsilError μ :=
  places.foldlM (fun memory i => events.apply i memory) memory

theorem applyAll_cons {i : Nat} {places : List Nat} {memory next final : μ}
    (first : events.apply i memory = .ok next) (others : applyAll events places next = .ok final) :
    applyAll events (i :: places) memory = .ok final := by
  rw [applyAll, List.foldlM_cons, first]
  exact others

/-- What the applying loop leaves: the records applied, in order, and a failure for
each of the others. -/
structure AppliedRecords (events : BatchEvents μ) (records : List (Nat × MutationRecord))
    (s s' : Applying μ) (taken : List (Nat × MutationRecord)) : Prop where
  applied : s'.applied = s.applied ++ taken
  sublist : taken.Sublist records
  memory : applyAll events (taken.map Prod.fst) s.memory = .ok s'.memory
  length : s'.outcomes.length = s.outcomes.length
  untouched : ∀ j, (j ∈ taken.map Prod.fst ∨ j ∉ records.map Prod.fst) →
    s'.outcomes[j]? = s.outcomes[j]?
  failed : ∀ j, j ∈ records.map Prod.fst → j ∉ taken.map Prod.fst → j < s.outcomes.length →
    ∃ error, s'.outcomes[j]? = some (some (.failed error))

theorem applyEach_spec (events : BatchEvents μ) (records : List (Nat × MutationRecord)) (s : Applying μ)
    (distinct : (records.map Prod.fst).Nodup) :
    ∃ taken, AppliedRecords events records s (applyEach events records s) taken := by
  induction records generalizing s with
  | nil =>
    exact ⟨[], by simp [applyEach], List.Sublist.refl _, rfl, rfl, fun _ _ => rfl,
      fun j isIn => by simp at isIn⟩
  | cons head rest ih =>
    obtain ⟨i, record⟩ := head
    obtain ⟨fresh, distinctRest⟩ := List.nodup_cons.mp distinct
    rw [applyEach]
    cases change : events.apply i s.memory with
    | ok memory =>
      obtain ⟨taken, spec⟩ := ih { s with memory, applied := s.applied ++ [(i, record)] } distinctRest
      refine ⟨(i, record) :: taken, by simp [spec.applied], spec.sublist.cons_cons _,
        applyAll_cons change spec.memory, spec.length, ?_, ?_⟩
      · intro j place
        by_cases same : j = i
        · exact spec.untouched j (.inr (same ▸ fresh))
        · apply spec.untouched j
          simpa [same] using place
      · intro j isIn notTaken
        simp only [List.map_cons, List.mem_cons, not_or] at isIn notTaken
        exact spec.failed j (isIn.resolve_left notTaken.1) notTaken.2
    | error error =>
      obtain ⟨taken, spec⟩ :=
        ih { s with outcomes := s.outcomes.set i (some (.failed error)) } distinctRest
      have absent : i ∉ taken.map Prod.fst := fun isIn =>
        fresh ((spec.sublist.map Prod.fst).subset isIn)
      refine ⟨taken, spec.applied, spec.sublist.cons _, spec.memory, ?_, ?_, ?_⟩
      · rw [spec.length, List.length_set]
      · intro j place
        have other : i ≠ j := by
          rintro rfl
          rcases place with isTaken | notListed
          · exact absent isTaken
          · exact notListed (by simp)
        rw [spec.untouched j, List.getElem?_set_ne other]
        rcases place with isTaken | notListed
        · exact .inl isTaken
        · exact .inr fun isIn => notListed (List.mem_cons_of_mem _ isIn)
      · intro j isIn notTaken within
        rcases List.mem_cons.mp isIn with rfl | later
        · refine ⟨error, ?_⟩
          rw [spec.untouched _ (.inr fresh), List.getElem?_set_self within]
        · exact spec.failed j later notTaken (by rwa [List.length_set])

/-- The entry of a record: as it was numbered by the environment, or with the next
number of the partition. -/
def EntryOf (deps : PartitionBatchDeps) (events : BatchEvents μ) (i : Nat) (record : MutationRecord)
    (entry : ReplicationLogEntry) : Prop :=
  events.numberEntry i = .ok (some entry) ∨
    events.numberEntry i = .ok none ∧ entry = buildMutationEntry deps.codec record entry.seqNo

/-- What the numbering loop leaves: the entries of the records it numbered, ascending. -/
structure NumberedRecords (deps : PartitionBatchDeps) (events : BatchEvents μ)
    (records : List (Nat × MutationRecord)) (s s' : Numbering) (thrown : Option NarsilError)
    (taken : List (Nat × ReplicationLogEntry)) : Prop where
  entries : s'.entries = s.entries ++ taken.map Prod.snd
  sublist : (taken.map Prod.fst).Sublist (records.map Prod.fst)
  made : ∀ p ∈ taken, ∃ record, (p.1, record) ∈ records ∧ EntryOf deps events p.1 record p.2
  ascending : (s.lastSeqNo :: taken.map fun p => p.2.seqNo).Pairwise (· < ·)
  owner : s'.lastSeqNo ≤ s'.seqOwner.current
  grows : s.lastSeqNo ≤ s'.lastSeqNo
  length : s'.outcomes.length = s.outcomes.length
  untouched : ∀ j, j ∉ records.map Prod.fst → s'.outcomes[j]? = s.outcomes[j]?
  numbered : ∀ p ∈ taken, p.1 < s.outcomes.length →
    s'.outcomes[p.1]? = some (some (.ok p.2.seqNo))
  refused : thrown = none → ∀ j ∈ records.map Prod.fst, j ∉ taken.map Prod.fst →
    j < s.outcomes.length →
    ∃ error, events.numberEntry j = .error error ∧ s'.outcomes[j]? = some (some (.failed error))
  deferred : s'.commitsHere = true ∨
    ∀ p ∈ taken, ∀ record, (p.1, record) ∈ records → deps.defersCommit record = true
  carried : s.commitsHere = true → s'.commitsHere = true

theorem numberEach_stop (s : Numbering) (records : List (Nat × MutationRecord))
    (thrown : Option NarsilError) (owner : s.lastSeqNo ≤ s.seqOwner.current)
    (finished : thrown = none → records = []) :
    NumberedRecords deps events records s s thrown [] where
  entries := by simp
  sublist := List.nil_sublist _
  made := by simp
  ascending := List.pairwise_singleton _ _
  owner := owner
  grows := Nat.le_refl _
  length := rfl
  untouched _ _ := rfl
  numbered := by simp
  refused none := by simp [finished none]
  deferred := .inr (by simp)
  carried := id

theorem NumberedRecords.push {i : Nat} {record : MutationRecord} {rest : List (Nat × MutationRecord)}
    {s s' : Numbering} {thrown : Option NarsilError} {taken : List (Nat × ReplicationLogEntry)}
    {entry : ReplicationLogEntry} {seqOwner : SeqOwner} (fresh : i ∉ rest.map Prod.fst)
    (made : EntryOf deps events i record entry) (above : s.lastSeqNo < entry.seqNo)
    (distinct : ∀ other, (i, other) ∈ (i, record) :: rest → other = record)
    (spec : NumberedRecords deps events rest (s.push deps i record entry seqOwner) s' thrown taken) :
    NumberedRecords deps events ((i, record) :: rest) s s' thrown ((i, entry) :: taken) := by
  have size : (s.push deps i record entry seqOwner).outcomes.length = s.outcomes.length :=
    List.length_set
  refine ⟨?_, spec.sublist.cons_cons i, ?_, ?_, spec.owner,
    Nat.le_trans (Nat.le_of_lt above) spec.grows, spec.length.trans size, ?_, ?_, ?_, ?_, ?_⟩
  · rw [spec.entries]
    simp [Numbering.push]
  · intro p isIn
    rcases List.mem_cons.mp isIn with rfl | later
    · exact ⟨record, by simp, made⟩
    · obtain ⟨other, listed, entryOf⟩ := spec.made p later
      exact ⟨other, List.mem_cons_of_mem _ listed, entryOf⟩
  · have rising : (entry.seqNo :: taken.map fun p => p.2.seqNo).Pairwise (· < ·) := spec.ascending
    rw [List.map_cons]
    refine List.pairwise_cons.mpr ⟨?_, rising⟩
    intro seqNo isIn
    rcases List.mem_cons.mp isIn with rfl | later
    · exact above
    · exact Nat.lt_trans above ((List.pairwise_cons.mp rising).1 seqNo later)
  · intro j absent
    simp only [List.map_cons, List.mem_cons, not_or] at absent
    rw [spec.untouched j absent.2]
    exact List.getElem?_set_ne (Ne.symm absent.1)
  · intro p isIn within
    rcases List.mem_cons.mp isIn with rfl | later
    · rw [spec.untouched _ fresh]
      exact List.getElem?_set_self within
    · exact spec.numbered p later (size ▸ within)
  · intro whole j isIn notTaken within
    simp only [List.map_cons, List.mem_cons, not_or] at isIn notTaken
    exact spec.refused whole j (isIn.resolve_left notTaken.1) notTaken.2 (size ▸ within)
  · rcases Bool.eq_false_or_eq_true (deps.defersCommit record) with defers | commits
    · rcases spec.deferred with here | all
      · exact .inl here
      · right
        intro p isIn other listed
        rcases List.mem_cons.mp isIn with rfl | later
        · rw [distinct other listed]
          exact defers
        · rcases List.mem_cons.mp listed with same | listed
          · have at_ : p.1 = i := congrArg Prod.fst same
            exact absurd (spec.sublist.subset (List.mem_map_of_mem later)) (at_ ▸ fresh)
          · exact all p later other listed
    · left
      exact spec.carried (by simp [Numbering.push, commits])
  · intro before
    exact spec.carried (by simp [Numbering.push, before])

theorem numberEach_spec (deps : PartitionBatchDeps) (events : BatchEvents μ)
    (records : List (Nat × MutationRecord)) (s : Numbering)
    (distinct : (records.map Prod.fst).Nodup) (owner : s.lastSeqNo ≤ s.seqOwner.current) :
    ∃ taken, NumberedRecords deps events records s (numberEach deps events records s).1
      (numberEach deps events records s).2 taken := by
  induction records generalizing s with
  | nil => exact ⟨[], numberEach_stop s [] none owner fun _ => rfl⟩
  | cons head rest ih =>
    obtain ⟨i, record⟩ := head
    obtain ⟨fresh, distinctRest⟩ := List.nodup_cons.mp distinct
    have alone : ∀ other, (i, other) ∈ (i, record) :: rest → other = record := by
      intro other listed
      rcases List.mem_cons.mp listed with same | later
      · exact congrArg Prod.snd same
      · exact absurd (List.mem_map_of_mem later) fresh
    rw [numberEach]
    cases numbering : events.numberEntry i with
    | error error =>
      obtain ⟨taken, spec⟩ :=
        ih { s with outcomes := s.outcomes.set i (some (.failed error)) } distinctRest owner
      have absent : i ∉ taken.map Prod.fst := fun isIn => fresh (spec.sublist.subset isIn)
      refine ⟨taken, spec.entries, spec.sublist.cons _, ?_, spec.ascending, spec.owner,
        spec.grows, by rw [spec.length, List.length_set], ?_, ?_, ?_, ?_, spec.carried⟩
      · intro p isIn
        obtain ⟨other, listed, entryOf⟩ := spec.made p isIn
        exact ⟨other, List.mem_cons_of_mem _ listed, entryOf⟩
      · intro j notListed
        simp only [List.map_cons, List.mem_cons, not_or] at notListed
        rw [spec.untouched j notListed.2]
        exact List.getElem?_set_ne (Ne.symm notListed.1)
      · intro p isIn within
        exact spec.numbered p isIn (by rwa [List.length_set])
      · intro whole j isIn notTaken within
        rcases List.mem_cons.mp isIn with rfl | later
        · refine ⟨error, numbering, ?_⟩
          rw [spec.untouched _ fresh]
          exact List.getElem?_set_self within
        · exact spec.refused whole j later notTaken (by rwa [List.length_set])
      · rcases spec.deferred with here | all
        · exact .inl here
        · right
          intro p isIn other listed
          rcases List.mem_cons.mp listed with same | listed
          · have at_ : p.1 = i := congrArg Prod.fst same
            exact absurd (List.mem_map_of_mem isIn) (at_ ▸ absent)
          · exact all p isIn other listed
    | ok numbered =>
      cases numbered with
      | none =>
        have above : s.lastSeqNo < s.seqOwner.current + 1 := Nat.lt_succ_of_le owner
        obtain ⟨taken, spec⟩ := ih (s.push deps i record
          (buildMutationEntry deps.codec record (s.seqOwner.current + 1))
          { s.seqOwner with current := s.seqOwner.current + 1 }) distinctRest (Nat.le_refl _)
        exact ⟨_, spec.push fresh (.inr ⟨numbering, rfl⟩) above alone⟩
      | some entry =>
        by_cases above : entry.seqNo > s.lastSeqNo
        · obtain ⟨taken, spec⟩ := ih (s.push deps i record entry ⟨entry.seqNo, entry.primaryTerm⟩)
            distinctRest (Nat.le_refl _)
          simp only [requireAscendingSeqNo, if_pos above]
          exact ⟨_, spec.push fresh (.inl numbering) above alone⟩
        · simp only [requireAscendingSeqNo, if_neg above]
          exact ⟨[], numberEach_stop s _ _ owner (by simp)⟩

def OkAt (outcomes : Outcomes) (i seqNo : Nat) : Prop := outcomes[i]? = some (some (.ok seqNo))

/-- How memory, log and outcomes stand to each other after a batch. -/
structure BatchAgrees (deps : PartitionBatchDeps) (events : BatchEvents μ) (s : ManagerState μ)
    (records : List MutationRecord) (s' : ManagerState μ) (outcomes : Outcomes) : Prop where
  answered : outcomes.length = records.length ∧ none ∉ outcomes
  /-- What was appended, each entry with the place of its record: a record's outcome is
  ok exactly where its entry was appended and the partition did not fail. -/
  log : ∃ taken : List (Nat × ReplicationLogEntry),
    s'.partition.appended = s.partition.appended ++ taken.map Prod.snd ∧
    (taken.map Prod.fst).Pairwise (· < ·) ∧
    (∀ p ∈ taken, ∃ record, records[p.1]? = some record ∧ EntryOf deps events p.1 record p.2) ∧
    (s.partition.appliedSeqNo :: taken.map fun p => p.2.seqNo).Pairwise (· < ·) ∧
    ∀ i seqNo, OkAt outcomes i seqNo ↔
      s'.partition.failed = none ∧ ∃ entry, (i, entry) ∈ taken ∧ entry.seqNo = seqNo
  /-- In sync mode an ok outcome means committed, unless every such record defers it. -/
  durable : deps.syncEachBatch = true → ∀ i seqNo, OkAt outcomes i seqNo →
    s'.partition.committed = s'.partition.appended.length ∨
    ∀ j other record, OkAt outcomes j other → records[j]? = some record →
      deps.defersCommit record = true
  /-- Memory holds the records with an ok outcome and those whose numbering was refused. -/
  memory : ∃ kept : List Nat, kept.Pairwise (· < ·) ∧
    applyAll events kept s.memory = .ok s'.memory ∧
    (∀ i seqNo, OkAt outcomes i seqNo → i ∈ kept) ∧
    ∀ i ∈ kept, s'.partition.failed = none →
      (∃ seqNo, OkAt outcomes i seqNo) ∨ ∃ error, events.numberEntry i = .error error
  owner : s'.partition.appliedSeqNo ≤ s'.partition.seqOwner.current

theorem not_okAt_failed (outcomes : Outcomes) (error : NarsilError) (i seqNo : Nat) :
    ¬ OkAt (failUnlessAlreadyFailed outcomes error) i seqNo := by
  intro ok
  rw [OkAt, failUnlessAlreadyFailed, List.getElem?_map] at ok
  cases here : outcomes[i]? with
  | none => rw [here] at ok; cases ok
  | some outcome =>
    rw [here, Option.map_some] at ok
    split at ok <;> cases ok

theorem answered_failed (outcomes : Outcomes) (error : NarsilError) :
    (failUnlessAlreadyFailed outcomes error).length = outcomes.length ∧
      none ∉ failUnlessAlreadyFailed outcomes error := by
  refine ⟨List.length_map _, ?_⟩
  intro isIn
  obtain ⟨outcome, -, same⟩ := List.mem_map.mp isIn
  split at same <;> cases same

theorem BatchAgrees.of_failed {s s' : ManagerState μ} {records : List MutationRecord}
    {outcomes : Outcomes} {error : NarsilError} (taken : List (Nat × ReplicationLogEntry))
    (kept : List Nat) (length : outcomes.length = records.length)
    (appended : s'.partition.appended = s.partition.appended ++ taken.map Prod.snd)
    (places : (taken.map Prod.fst).Pairwise (· < ·))
    (made : ∀ p ∈ taken, ∃ record, records[p.1]? = some record ∧ EntryOf deps events p.1 record p.2)
    (ascending : (s.partition.appliedSeqNo :: taken.map fun p => p.2.seqNo).Pairwise (· < ·))
    (keptPlaces : kept.Pairwise (· < ·))
    (memory : applyAll events kept s.memory = .ok s'.memory)
    (failed : s'.partition.failed = none → taken = [] ∧ kept = [])
    (owner : s'.partition.appliedSeqNo ≤ s'.partition.seqOwner.current) :
    BatchAgrees deps events s records s' (failUnlessAlreadyFailed outcomes error) := by
  obtain ⟨size, set⟩ := answered_failed outcomes error
  have noOk := not_okAt_failed outcomes error
  refine ⟨⟨size.trans length, set⟩, ⟨taken, appended, places, made, ascending, ?_⟩, ?_,
    ⟨kept, keptPlaces, memory, ?_, ?_⟩, owner⟩
  · intro i seqNo
    constructor
    · exact fun ok => absurd ok (noOk i seqNo)
    · rintro ⟨whole, entry, isIn, -⟩
      rw [(failed whole).1] at isIn
      cases isIn
  · exact fun _ i seqNo ok => absurd ok (noOk i seqNo)
  · exact fun i seqNo ok => absurd ok (noOk i seqNo)
  · intro i isIn whole
    rw [(failed whole).2] at isIn
    cases isIn

theorem placed_places (records : List MutationRecord) :
    (records.zipIdx.map Prod.swap).map Prod.fst = List.range records.length := by
  rw [List.map_map, List.range_eq_range']
  exact List.zipIdx_map_snd 0 records

theorem record_at {records : List MutationRecord} {i : Nat} {record : MutationRecord}
    (listed : (i, record) ∈ records.zipIdx.map Prod.swap) : records[i]? = some record := by
  obtain ⟨⟨other, j⟩, isIn, same⟩ := List.mem_map.mp listed
  cases same
  exact List.mem_zipIdx_iff_getElem?.mp isIn

theorem failPartition_spec (deps : PartitionBatchDeps) (s : ManagerState μ) (error : NarsilError) :
    ∃ failure, (failPartition deps s error).1.partition
        = { s.partition with failed := some failure } ∧
      (failPartition deps s error).1.memory = s.memory := by
  rw [failPartition]
  split
  next failure failed =>
    refine ⟨failure, ?_, rfl⟩
    obtain ⟨⟨appliedSeqNo, seqOwner, failed', appended, committed⟩, fatalError, memory⟩ := s
    simp only at failed
    simp only [failed]
  next => exact ⟨error, rfl, rfl⟩

theorem appendAll_spec (events : BatchEvents μ) (partition : PartitionState)
    (taken : List (Nat × ReplicationLogEntry)) :
    ∃ reached appended, (appendAll events partition (taken.map Prod.snd)).1
        = { partition with appended } ∧
      appended = partition.appended ++ (taken.take reached).map Prod.snd ∧
      ((appendAll events partition (taken.map Prod.snd)).2 = none → taken.take reached = taken) := by
  rw [appendAll]
  split
  next empty =>
    have nothing := List.map_eq_nil_iff.mp empty
    exact ⟨0, partition.appended, rfl, by simp, fun _ => by simp [nothing]⟩
  next =>
    cases events.appendFails with
    | none => exact ⟨taken.length, _, rfl, by simp, fun _ => List.take_length⟩
    | some failure =>
      refine ⟨failure.2, _, rfl, by simp [List.map_take], ?_⟩
      intro whole
      cases whole

theorem okAt_numbered {records : List MutationRecord} {applying : Applying μ}
    {applied : List (Nat × MutationRecord)} {s : ManagerState μ} {s0 s1 : Numbering}
    {taken : List (Nat × ReplicationLogEntry)}
    (applies : AppliedRecords events (records.zipIdx.map Prod.swap)
      ⟨s.memory, [], List.replicate records.length none⟩ applying applied)
    (outcomes : s0.outcomes = applying.outcomes)
    (numbers : NumberedRecords deps events applied s0 s1 none taken) :
    (s1.outcomes.length = records.length ∧ none ∉ s1.outcomes) ∧
    (∀ i seqNo, OkAt s1.outcomes i seqNo ↔ ∃ entry, (i, entry) ∈ taken ∧ entry.seqNo = seqNo) ∧
    ∀ i ∈ applied.map Prod.fst,
      (∃ seqNo, OkAt s1.outcomes i seqNo) ∨ ∃ error, events.numberEntry i = .error error := by
  have places := placed_places records
  have size0 : s0.outcomes.length = records.length := by
    rw [outcomes, applies.length, List.length_replicate]
  have size : s1.outcomes.length = records.length := numbers.length.trans size0
  have within : ∀ i ∈ applied.map Prod.fst, i < records.length := by
    intro i isIn
    have := (applies.sublist.map Prod.fst).subset isIn
    rwa [places, List.mem_range] at this
  -- Every place was numbered, refused its number, or was never applied.
  have each : ∀ i, i < records.length →
      (∃ entry, (i, entry) ∈ taken ∧ s1.outcomes[i]? = some (some (.ok entry.seqNo))) ∨
      (∃ error, s1.outcomes[i]? = some (some (.failed error)) ∧
        (i ∈ applied.map Prod.fst → ∃ refusal, events.numberEntry i = .error refusal)) := by
    intro i inside
    by_cases isTaken : i ∈ taken.map Prod.fst
    · obtain ⟨⟨j, entry⟩, isIn, rfl⟩ := List.mem_map.mp isTaken
      exact .inl ⟨entry, isIn, numbers.numbered _ isIn (size0 ▸ inside)⟩
    · right
      by_cases isApplied : i ∈ applied.map Prod.fst
      · obtain ⟨error, refused, outcome⟩ :=
          numbers.refused rfl i isApplied isTaken (size0 ▸ inside)
        exact ⟨error, outcome, fun _ => ⟨error, refused⟩⟩
      · obtain ⟨error, outcome⟩ := applies.failed i (by rw [places]; exact List.mem_range.mpr inside)
          isApplied (by rw [List.length_replicate]; exact inside)
        refine ⟨error, ?_, fun isIn => absurd isIn isApplied⟩
        rw [numbers.untouched i isApplied, outcomes, outcome]
  refine ⟨⟨size, ?_⟩, ?_, ?_⟩
  · intro isIn
    obtain ⟨i, inside, here⟩ := List.mem_iff_getElem.mp isIn
    have here : s1.outcomes[i]? = some none := List.getElem?_eq_some_iff.mpr ⟨inside, here⟩
    rcases each i (size ▸ inside) with ⟨entry, -, outcome⟩ | ⟨error, outcome, -⟩
    · rw [outcome] at here; cases here
    · rw [outcome] at here; cases here
  · intro i seqNo
    constructor
    · intro ok
      have inside := (List.getElem?_eq_some_iff.mp ok).1
      rcases each i (size ▸ inside) with ⟨entry, isIn, outcome⟩ | ⟨error, outcome, -⟩
      · rw [OkAt, outcome] at ok
        cases ok
        exact ⟨entry, isIn, rfl⟩
      · rw [OkAt, outcome] at ok
        cases ok
    · rintro ⟨entry, isIn, rfl⟩
      have inside := within i (numbers.sublist.subset (List.mem_map_of_mem isIn))
      exact numbers.numbered _ isIn (size0 ▸ inside)
  · intro i isApplied
    rcases each i (within i isApplied) with ⟨entry, -, outcome⟩ | ⟨error, -, refused⟩
    · exact .inl ⟨entry.seqNo, outcome⟩
    · exact .inr (refused isApplied)

end Narsil.Durability
