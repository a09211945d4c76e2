import Narsil.Replication.LocalReplication
import Narsil.Durability.MemoryAndLog

/-!
# What the engine takes of a run

The engine applies the leading entries it accepts and notes each of them once.
With a durable log the answer counts all of them, or none where the log refused.
-/
namespace Narsil.Replication

open Durability

section
variable {σ : Type}

/-- The leading entries the index accepts, each applied to what the ones before it left. -/
def LocalEngine.applicable (engine : LocalEngine σ) (index : σ) :
    List ReplicationLogEntry → List ReplicationLogEntry
  | [] => []
  | entry :: rest =>
    match engine.applyEntry index entry with
    | .error _ => []
    | .ok next => entry :: engine.applicable next rest

/-- The index after entries were applied in order, each once. -/
def LocalEngine.applyAll (engine : LocalEngine σ) (index : σ) (entries : List ReplicationLogEntry) :
    Except NarsilError σ :=
  entries.foldlM engine.applyEntry index

/-- A partition that failed, or an engine with a fatal error, takes nothing. -/
def LocalEngine.refusesAll (engine : LocalEngine σ) (s : ManagerState (LocalIndex σ)) : Bool :=
  engine.durable.isSome && (s.fatalError.isSome || s.partition.failed.isSome)

/-- What the engine applies of a run it is given. -/
def LocalEngine.applies (engine : LocalEngine σ) (s : ManagerState (LocalIndex σ))
    (entries : List ReplicationLogEntry) : List ReplicationLogEntry :=
  if engine.refusesAll s then [] else engine.applicable s.memory.index entries

/-- The disk takes the applied entries: the append succeeds and, where every batch is
synced, so do the commit, unless every record defers it, and the check of the directory. -/
def DiskTakes (engine : LocalEngine σ) (disk : DiskEvents) (applied : List ReplicationLogEntry) :
    Prop :=
  ∀ deps, engine.durable = some deps → disk.appendFails = none ∧
    (deps.syncEachBatch = true → disk.directoryLost = none ∧
      (disk.commitFails = none ∨ ∀ entry ∈ applied, deps.defersCommit (mutationRecord entry) = true))

variable {engine : LocalEngine σ}

theorem applicable_front (index : σ) (entries : List ReplicationLogEntry) :
    engine.applicable index entries <+: entries := by
  induction entries generalizing index with
  | nil => exact List.prefix_rfl
  | cons entry rest ih =>
    rw [LocalEngine.applicable]
    split
    · exact List.nil_prefix
    next next _ => exact List.cons_prefix_cons.mpr ⟨rfl, ih next⟩

theorem applicable_spec (index : σ) (entries : List ReplicationLogEntry) :
    ∃ last, engine.applyAll index (engine.applicable index entries) = .ok last ∧
      engine.applicable last (entries.drop (engine.applicable index entries).length) = [] := by
  induction entries generalizing index with
  | nil => exact ⟨index, rfl, rfl⟩
  | cons entry rest ih =>
    rw [LocalEngine.applicable]
    cases change : engine.applyEntry index entry with
    | error error => exact ⟨index, rfl, by simp [LocalEngine.applicable, change]⟩
    | ok next =>
      obtain ⟨last, applied, refused⟩ := ih next
      refine ⟨last, ?_, refused⟩
      rw [LocalEngine.applyAll, List.foldlM_cons, change]
      exact applied

theorem applyAndNote_ok {s : LocalIndex σ} {entry : ReplicationLogEntry} {next : σ}
    (change : engine.applyEntry s.index entry = .ok next) :
    engine.applyAndNote s entry = .ok ⟨next, s.written ++ [entry]⟩ := by
  rw [LocalEngine.applyAndNote, change]
  rfl

theorem applyAndNote_error {s : LocalIndex σ} {entry : ReplicationLogEntry} {error : NarsilError}
    (change : engine.applyEntry s.index entry = .error error) :
    engine.applyAndNote s entry = .error error := by
  rw [LocalEngine.applyAndNote, change]
  rfl

theorem applyInOrder_spec (s : LocalIndex σ) (entries : List ReplicationLogEntry) :
    (engine.applyInOrder s entries).1.written
        = s.written ++ engine.applicable s.index entries ∧
      engine.applyAll s.index (engine.applicable s.index entries)
        = .ok (engine.applyInOrder s entries).1.index ∧
      (engine.applyInOrder s entries).2.applied = (engine.applicable s.index entries).length ∧
      ((engine.applyInOrder s entries).2.error = none ↔
        engine.applicable s.index entries = entries) := by
  induction entries generalizing s with
  | nil => exact ⟨by simp [LocalEngine.applyInOrder, LocalEngine.applicable], rfl, rfl, by
      simp [LocalEngine.applyInOrder, LocalEngine.applicable]⟩
  | cons entry rest ih =>
    rw [LocalEngine.applyInOrder, LocalEngine.applicable]
    cases change : engine.applyEntry s.index entry with
    | error error =>
      rw [applyAndNote_error change]
      exact ⟨by simp, rfl, rfl, by simp⟩
    | ok next =>
      rw [applyAndNote_ok change]
      obtain ⟨written, applied, count, error⟩ := ih ⟨next, s.written ++ [entry]⟩
      refine ⟨?_, ?_, ?_, ?_⟩
      · simpa using written
      · rw [LocalEngine.applyAll, List.foldlM_cons, change]
        exact applied
      · simp only [count, List.length_cons]
      · simp only [error, List.cons.injEq, true_and]

theorem applicable_take (index : σ) (entries : List ReplicationLogEntry) (count : Nat) :
    engine.applicable index (entries.take count) = (engine.applicable index entries).take count := by
  induction entries generalizing index count with
  | nil => simp [LocalEngine.applicable]
  | cons entry rest ih =>
    cases count with
    | zero => simp [LocalEngine.applicable]
    | succ count =>
      simp only [List.take_succ_cons, LocalEngine.applicable]
      cases change : engine.applyEntry index entry with
      | error error => simp
      | ok next => simp only [ih, List.take_succ_cons]

/-- Entries as the records of a batch, each with its place from `place` on. -/
def placedRecords (place : Nat) (entries : List ReplicationLogEntry) : List (Nat × MutationRecord) :=
  ((entries.map mutationRecord).zipIdx place).map Prod.swap

theorem placedRecords_cons (place : Nat) (entry : ReplicationLogEntry)
    (rest : List ReplicationLogEntry) : placedRecords place (entry :: rest)
      = (place, mutationRecord entry) :: placedRecords (place + 1) rest := rfl

theorem placedRecords_append (place : Nat) (entries others : List ReplicationLogEntry) :
    placedRecords place (entries ++ others)
      = placedRecords place entries ++ placedRecords (place + entries.length) others := by
  simp [placedRecords, List.zipIdx_append]

theorem placedRecords_places (place : Nat) (entries : List ReplicationLogEntry) :
    (placedRecords place entries).map Prod.fst = List.range' place entries.length := by
  induction entries generalizing place with
  | nil => rfl
  | cons entry rest ih => rw [placedRecords_cons, List.map_cons, ih]; rfl

theorem applyEach_append {μ : Type} (events : BatchEvents μ)
    (records others : List (Nat × MutationRecord)) (s : Applying μ) :
    applyEach events (records ++ others) s = applyEach events others (applyEach events records s) := by
  induction records generalizing s with
  | nil => rfl
  | cons head rest ih =>
    rw [List.cons_append, applyEach, applyEach]
    split <;> exact ih _

theorem applyEach_refused {μ : Type} (events : BatchEvents μ) (records : List (Nat × MutationRecord))
    (s : Applying μ) (refused : ∀ p ∈ records, ∃ error, events.apply p.1 s.memory = .error error) :
    (applyEach events records s).memory = s.memory ∧
      (applyEach events records s).applied = s.applied := by
  induction records generalizing s with
  | nil => exact ⟨rfl, rfl⟩
  | cons head rest ih =>
    obtain ⟨i, record⟩ := head
    obtain ⟨error, here⟩ := refused (i, record) List.mem_cons_self
    have later := ih { s with outcomes := s.outcomes.set i (some (.failed error)) }
      fun p isIn => refused p (List.mem_cons_of_mem _ isIn)
    rw [applyEach, here]
    exact later

theorem applyInOrder_append (s : LocalIndex σ) (entries others : List ReplicationLogEntry)
    (whole : (engine.applyInOrder s entries).2.error = none) :
    (engine.applyInOrder s (entries ++ others)).1
      = (engine.applyInOrder (engine.applyInOrder s entries).1 others).1 := by
  induction entries generalizing s with
  | nil => rfl
  | cons entry rest ih =>
    rw [LocalEngine.applyInOrder] at whole
    rw [List.cons_append, LocalEngine.applyInOrder, LocalEngine.applyInOrder]
    cases change : engine.applyAndNote s entry with
    | error error => rw [change] at whole; cases whole
    | ok next =>
      rw [change] at whole
      exact ih next whole

theorem applyEach_accepted (disk : DiskEvents) (start : LocalIndex σ)
    (entries before accepted after : List ReplicationLogEntry) (acc : List (Nat × MutationRecord))
    (outcomes : Outcomes) (whole : entries = before ++ accepted ++ after)
    (accepts : engine.applicable start.index (before ++ accepted) = before ++ accepted) :
    applyEach (engine.batchEvents disk start entries) (placedRecords before.length accepted)
        ⟨(engine.applyInOrder start before).1, acc, outcomes⟩
      = ⟨(engine.applyInOrder start (before ++ accepted)).1,
          acc ++ placedRecords before.length accepted, outcomes⟩ := by
  induction accepted generalizing before acc with
  | nil => simp [placedRecords, applyEach]
  | cons entry rest ih =>
    have done : ∀ front, front <+: before ++ entry :: rest →
        (engine.applyInOrder start front).2.error = none := by
      intro front isPrefix
      apply (applyInOrder_spec start front).2.2.2.mpr
      rw [List.prefix_iff_eq_take.mp isPrefix, applicable_take, accepts]
    have here : (engine.batchEvents disk start entries).apply before.length
        (engine.applyInOrder start before).1
          = .ok (engine.applyInOrder start (before ++ [entry])).1 := by
      have front : entries.take before.length = before := by
        rw [whole, List.append_assoc, List.take_left']
        rfl
      have at_ : entries[before.length]? = some entry := by
        rw [whole, List.append_assoc, List.getElem?_append_right (Nat.le_refl _), Nat.sub_self]
        rfl
      change engine.applyAt start entries before.length _ = _
      rw [LocalEngine.applyAt, front, done before (List.prefix_append _ _), at_,
        applyInOrder_append start before [entry] (done before (List.prefix_append _ _))]
      have last := done (before ++ [entry]) ⟨rest, by simp⟩
      cases change : engine.applyAndNote (engine.applyInOrder start before).1 entry with
      | ok next => simp only [LocalEngine.applyInOrder, change]
      | error error =>
        -- A failure here would have ended the loop over the longer prefix.
        have stopped : (engine.applicable start.index (before ++ [entry])).length
            = before.length := by
          have := applyInOrder_append start before [entry] (done before (List.prefix_append _ _))
          rw [LocalEngine.applyInOrder, change] at this
          have written := (@applyInOrder_spec _ engine start (before ++ [entry])).1
          rw [this, (@applyInOrder_spec _ engine start before).1] at written
          have same := (@applyInOrder_spec _ engine start before).2.2.2.mp
            (done before (List.prefix_append _ _))
          rw [same] at written
          rw [← List.append_cancel_left written]
        have full := (@applyInOrder_spec _ engine start (before ++ [entry])).2.2.2.mp last
        rw [full] at stopped
        simp at stopped
    rw [placedRecords_cons, applyEach, here]
    have later := ih (before ++ [entry]) (acc ++ [(before.length, mutationRecord entry)])
      (by rw [whole]; simp) (by simpa using accepts)
    simpa using later

theorem applyAt_refused (start : LocalIndex σ) (entries : List ReplicationLogEntry) (place : Nat)
    (past : (engine.applicable start.index entries).length ≤ place) (within : place < entries.length) :
    ∃ error, engine.applyAt start entries place
      (engine.applyInOrder start (engine.applicable start.index entries)).1 = .error error := by
  obtain ⟨last, applied, refused⟩ := @applicable_spec _ engine start.index entries
  generalize taken : engine.applicable start.index entries = accepted at *
  have isPrefix : accepted <+: entries := taken ▸ applicable_front start.index entries
  rw [LocalEngine.applyAt]
  rcases Nat.eq_or_lt_of_le past with rfl | later
  · -- The first refused entry: none before it failed, and it does.
    have front : entries.take accepted.length = accepted :=
      (List.prefix_iff_eq_take.mp isPrefix).symm
    have accepts : engine.applicable start.index accepted = accepted := by
      have cut := @applicable_take _ engine start.index entries accepted.length
      rwa [front, taken, List.take_length] at cut
    have whole := (@applyInOrder_spec _ engine start accepted).2.2.2.mpr accepts
    have reached := (@applyInOrder_spec _ engine start accepted).2.1
    rw [accepts, applied] at reached
    have index := Except.ok.inj reached
    rw [front, whole, List.getElem?_eq_getElem within]
    have next : engine.applicable last (entries[accepted.length] :: entries.drop (accepted.length + 1))
        = [] := by rwa [← List.drop_eq_getElem_cons]
    rw [LocalEngine.applicable] at next
    cases change : engine.applyEntry last entries[accepted.length] with
    | ok next' => rw [change] at next; cases next
    | error error => exact ⟨error, applyAndNote_error (index ▸ change)⟩
  · -- A later one: the failure of the first refused entry is thrown again.
    have stopped : (engine.applyInOrder start (entries.take place)).2.error ≠ none := by
      intro none
      have full := (@applyInOrder_spec _ engine start (entries.take place)).2.2.2.mp none
      rw [applicable_take, taken] at full
      have count := congrArg List.length full
      simp only [List.length_take] at count
      omega
    obtain ⟨error, here⟩ := Option.ne_none_iff_exists'.mp stopped
    exact ⟨error, by rw [here]⟩

theorem applyEach_replicated (disk : DiskEvents) (start : LocalIndex σ)
    (entries : List ReplicationLogEntry) (outcomes : Outcomes) :
    (applyEach (engine.batchEvents disk start entries) (placedRecords 0 entries)
        ⟨start, [], outcomes⟩).memory
        = (engine.applyInOrder start (engine.applicable start.index entries)).1 ∧
      (applyEach (engine.batchEvents disk start entries) (placedRecords 0 entries)
        ⟨start, [], outcomes⟩).applied
        = placedRecords 0 (engine.applicable start.index entries) := by
  obtain ⟨after, whole⟩ := @applicable_front _ engine start.index entries
  generalize taken : engine.applicable start.index entries = accepted at *
  have accepts : engine.applicable start.index accepted = accepted := by
    have cut := @applicable_take _ engine start.index entries accepted.length
    rwa [← whole, List.take_left, whole, taken, List.take_length] at cut
  have front := applyEach_accepted disk start entries [] accepted after [] outcomes
    (by rw [← whole]; rfl) (by simpa using accepts)
  have split : placedRecords 0 entries
      = placedRecords 0 accepted ++ placedRecords accepted.length after := by
    rw [← whole, placedRecords_append, Nat.zero_add]
  simp only [List.length_nil, List.nil_append, LocalEngine.applyInOrder] at front
  rw [split, applyEach_append, front]
  apply applyEach_refused
  intro p isIn
  have place : p.1 ∈ (placedRecords accepted.length after).map Prod.fst := List.mem_map_of_mem isIn
  rw [placedRecords_places, List.mem_range'_1] at place
  have refused := @applyAt_refused _ engine start entries p.1 (by rw [taken]; exact place.1)
    (by rw [← whole, List.length_append]; exact place.2)
  rwa [taken] at refused

/-- What numbering replicated entries leaves: each under the number it came with. -/
structure NumberedAsTheyCame (deps : PartitionBatchDeps) (place : Nat)
    (taken : List ReplicationLogEntry) (s s' : Numbering) : Prop where
  entries : s'.entries = s.entries ++ taken
  commits : s'.commitsHere = true ↔
    s.commitsHere = true ∨ ∃ entry ∈ taken, deps.defersCommit (mutationRecord entry) = false
  ok : ∀ i, place ≤ i → i < place + taken.length → i < s.outcomes.length →
    ∃ seqNo, OkAt s'.outcomes i seqNo
  untouched : ∀ i, i < place ∨ place + taken.length ≤ i → s'.outcomes[i]? = s.outcomes[i]?

theorem numberEach_replicated (deps : PartitionBatchDeps) (disk : DiskEvents) (start : LocalIndex σ)
    (entries before taken after : List ReplicationLogEntry) (s : Numbering)
    (whole : entries = before ++ taken ++ after)
    (ascending : (s.lastSeqNo :: taken.map ReplicationLogEntry.seqNo).Pairwise (· < ·)) :
    ∃ s', numberEach deps (engine.batchEvents disk start entries) (placedRecords before.length taken) s
        = (s', none) ∧ NumberedAsTheyCame deps before.length taken s s' := by
  induction taken generalizing before s with
  | nil =>
    refine ⟨s, rfl, by simp, by simp, ?_, fun _ _ => rfl⟩
    intro i low high
    simp only [List.length_nil] at high
    omega
  | cons entry rest ih =>
    have here : (engine.batchEvents disk start entries).numberEntry before.length
        = .ok (some entry) := by
      change Except.ok entries[before.length]? = _
      rw [whole, List.append_assoc, List.getElem?_append_right (Nat.le_refl _), Nat.sub_self]
      rfl
    have above := (List.pairwise_cons.mp ascending).1 entry.seqNo (by simp)
    rw [placedRecords_cons, numberEach, here]
    simp only [requireAscendingSeqNo, if_pos above]
    obtain ⟨s', numbered, later⟩ := ih (before ++ [entry]) (s.push deps before.length
      (mutationRecord entry) entry ⟨entry.seqNo, entry.primaryTerm⟩) (by rw [whole]; simp)
      (List.pairwise_cons.mp ascending).2
    rw [List.length_append, List.length_singleton] at numbered later
    refine ⟨s', numbered, ?_, ?_, ?_, ?_⟩
    · rw [later.entries]
      simp [Numbering.push]
    · rw [later.commits]
      cases defers : deps.defersCommit (mutationRecord entry) <;> simp [Numbering.push, defers]
    · intro i low high within
      rcases Nat.eq_or_lt_of_le low with rfl | past
      · refine ⟨entry.seqNo, ?_⟩
        rw [OkAt, later.untouched _ (.inl (Nat.lt_succ_self _))]
        exact List.getElem?_set_self within
      · rw [List.length_cons] at high
        exact later.ok i past (by omega) (by simpa [Numbering.push] using within)
    · intro i outside
      rw [List.length_cons] at outside
      rw [later.untouched i (by omega)]
      exact List.getElem?_set_ne (by omega)

/-- The append and the commit of a batch succeed, unless every record defers the commit. -/
def RecordsDurably (deps : PartitionBatchDeps) (disk : DiskEvents)
    (applied : List ReplicationLogEntry) : Prop :=
  disk.appendFails = none ∧ (deps.syncEachBatch = true →
    disk.commitFails = none ∨ ∀ entry ∈ applied, deps.defersCommit (mutationRecord entry) = true)

/-- What recording a batch of replicated entries in a healthy partition does: memory has
the accepted entries, and their outcomes are ok where the batch is recorded durably. -/
theorem recordPartitionBatch_replicated (deps : PartitionBatchDeps) (disk : DiskEvents)
    (s s' : ManagerState (LocalIndex σ)) (entries : List ReplicationLogEntry) (outcomes : Outcomes)
    (healthy : s.fatalError = none ∧ s.partition.failed = none)
    (recorded : recordPartitionBatch deps (engine.batchEvents disk s.memory entries) s
      (entries.map mutationRecord) = (s', outcomes)) :
    let accepted := engine.applicable s.memory.index entries
    (accepted = [] → s' = s ∧ ∀ i seqNo, ¬ OkAt outcomes i seqNo) ∧
    (accepted ≠ [] →
      (s.partition.appliedSeqNo :: accepted.map ReplicationLogEntry.seqNo).Pairwise (· < ·) →
      s'.memory = (engine.applyInOrder s.memory accepted).1 ∧
      (RecordsDurably deps disk accepted → (∀ i, i < accepted.length → ∃ seqNo, OkAt outcomes i seqNo) ∧
        (∀ seqNo, ¬ OkAt outcomes accepted.length seqNo) ∧ s'.fatalError = none) ∧
      (¬ RecordsDurably deps disk accepted → ∀ i seqNo, ¬ OkAt outcomes i seqNo)) := by
  intro accepted
  obtain ⟨⟨appliedSeqNo, seqOwner, failed, appended, committed⟩, fatalError, start⟩ := s
  obtain ⟨rfl, rfl⟩ : fatalError = none ∧ failed = none := healthy
  have places := placedRecords_places 0 entries
  obtain ⟨memory, applied⟩ := @applyEach_replicated _ engine disk start entries
    (List.replicate (entries.map mutationRecord).length none)
  obtain ⟨taken, applies⟩ := applyEach_spec (engine.batchEvents disk start entries)
    (placedRecords 0 entries) ⟨start, [], List.replicate (entries.map mutationRecord).length none⟩
    (by rw [places]; exact List.nodup_range')
  have same : taken = placedRecords 0 accepted := by
    have := applies.applied
    rw [applied] at this
    simpa using this.symm
  subst same
  rw [recordPartitionBatch, show ((entries.map mutationRecord).zipIdx.map Prod.swap)
    = placedRecords 0 entries from rfl] at recorded
  generalize applyEach (engine.batchEvents disk start entries) (placedRecords 0 entries)
    ⟨start, [], List.replicate (entries.map mutationRecord).length none⟩ = applying at *
  obtain ⟨memory', applied', outcomes'⟩ := applying
  obtain ⟨-, -, -, length, -, failed⟩ := applies
  simp only [List.length_replicate, List.length_map] at memory applied length failed
  subst memory applied
  -- Past the accepted entries every record failed when it was applied.
  have failedPast : ∀ i seqNo, accepted.length ≤ i → ¬ OkAt outcomes' i seqNo := by
    intro i seqNo past ok
    have within := (List.getElem?_eq_some_iff.mp ok).1
    obtain ⟨error, failed⟩ := failed i
      (by rw [places, List.mem_range'_1]; omega)
      (by rw [placedRecords_places, List.mem_range'_1]; omega) (length ▸ within)
    rw [OkAt, failed] at ok
    cases ok
  have isAccepted : engine.applicable start.index entries = accepted := rfl
  simp only [isAccepted] at recorded
  constructor
  · intro none
    rw [if_pos (by simp [none, placedRecords])] at recorded
    obtain ⟨rfl, rfl⟩ := Prod.mk.inj recorded
    refine ⟨by rw [none]; rfl, fun i seqNo => failedPast i seqNo (by simp [none])⟩
  · intro some ascending
    rw [if_neg (by
      intro empty
      have := congrArg List.length empty
      simp [placedRecords] at this
      exact some this)] at recorded
    obtain ⟨after, whole⟩ := @applicable_front _ engine start.index entries
    obtain ⟨numbering, numbered, came⟩ := @numberEach_replicated _ engine deps disk start entries []
      accepted after ⟨seqOwner, appliedSeqNo, [], outcomes', false⟩ whole.symm ascending
    rw [List.length_nil] at numbered came
    have entriesAre : numbering.entries = accepted := by simpa using came.entries
    have commits : numbering.commitsHere = true ↔
        ∃ entry ∈ accepted, deps.defersCommit (mutationRecord entry) = false := by
      simpa using came.commits
    have okBefore : ∀ i, i < accepted.length → ∃ seqNo, OkAt numbering.outcomes i seqNo := by
      intro i before
      apply came.ok i (Nat.zero_le i) (by omega)
      have count : accepted.length ≤ entries.length :=
        (@applicable_front _ engine start.index entries).length_le
      simp only [length]
      omega
    have notPast : ∀ seqNo, ¬ OkAt numbering.outcomes accepted.length seqNo := by
      intro seqNo ok
      rw [OkAt, came.untouched _ (.inr (by omega))] at ok
      exact failedPast _ seqNo (Nat.le_refl _) ok
    have failing : ∀ (partition : PartitionState) (error : NarsilError),
        (failPartition deps (⟨partition, none, (engine.applyInOrder start accepted).1⟩ :
          ManagerState (LocalIndex σ)) error).1.memory = (engine.applyInOrder start accepted).1 := by
      intro partition error
      obtain ⟨_, -, memory⟩ := failPartition_spec deps
        (⟨partition, none, (engine.applyInOrder start accepted).1⟩ : ManagerState (LocalIndex σ)) error
      exact memory
    rw [numbered] at recorded
    simp only [entriesAre, appendAll, if_neg some] at recorded
    simp only [LocalEngine.batchEvents] at recorded
    cases appends : disk.appendFails with
    | some failure =>
      rw [appends] at recorded
      obtain ⟨rfl, rfl⟩ := Prod.mk.inj recorded
      refine ⟨failing _ _, fun durable => absurd durable.1 (by simp [appends]), fun _ => ?_⟩
      exact not_okAt_failed _ _
    | none =>
      rw [appends] at recorded
      simp only at recorded
      have committing : (deps.syncEachBatch && decide (accepted.length > 0) && numbering.commitsHere)
          = true ↔ deps.syncEachBatch = true ∧
            ∃ entry ∈ accepted, deps.defersCommit (mutationRecord entry) = false := by
        have := List.length_pos_of_ne_nil some
        simp [this, commits]
      split at recorded
      next here =>
        obtain ⟨synced, entry, isIn, prompt⟩ := committing.mp here
        cases commitFails : disk.commitFails with
        | some error =>
          rw [commitFails] at recorded
          obtain ⟨rfl, rfl⟩ := Prod.mk.inj recorded
          refine ⟨failing _ _, fun durable => ?_, fun _ => not_okAt_failed _ _⟩
          rcases durable.2 synced with whole | deferred
          · rw [commitFails] at whole
            cases whole
          · rw [deferred entry isIn] at prompt
            cases prompt
        | none =>
          rw [commitFails] at recorded
          obtain ⟨rfl, rfl⟩ := Prod.mk.inj recorded
          exact ⟨rfl, fun _ => ⟨okBefore, notPast, rfl⟩,
            fun refused => absurd ⟨appends, fun _ => .inl commitFails⟩ refused⟩
      next elsewhere =>
        obtain ⟨rfl, rfl⟩ := Prod.mk.inj recorded
        refine ⟨rfl, fun _ => ⟨okBefore, notPast, rfl⟩, fun refused => absurd ⟨appends, ?_⟩ refused⟩
        intro synced
        right
        intro entry isIn
        by_contra prompt
        exact elsewhere (committing.mpr ⟨synced, entry, isIn, by simpa using prompt⟩)

theorem countApplied_eq (count : Nat) (outcomes : Outcomes)
    (ok : ∀ i, i < count → ∃ seqNo, OkAt outcomes i seqNo)
    (stops : ∀ seqNo, ¬ OkAt outcomes count seqNo) : (countApplied outcomes).applied = count := by
  induction count generalizing outcomes with
  | zero =>
    match outcomes with
    | [] => rfl
    | none :: rest => rfl
    | some (.failed error) :: rest => rfl
    | some (.ok seqNo) :: rest => exact absurd rfl (stops seqNo)
  | succ count ih =>
    obtain ⟨seqNo, first⟩ := ok 0 (Nat.zero_lt_succ _)
    match outcomes with
    | [] => cases first
    | none :: rest => cases first
    | some (.failed error) :: rest => cases first
    | some (.ok seqNo) :: rest =>
      have later := ih rest (fun i before => ok (i + 1) (Nat.succ_lt_succ before)) stops
      simp only [countApplied, later]

theorem any_isOk_iff (outcomes : Outcomes) :
    outcomes.any isOk = true ↔ ∃ i seqNo, OkAt outcomes i seqNo := by
  rw [List.any_eq_true]
  constructor
  · rintro ⟨outcome, isIn, ok⟩
    obtain ⟨i, here⟩ := List.mem_iff_getElem?.mp isIn
    match outcome, ok with
    | some (.ok seqNo), _ => exact ⟨i, seqNo, here⟩
  · rintro ⟨i, seqNo, ok⟩
    exact ⟨_, List.mem_of_getElem? ok, rfl⟩

theorem recordMutations_refused (deps : PartitionBatchDeps) (disk : DiskEvents)
    (events : BatchEvents (LocalIndex σ)) (s : ManagerState (LocalIndex σ))
    (records : List MutationRecord)
    (refuses : (s.fatalError.isSome || s.partition.failed.isSome) = true) :
    (recordMutations deps disk events s records).1 = s ∧
      (countApplied (recordMutations deps disk events s records).2).applied = 0 := by
  rw [recordMutations]
  cases fatal : s.fatalError with
  | some error =>
    refine ⟨rfl, countApplied_eq 0 _ (by simp) ?_⟩
    intro seqNo ok
    cases records <;> cases ok
  | none =>
    obtain ⟨failure, failed⟩ := Option.isSome_iff_exists.mp (by simpa [fatal] using refuses)
    have recorded : recordPartitionBatch deps events s records
        = (s, failUnlessAlreadyFailed (List.replicate records.length none) failure) := by
      rw [recordPartitionBatch, fatal, failed]
    have noOk := not_okAt_failed (List.replicate records.length none) failure
    have nothing : (failUnlessAlreadyFailed (List.replicate records.length none) failure).any isOk
        = false := by
      rw [Bool.eq_false_iff, ne_eq, any_isOk_iff]
      rintro ⟨i, seqNo, ok⟩
      exact noOk i seqNo ok
    simp only [recorded, nothing]
    exact ⟨rfl, countApplied_eq 0 _ (by simp) (noOk 0)⟩

theorem recordMutations_replicated (deps : PartitionBatchDeps) (disk : DiskEvents)
    (s : ManagerState (LocalIndex σ)) (entries : List ReplicationLogEntry)
    (healthy : s.fatalError = none ∧ s.partition.failed = none)
    (accepted : List ReplicationLogEntry) (isAccepted : engine.applicable s.memory.index entries = accepted)
    (ascending : accepted ≠ [] →
      (s.partition.appliedSeqNo :: accepted.map ReplicationLogEntry.seqNo).Pairwise (· < ·))
    (s' : ManagerState (LocalIndex σ)) (outcomes : Outcomes)
    (recorded : recordMutations deps disk (engine.batchEvents disk s.memory entries) s
      (entries.map mutationRecord) = (s', outcomes)) :
    (accepted = [] → s' = s ∧ (countApplied outcomes).applied = 0) ∧
    (accepted ≠ [] → s'.memory = (engine.applyInOrder s.memory accepted).1 ∧
      (RecordsDurably deps disk accepted ∧ (deps.syncEachBatch = true → disk.directoryLost = none) →
        (countApplied outcomes).applied = accepted.length) ∧
      (¬ (RecordsDurably deps disk accepted ∧ (deps.syncEachBatch = true → disk.directoryLost = none)) →
        (countApplied outcomes).applied = 0)) := by
  rw [recordMutations, healthy.1] at recorded
  simp only at recorded
  cases batch : recordPartitionBatch deps (engine.batchEvents disk s.memory entries) s
    (entries.map mutationRecord) with
  | mk s1 outcomes1 =>
  have spec := recordPartitionBatch_replicated deps disk s s1 entries outcomes1 healthy batch
  rw [isAccepted] at spec
  obtain ⟨nothing, something⟩ := spec
  rw [batch] at recorded
  simp only at recorded
  constructor
  · intro empty
    obtain ⟨same, noOk⟩ := nothing empty
    have none_ : outcomes1.any isOk = false := by
      rw [Bool.eq_false_iff, ne_eq, any_isOk_iff]
      rintro ⟨i, seqNo, ok⟩
      exact noOk i seqNo ok
    rw [if_pos (by simp [none_])] at recorded
    obtain ⟨rfl, rfl⟩ := Prod.mk.inj recorded
    exact ⟨same, countApplied_eq 0 _ (by simp) (noOk 0)⟩
  · intro some_
    obtain ⟨memory, durable, failing⟩ := something some_ (ascending some_)
    by_cases records : RecordsDurably deps disk accepted
    · obtain ⟨okBefore, notPast, noFatal⟩ := durable records
      have any_ : outcomes1.any isOk = true := by
        obtain ⟨seqNo, ok⟩ := okBefore 0 (List.length_pos_of_ne_nil some_)
        exact (any_isOk_iff _).mpr ⟨0, seqNo, ok⟩
      rw [if_neg (by simp [any_])] at recorded
      cases lost : disk.directoryLost with
      | none =>
        rw [noFatal, lost] at recorded
        obtain ⟨rfl, rfl⟩ := Prod.mk.inj recorded
        exact ⟨memory, fun _ => countApplied_eq _ _ okBefore notPast,
          fun refused => absurd ⟨records, fun _ => rfl⟩ refused⟩
      | some error =>
        rw [noFatal, lost] at recorded
        simp only [Option.none_or] at recorded
        by_cases synced : deps.syncEachBatch = true
        · rw [if_pos synced] at recorded
          obtain ⟨rfl, rfl⟩ := Prod.mk.inj recorded
          refine ⟨memory, fun takes => ?_, fun _ => ?_⟩
          · cases takes.2 synced
          · apply countApplied_eq 0 _ (by simp)
            intro seqNo ok
            rw [OkAt, List.getElem?_map] at ok
            cases here : outcomes1[0]? with
            | none => rw [here] at ok; cases ok
            | some outcome =>
              rw [here, Option.map_some] at ok
              split at ok
              · cases ok
              next notOk =>
                cases ok
                exact notOk rfl
        · rw [if_neg synced] at recorded
          obtain ⟨rfl, rfl⟩ := Prod.mk.inj recorded
          exact ⟨memory, fun _ => countApplied_eq _ _ okBefore notPast,
            fun refused => absurd ⟨records, fun synced' => absurd synced' synced⟩ refused⟩
    · have noOk := failing records
      have none_ : outcomes1.any isOk = false := by
        rw [Bool.eq_false_iff, ne_eq, any_isOk_iff]
        rintro ⟨i, seqNo, ok⟩
        exact noOk i seqNo ok
      rw [if_pos (by simp [none_])] at recorded
      obtain ⟨rfl, rfl⟩ := Prod.mk.inj recorded
      exact ⟨memory, fun takes => absurd takes.1 records,
        fun _ => countApplied_eq 0 _ (by simp) (noOk 0)⟩

theorem diskTakes_iff {disk : DiskEvents} {applied : List ReplicationLogEntry} {deps : PartitionBatchDeps}
    (durable : engine.durable = some deps) : DiskTakes engine disk applied ↔
      RecordsDurably deps disk applied ∧ (deps.syncEachBatch = true → disk.directoryLost = none) := by
  simp only [DiskTakes, durable, Option.some.injEq, forall_eq', RecordsDurably]
  constructor
  · rintro ⟨appends, synced⟩
    exact ⟨⟨appends, fun h => (synced h).2⟩, fun h => (synced h).1⟩
  · rintro ⟨⟨appends, commits⟩, found⟩
    exact ⟨appends, fun h => ⟨found h, commits h⟩⟩

/-- The engine has exactly the entries it applied, each noted once, and answers their
number where the disk takes them and none where it does not. -/
theorem applyLocalReplicationEntries_spec (disk : DiskEvents) (s s' : ManagerState (LocalIndex σ))
    (entries : List ReplicationLogEntry) (answer : AppliedReplicationEntries)
    (applied : List ReplicationLogEntry) (isApplied : engine.applies s entries = applied)
    (ascending : engine.durable.isSome = true → applied ≠ [] →
      (s.partition.appliedSeqNo :: applied.map ReplicationLogEntry.seqNo).Pairwise (· < ·))
    (h : applyLocalReplicationEntries engine disk s entries = (s', answer)) :
    s'.memory.written = s.memory.written ++ applied ∧
    engine.applyAll s.memory.index applied = .ok s'.memory.index ∧
    (applied = [] → s' = s ∧ answer.applied = 0) ∧
    (applied ≠ [] → (DiskTakes engine disk applied → answer.applied = applied.length) ∧
      (¬ DiskTakes engine disk applied → answer.applied = 0)) := by
  have inOrder := @applyInOrder_spec _ engine s.memory entries
  rw [applyLocalReplicationEntries] at h
  cases durable : engine.durable with
  | none =>
    have all : engine.applicable s.memory.index entries = applied := by
      rw [← isApplied, LocalEngine.applies, if_neg]
      simp [LocalEngine.refusesAll, durable]
    rw [durable] at h
    obtain ⟨rfl, rfl⟩ := Prod.mk.inj h
    rw [all] at inOrder
    refine ⟨inOrder.1, inOrder.2.1, ?_, fun _ => ⟨fun _ => inOrder.2.2.1, fun refused => ?_⟩⟩
    · intro empty
      have written := inOrder.1
      have index := inOrder.2.1
      rw [empty] at written index
      refine ⟨?_, by rw [inOrder.2.2.1, empty]; rfl⟩
      have same : (engine.applyInOrder s.memory entries).1 = s.memory := by
        cases before : s.memory
        rw [before] at written index
        cases after : (engine.applyInOrder ⟨_, _⟩ entries).1
        rw [after] at written index
        simp only [List.append_nil] at written
        cases index
        rw [written]
      rw [same]
    · exact absurd (fun deps isDurable => by rw [durable] at isDurable; cases isDurable) refused
  | some deps =>
    rw [durable] at h
    cases recorded : recordMutations deps disk (engine.batchEvents disk s.memory entries) s
      (entries.map mutationRecord) with
    | mk s1 outcomes =>
    simp only [recorded] at h
    obtain ⟨rfl, rfl⟩ := Prod.mk.inj h
    by_cases refuses : (s.fatalError.isSome || s.partition.failed.isSome) = true
    · have none_ : applied = [] := by
        rw [← isApplied, LocalEngine.applies, if_pos]
        simpa [LocalEngine.refusesAll, durable] using refuses
      obtain ⟨same, count⟩ := recordMutations_refused deps disk
        (engine.batchEvents disk s.memory entries) s (entries.map mutationRecord) refuses
      rw [recorded] at same count
      simp only at same count
      rw [same, none_]
      exact ⟨by simp, rfl, fun _ => ⟨rfl, count⟩, fun some_ => absurd rfl some_⟩
    · have all : engine.applicable s.memory.index entries = applied := by
        rw [← isApplied, LocalEngine.applies, if_neg]
        simpa [LocalEngine.refusesAll, durable] using refuses
      have healthy : s.fatalError = none ∧ s.partition.failed = none := by simpa using refuses
      obtain ⟨nothing, something⟩ := recordMutations_replicated deps disk s entries healthy applied all
        (ascending (by rw [durable]; rfl)) _ _ recorded
      have accepts : engine.applicable s.memory.index applied = applied := by
        have cut := @applicable_take _ engine s.memory.index entries applied.length
        rwa [all, List.take_length, ← List.prefix_iff_eq_take.mp (all ▸ applicable_front _ _)] at cut
      have whole := @applyInOrder_spec _ engine s.memory applied
      rw [accepts] at whole
      by_cases empty : applied = []
      · rw [(nothing empty).1, empty]
        exact ⟨by simp, rfl, fun _ => ⟨rfl, (nothing empty).2⟩, fun some_ => absurd rfl some_⟩
      · obtain ⟨memory, takes, refused⟩ := something empty
        rw [memory]
        refine ⟨whole.1, whole.2.1, fun none_ => absurd none_ empty, fun _ => ?_⟩
        rw [diskTakes_iff durable]
        exact ⟨takes, refused⟩

end

end Narsil.Replication
