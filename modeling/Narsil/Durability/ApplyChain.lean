import Narsil.Durability.BatchAgreement

/-!
# The append chain of a partition

What stands on a partition's `appendChain` is done one after the other: the batches of
`recordPartitionBatch`, the rolls of the log, and the holds that a capture puts there. A
batch gives way between its records and while it appends, so that others may look at the
memory of the partition in the middle of it. This module takes a batch apart into the steps
between two of its awaits.

**Strategy:** beside its variables a partition keeps what was applied to it, each record with
the entry it was given. The steps of a batch only add to that, so that memory and log are
said once, with what the batch on the way has applied so far.
-/
namespace Narsil.Durability

variable {μ : Type}

/-- One record that was applied, with its entry unless its number was refused. -/
structure Application (μ : Type) where
  events : BatchEvents μ
  place : Nat
  record : MutationRecord
  entry : Option ReplicationLogEntry

inductive ChainJob (μ : Type) where
  | batch (events : BatchEvents μ) (records : List MutationRecord)
  | roll (fails : Option NarsilError)
  | hold (capture : Nat) (reached : Bool)

/-- Where the batch on the chain is, between two of its awaits. -/
inductive BatchPhase (μ : Type) where
  | applying (rest applied : List (Nat × MutationRecord)) (outcomes : Outcomes)
  | numbering (rest : List (Nat × MutationRecord)) (numbering : Numbering) (numbered : List (Application μ))
  | appending (numbering : Numbering) (numbered : List (Application μ))

structure ChainedPartition (μ : Type) where
  partition : PartitionState
  memory : μ
  chain : List (ChainJob μ)
  phase : Option (BatchPhase μ)
  /-- Where the partition's durable state began. -/
  startSeqNo : Nat
  startMemory : μ
  /-- What the batches that ended have applied. -/
  history : List (Application μ)

namespace ChainedPartition

/-- `freshPartition`. -/
def fresh (seqNo primaryTerm : Nat) (memory : μ) : ChainedPartition μ where
  partition := { appliedSeqNo := seqNo, seqOwner := ⟨seqNo, primaryTerm⟩, failed := none, appended := [], committed := 0 }
  memory := memory
  chain := []
  phase := none
  startSeqNo := seqNo
  startMemory := memory
  history := []

/-- The next job of the chain may begin. -/
def settle (p : ChainedPartition μ) (rest : List (ChainJob μ)) : ChainedPartition μ :=
  { p with chain := rest, phase := none }

/-- The batch throws an error that marks the partition failed. -/
def settleFailed (deps : PartitionBatchDeps) (p : ChainedPartition μ) (rest : List (ChainJob μ))
    (fatal : Option NarsilError) (error : NarsilError) : ChainedPartition μ × Option NarsilError :=
  let s := (failPartition deps ⟨p.partition, fatal, p.memory⟩ error).1
  ({ p.settle rest with partition := s.partition }, s.fatalError)

/-- One step of a batch. -/
def advanceBatch (deps : PartitionBatchDeps) (fatal : Option NarsilError) (p : ChainedPartition μ)
    (events : BatchEvents μ) (rest : List (ChainJob μ)) : BatchPhase μ → ChainedPartition μ × Option NarsilError
  | .applying (record :: records) applied outcomes =>
    let s := applyEach events [record] ⟨p.memory, applied, outcomes⟩
    ({ p with memory := s.memory, phase := some (.applying records s.applied s.outcomes) }, fatal)
  | .applying [] applied outcomes =>
    if applied = [] then (p.settle rest, fatal)
    else
      let numbering := ⟨p.partition.seqOwner, p.partition.appliedSeqNo, [], outcomes, false⟩
      ({ p with phase := some (.numbering applied numbering []) }, fatal)
  | .numbering ((i, record) :: records) numbering numbered =>
    let (next, thrown) := numberEach deps events [(i, record)] numbering
    let p := { p with partition := { p.partition with seqOwner := next.seqOwner } }
    match thrown with
    | some error => p.settleFailed deps rest fatal error
    | none =>
      let application := ⟨events, i, record, (next.entries.drop numbering.entries.length).head?⟩
      ({ p with phase := some (.numbering records next (numbered ++ [application])) }, fatal)
  | .numbering [] numbering numbered => ({ p with phase := some (.appending numbering numbered) }, fatal)
  | .appending numbering numbered =>
    match appendAll events p.partition numbering.entries with
    | (partition, some error) => { p with partition }.settleFailed deps rest fatal error
    | (partition, none) =>
      ({ p.settle rest with
        partition := { partition with appliedSeqNo := numbering.lastSeqNo }
        history := p.history ++ numbered }, fatal)

/-- One step of the batch or roll at the front of the chain. A batch whose turn comes after a
failure throws at once. -/
def advance (deps : PartitionBatchDeps) (fatal : Option NarsilError) (p : ChainedPartition μ) :
    Option (ChainedPartition μ × Option NarsilError) :=
  match p.chain, p.phase with
  | .batch _ records :: rest, none =>
    if fatal.isSome ∨ p.partition.failed.isSome then some (p.settle rest, fatal)
    else
      let unset : Outcomes := List.replicate records.length none
      some ({ p with phase := some (.applying (records.zipIdx.map Prod.swap) [] unset) }, fatal)
  | .batch events _ :: rest, some phase => some (p.advanceBatch deps fatal events rest phase)
  | .roll fails :: rest, none =>
    match fails with
    | some error => if p.partition.failed.isSome then some (p.settle rest, fatal)
        else some (p.settleFailed deps rest fatal error)
    | none => some (p.settle rest, fatal)
  | _, _ => none

/-- The entries follow a sequence number in ascending order, the last of them at `last`. -/
inductive UpTo (start : Nat) : List ReplicationLogEntry → Nat → Prop where
  | nothing : UpTo start [] start
  | push {entries : List ReplicationLogEntry} {last : Nat} (before : UpTo start entries last)
    {entry : ReplicationLogEntry} (above : last < entry.seqNo) : UpTo start (entries ++ [entry]) entry.seqNo

/-- The records applied in their order. -/
def applyHistory (history : List (Application μ)) (memory : μ) : Except NarsilError μ :=
  history.foldlM (fun memory application => application.events.apply application.place memory) memory

theorem applyHistory_append (front back : List (Application μ)) (memory : μ) :
    applyHistory (front ++ back) memory = (applyHistory front memory).bind (applyHistory back) := by
  rw [applyHistory, List.foldlM_append]
  rfl

/-- The entry of a record says nothing of how it is applied. -/
theorem applyHistory_renumbered (front back : List (Application μ)) (events : BatchEvents μ) (place : Nat)
    (record : MutationRecord) (entry other : Option ReplicationLogEntry) (memory : μ) :
    applyHistory (front ++ ⟨events, place, record, entry⟩ :: back) memory =
      applyHistory (front ++ ⟨events, place, record, other⟩ :: back) memory := by
  rw [applyHistory_append, applyHistory_append]
  rfl

/-- No record's number was refused. -/
def NoneRefused (history : List (Application μ)) : Prop := ∀ application ∈ history, application.entry.isSome

def unnumbered (events : BatchEvents μ) (record : Nat × MutationRecord) : Application μ :=
  ⟨events, record.1, record.2, none⟩

/-- What the batch on the way has applied. -/
def inFlight (p : ChainedPartition μ) : List (Application μ) :=
  match p.chain, p.phase with
  | .batch events _ :: _, some (.applying _ applied _) => applied.map (unnumbered events)
  | .batch events _ :: _, some (.numbering rest _ numbered) => numbered ++ rest.map (unnumbered events)
  | .batch _ _ :: _, some (.appending _ numbered) => numbered
  | _, _ => []

/-- An application's entry is the one its record was given. -/
def Made (deps : PartitionBatchDeps) (application : Application μ) : Prop :=
  ∀ entry, application.entry = some entry →
    EntryOf deps application.events application.place application.record entry

/-- The numbers given so far in a batch follow those of the log. -/
structure Numbered (deps : PartitionBatchDeps) (p : ChainedPartition μ) (numbering : Numbering)
    (numbered : List (Application μ)) : Prop where
  entries : numbering.entries = numbered.filterMap Application.entry
  upTo : UpTo p.startSeqNo (p.partition.appended ++ numbering.entries) numbering.lastSeqNo
  grows : p.partition.appliedSeqNo ≤ numbering.lastSeqNo
  owner : numbering.lastSeqNo ≤ numbering.seqOwner.current
  seqOwner : p.partition.seqOwner = numbering.seqOwner
  made : ∀ application ∈ numbered, Made deps application

/-- What holds of a partition that is not marked failed, in the middle of a batch too. -/
structure Sound (deps : PartitionBatchDeps) (p : ChainedPartition μ) : Prop where
  memory : NoneRefused p.history → applyHistory (p.history ++ p.inFlight) p.startMemory = .ok p.memory
  entries : p.partition.appended = p.history.filterMap Application.entry
  upTo : UpTo p.startSeqNo p.partition.appended p.partition.appliedSeqNo
  owner : p.partition.appliedSeqNo ≤ p.partition.seqOwner.current
  made : ∀ application ∈ p.history, Made deps application
  numbering : ∀ rest numbering numbered, p.phase = some (.numbering rest numbering numbered) →
    Numbered deps p numbering numbered
  appending : ∀ numbering numbered, p.phase = some (.appending numbering numbered) →
    Numbered deps p numbering numbered

/-- A batch is on its way only at the front of the chain. -/
def PhaseAtFront (p : ChainedPartition μ) : Prop :=
  p.phase ≠ none → ∃ events records rest, p.chain = .batch events records :: rest

structure Inv (deps : PartitionBatchDeps) (p : ChainedPartition μ) : Prop where
  front : p.PhaseAtFront
  sound : p.partition.failed = none → Sound deps p

theorem fresh_inv (deps : PartitionBatchDeps) (seqNo primaryTerm : Nat) (memory : μ) :
    (fresh seqNo primaryTerm memory).Inv deps where
  front none := absurd rfl none
  sound _ :=
    { memory := fun _ => rfl
      entries := rfl
      upTo := .nothing
      owner := Nat.le_refl _
      made := fun _ isIn => nomatch isIn
      numbering := fun _ _ _ phase => nomatch phase
      appending := fun _ _ phase => nomatch phase }

variable {deps : PartitionBatchDeps} {fatal : Option NarsilError} {p : ChainedPartition μ}

theorem inFlight_idle (idle : p.phase = none) : p.inFlight = [] := by
  rw [inFlight, idle]
  split <;> simp_all

theorem inFlight_numbering {events : BatchEvents μ} {records : List MutationRecord} {rest : List (ChainJob μ)}
    {more : List (Nat × MutationRecord)} {numbering : Numbering} {numbered : List (Application μ)}
    (chain : p.chain = .batch events records :: rest) (phase : p.phase = some (.numbering more numbering numbered)) :
    p.inFlight = numbered ++ more.map (unnumbered events) := by
  rw [inFlight, chain, phase]

/-- A job that leaves everything else alone. -/
theorem Inv.settle (inv : p.Inv deps) (rest : List (ChainJob μ)) (nothing : p.inFlight = []) :
    (p.settle rest).Inv deps where
  front none := absurd rfl none
  sound unfailed := by
    have sound := inv.sound unfailed
    refine ⟨fun whole => ?_, sound.entries, sound.upTo, sound.owner, sound.made, ?_, ?_⟩
    · have memory := sound.memory whole
      rw [nothing] at memory
      rw [inFlight_idle rfl]
      exact memory
    · exact fun _ _ _ phase => nomatch phase
    · exact fun _ _ phase => nomatch phase

theorem settleFailed_inv (rest : List (ChainJob μ)) (error : NarsilError) :
    (p.settleFailed deps rest fatal error).1.Inv deps where
  front none := absurd rfl none
  sound unfailed := by
    rw [settleFailed] at unfailed
    rw [failPartition] at unfailed
    cases failed : p.partition.failed with
    | none => simp [failed] at unfailed
    | some first => simp [failed] at unfailed

/-- The next record is applied, or throws and leaves memory alone. -/
theorem Inv.apply {events : BatchEvents μ} {records : List MutationRecord} {rest : List (ChainJob μ)}
    {record : Nat × MutationRecord} {more applied : List (Nat × MutationRecord)} {outcomes : Outcomes}
    (inv : p.Inv deps) (chain : p.chain = .batch events records :: rest)
    (phase : p.phase = some (.applying (record :: more) applied outcomes)) :
    (p.advanceBatch deps fatal events rest (.applying (record :: more) applied outcomes)).1.Inv deps := by
  obtain ⟨i, record⟩ := record
  refine ⟨fun _ => ⟨events, records, rest, chain⟩, fun unfailed => ?_⟩
  have sound := inv.sound unfailed
  have before : p.inFlight = applied.map (unnumbered events) := by simp [inFlight, chain, phase]
  refine ⟨fun whole => ?_, sound.entries, sound.upTo, sound.owner, sound.made, ?_, ?_⟩
  · have memory := sound.memory whole
    rw [before] at memory
    cases change : events.apply i p.memory with
    | error error => simpa [advanceBatch, applyEach, change, inFlight, chain] using memory
    | ok next =>
      have step : applyHistory [unnumbered events (i, record)] p.memory = .ok next := by
        simp [applyHistory, unnumbered, change]
      have grown : applyHistory (p.history ++ (applied ++ [(i, record)]).map (unnumbered events)) p.startMemory =
          .ok next := by
        rw [List.map_append, ← List.append_assoc, applyHistory_append, memory]
        exact step
      simpa [advanceBatch, applyEach, change, inFlight, chain] using grown
  · intro _ _ _ other
    cases other
  · intro _ _ other
    cases other

/-- Numbering begins from where the log ends. -/
theorem Inv.beginNumbering {events : BatchEvents μ} {records : List MutationRecord} {rest : List (ChainJob μ)}
    {applied : List (Nat × MutationRecord)} {outcomes : Outcomes} (inv : p.Inv deps)
    (chain : p.chain = .batch events records :: rest) (phase : p.phase = some (.applying [] applied outcomes)) :
    (p.advanceBatch deps fatal events rest (.applying [] applied outcomes)).1.Inv deps := by
  have before : p.inFlight = applied.map (unnumbered events) := by simp [inFlight, chain, phase]
  rw [advanceBatch]
  split
  next nothing => exact inv.settle rest (by rw [before, nothing]; rfl)
  next =>
    refine ⟨fun _ => ⟨events, records, rest, chain⟩, fun unfailed => ?_⟩
    have sound := inv.sound unfailed
    refine ⟨fun whole => ?_, sound.entries, sound.upTo, sound.owner, sound.made, ?_, ?_⟩
    · have memory := sound.memory whole
      rw [before] at memory
      simpa [inFlight, chain] using memory
    · intro _ _ _ same
      cases same
      exact ⟨rfl, by simpa using sound.upTo, Nat.le_refl _, sound.owner, rfl, fun _ isIn => nomatch isIn⟩
    · exact fun _ _ other => nomatch other

/-- One record is numbered: refused, or given an entry above the last. -/
theorem Numbered.next {events : BatchEvents μ} {i : Nat} {record : MutationRecord} {numbering next : Numbering}
    {numbered : List (Application μ)} (sound : Numbered deps p numbering numbered)
    (step : numberEach deps events [(i, record)] numbering = (next, none)) :
    Numbered deps { p with partition := { p.partition with seqOwner := next.seqOwner } } next
      (numbered ++ [⟨events, i, record, (next.entries.drop numbering.entries.length).head?⟩]) := by
  have pushed {entry : ReplicationLogEntry} {seqOwner : SeqOwner} (above : numbering.lastSeqNo < entry.seqNo)
      (owned : entry.seqNo ≤ seqOwner.current) (made : EntryOf deps events i record entry)
      (same : numbering.push deps i record entry seqOwner = next) :
      Numbered deps { p with partition := { p.partition with seqOwner := next.seqOwner } } next
        (numbered ++ [⟨events, i, record, (next.entries.drop numbering.entries.length).head?⟩]) := by
    subst same
    have given : ((numbering.push deps i record entry seqOwner).entries.drop numbering.entries.length).head? =
        some entry := by simp [Numbering.push]
    rw [given]
    refine ⟨?_, ?_, Nat.le_trans sound.grows (Nat.le_of_lt above), owned, rfl, ?_⟩
    · rw [List.filterMap_append, ← sound.entries]
      rfl
    · have grown := sound.upTo.push above
      rw [List.append_assoc] at grown
      exact grown
    · rw [List.forall_mem_append, List.forall_mem_singleton]
      refine ⟨sound.made, fun other same => ?_⟩
      rw [← Option.some.inj same]
      exact made
  rw [numberEach] at step
  cases numbers : events.numberEntry i with
  | error error =>
    simp only [numbers, numberEach, Prod.mk.injEq, and_true] at step
    subst step
    have given : (numbering.entries.drop numbering.entries.length).head? = none := by simp
    simp only [given]
    refine ⟨?_, sound.upTo, sound.grows, sound.owner, rfl, ?_⟩
    · rw [List.filterMap_append, ← sound.entries]
      simp
    · rw [List.forall_mem_append, List.forall_mem_singleton]
      refine ⟨sound.made, ?_⟩
      intro other same
      cases same
  | ok given =>
    cases given with
    | none =>
      simp only [numbers, numberEach, Prod.mk.injEq, and_true] at step
      exact pushed (Nat.lt_succ_of_le sound.owner) (Nat.le_refl _) (.inr ⟨numbers, rfl⟩) step
    | some entry =>
      by_cases above : entry.seqNo > numbering.lastSeqNo
      · simp only [numbers, requireAscendingSeqNo, if_pos above, numberEach, Prod.mk.injEq, and_true] at step
        exact pushed above (Nat.le_refl _) (.inl numbers) step
      · simp [numbers, requireAscendingSeqNo, if_neg above] at step

theorem Inv.number {events : BatchEvents μ} {records : List MutationRecord} {rest : List (ChainJob μ)}
    {record : Nat × MutationRecord} {more : List (Nat × MutationRecord)} {numbering : Numbering}
    {numbered : List (Application μ)} (inv : p.Inv deps) (chain : p.chain = .batch events records :: rest)
    (phase : p.phase = some (.numbering (record :: more) numbering numbered)) :
    (p.advanceBatch deps fatal events rest (.numbering (record :: more) numbering numbered)).1.Inv deps := by
  obtain ⟨i, record⟩ := record
  rw [advanceBatch]
  cases step : numberEach deps events [(i, record)] numbering with
  | mk next thrown =>
    cases thrown with
    | some error => exact settleFailed_inv rest error
    | none =>
      refine ⟨fun _ => ⟨events, records, rest, chain⟩, fun unfailed => ?_⟩
      have sound := inv.sound unfailed
      have numbers := (sound.numbering _ _ _ phase).next step
      refine ⟨fun whole => ?_, sound.entries, sound.upTo, Nat.le_trans numbers.grows numbers.owner, sound.made, ?_, ?_⟩
      · have memory := sound.memory whole
        rw [inFlight_numbering chain phase, List.map_cons, ← List.append_assoc] at memory
        rw [inFlight, chain]
        change applyHistory (p.history ++ (numbered ++ [_] ++ more.map (unnumbered events))) p.startMemory = .ok p.memory
        rw [List.append_assoc, List.singleton_append, ← List.append_assoc, applyHistory_renumbered]
        exact memory
      · intro _ _ _ same
        cases same
        exact ⟨numbers.entries, numbers.upTo, numbers.grows, numbers.owner, rfl, numbers.made⟩
      · exact fun _ _ other => nomatch other

theorem Inv.beginAppending {events : BatchEvents μ} {records : List MutationRecord} {rest : List (ChainJob μ)}
    {numbering : Numbering} {numbered : List (Application μ)} (inv : p.Inv deps)
    (chain : p.chain = .batch events records :: rest) (phase : p.phase = some (.numbering [] numbering numbered)) :
    (p.advanceBatch deps fatal events rest (.numbering [] numbering numbered)).1.Inv deps := by
  refine ⟨fun _ => ⟨events, records, rest, chain⟩, fun unfailed => ?_⟩
  have sound := inv.sound unfailed
  refine ⟨fun whole => ?_, sound.entries, sound.upTo, sound.owner, sound.made, ?_, ?_⟩
  · have memory := sound.memory whole
    rw [inFlight, chain, phase] at memory
    rw [advanceBatch, inFlight, chain]
    simpa using memory
  · exact fun _ _ _ other => nomatch other
  · intro _ _ same
    cases same
    have numbers := sound.numbering _ _ _ phase
    exact ⟨numbers.entries, numbers.upTo, numbers.grows, numbers.owner, numbers.seqOwner, numbers.made⟩

/-- The entries are in the log, and the records of the batch are counted. -/
theorem Inv.append {events : BatchEvents μ} {records : List MutationRecord} {rest : List (ChainJob μ)}
    {numbering : Numbering} {numbered : List (Application μ)} (inv : p.Inv deps)
    (chain : p.chain = .batch events records :: rest) (phase : p.phase = some (.appending numbering numbered)) :
    (p.advanceBatch deps fatal events rest (.appending numbering numbered)).1.Inv deps := by
  rw [advanceBatch]
  cases appends : appendAll events p.partition numbering.entries with
  | mk partition thrown =>
    cases thrown with
    | some error => exact settleFailed_inv rest error
    | none =>
      have written : partition = { p.partition with appended := p.partition.appended ++ numbering.entries } := by
        rw [appendAll] at appends
        split at appends
        next nothing => rw [nothing, List.append_nil]; exact (Prod.mk.inj appends).1.symm
        next =>
          split at appends
          · exact (Prod.mk.inj appends).1.symm
          · cases (Prod.mk.inj appends).2
      subst written
      refine ⟨fun none => absurd rfl none, fun unfailed => ?_⟩
      have sound := inv.sound unfailed
      have numbers := sound.appending _ _ phase
      refine ⟨fun whole => ?_, ?_, numbers.upTo, ?_, ?_, ?_, ?_⟩
      · have memory := sound.memory fun application isIn => whole application (List.mem_append_left _ isIn)
        rw [inFlight, chain, phase] at memory
        rw [inFlight_idle rfl, List.append_nil]
        exact memory
      · change p.partition.appended ++ numbering.entries = (p.history ++ numbered).filterMap Application.entry
        rw [List.filterMap_append, ← sound.entries, ← numbers.entries]
      · change numbering.lastSeqNo ≤ p.partition.seqOwner.current
        rw [numbers.seqOwner]
        exact numbers.owner
      · exact List.forall_mem_append.mpr ⟨sound.made, numbers.made⟩
      · intro _ _ _ other
        cases other
      · intro _ _ other
        cases other

theorem advance_inv {p' : ChainedPartition μ} {fatal' : Option NarsilError} (inv : p.Inv deps)
    (step : p.advance deps fatal = some (p', fatal')) : p'.Inv deps := by
  rw [advance] at step
  split at step
  next records rest chain phase =>
    have nothing := inFlight_idle phase
    split at step
    · cases step
      exact inv.settle rest nothing
    · cases step
      refine ⟨fun _ => ⟨_, records, rest, chain⟩, fun unfailed => ?_⟩
      have sound := inv.sound unfailed
      refine ⟨fun whole => ?_, sound.entries, sound.upTo, sound.owner, sound.made, ?_, ?_⟩
      · have memory := sound.memory whole
        rw [nothing] at memory
        simpa [inFlight, chain] using memory
      · exact fun _ _ _ other => nomatch other
      · exact fun _ _ other => nomatch other
  next events records rest phase chain at_phase =>
    have same : p' = (p.advanceBatch deps fatal events rest phase).1 := by rw [Option.some.inj step]
    rw [same]
    cases phase with
    | applying more applied outcomes =>
      cases more with
      | nil => exact inv.beginNumbering chain at_phase
      | cons record more => exact inv.apply chain at_phase
    | numbering more numbering numbered =>
      cases more with
      | nil => exact inv.beginAppending chain at_phase
      | cons record more => exact inv.number chain at_phase
    | appending numbering numbered => exact inv.append chain at_phase
  next fails rest chain phase =>
    have nothing := inFlight_idle phase
    split at step
    · split at step
      · cases step
        exact inv.settle rest nothing
      · cases step
        exact settleFailed_inv rest _
    · cases step
      exact inv.settle rest nothing
  next => cases step

/-- What a number of steps of the chain lead to. -/
inductive Reaches (deps : PartitionBatchDeps) :
    ChainedPartition μ → Option NarsilError → ChainedPartition μ → Option NarsilError → Prop where
  | here {p : ChainedPartition μ} {fatal : Option NarsilError} : Reaches deps p fatal p fatal
  | step {p next last : ChainedPartition μ} {fatal between after : Option NarsilError}
    (first : p.advance deps fatal = some (next, between)) (later : Reaches deps next between last after) :
    Reaches deps p fatal last after

theorem applyEach_cons (events : BatchEvents μ) (record : Nat × MutationRecord) (records : List (Nat × MutationRecord))
    (s : Applying μ) : applyEach events (record :: records) s = applyEach events records (applyEach events [record] s) := by
  obtain ⟨i, record⟩ := record
  simp only [applyEach]
  cases events.apply i s.memory <;> rfl

theorem numberEach_cons (events : BatchEvents μ) (record : Nat × MutationRecord)
    (records : List (Nat × MutationRecord)) (s : Numbering) :
    numberEach deps events (record :: records) s =
      match numberEach deps events [record] s with
      | (next, some error) => (next, some error)
      | (next, none) => numberEach deps events records next := by
  obtain ⟨i, record⟩ := record
  simp only [numberEach]
  cases events.numberEntry i with
  | error error => rfl
  | ok given =>
    cases given with
    | none => rfl
    | some entry =>
      dsimp only
      cases requireAscendingSeqNo record entry.seqNo s.lastSeqNo <;> rfl

/-- The state of the partition as `recordPartitionBatch` has it. -/
def managed (p : ChainedPartition μ) (fatal : Option NarsilError) : ManagerState μ := ⟨p.partition, fatal, p.memory⟩

theorem settleFailed_managed (rest : List (ChainJob μ)) (error : NarsilError) :
    (p.settleFailed deps rest fatal error).1.managed (p.settleFailed deps rest fatal error).2 =
      (failPartition deps (p.managed fatal) error).1 := by
  rw [settleFailed, managed, managed, failPartition]
  cases p.partition.failed <;> simp [ChainedPartition.settle]

theorem advance_batch {events : BatchEvents μ} {records : List MutationRecord} {rest : List (ChainJob μ)}
    {phase : BatchPhase μ} (chain : p.chain = .batch events records :: rest) (at_phase : p.phase = some phase) :
    p.advance deps fatal = some (p.advanceBatch deps fatal events rest phase) := by
  rw [advance, chain, at_phase]

theorem reaches_applied {events : BatchEvents μ} {records : List MutationRecord} {rest : List (ChainJob μ)}
    (more applied : List (Nat × MutationRecord)) (outcomes : Outcomes) (chain : p.chain = .batch events records :: rest)
    (phase : p.phase = some (.applying more applied outcomes)) {last : ChainedPartition μ} {after : Option NarsilError}
    (later : Reaches deps
      { p with
        memory := (applyEach events more ⟨p.memory, applied, outcomes⟩).memory
        phase := some (.applying [] (applyEach events more ⟨p.memory, applied, outcomes⟩).applied
          (applyEach events more ⟨p.memory, applied, outcomes⟩).outcomes) } fatal last after) :
    Reaches deps p fatal last after := by
  induction more generalizing p applied outcomes with
  | nil =>
    have same : { p with phase := some (.applying [] applied outcomes) } = p := by rw [← phase]
    rw [applyEach, same] at later
    exact later
  | cons record more ih =>
    refine .step (advance_batch chain phase) (ih _ _ chain rfl ?_)
    rw [applyEach_cons] at later
    exact later

/-- What `recordPartitionBatch` does with the entries of a batch. -/
def appended (deps : PartitionBatchDeps) (events : BatchEvents μ) (s : ManagerState μ) (numbering : Numbering) :
    ManagerState μ :=
  match appendAll events s.partition numbering.entries with
  | (partition, some error) => (failPartition deps { s with partition } error).1
  | (partition, none) => { s with partition := { partition with appliedSeqNo := numbering.lastSeqNo } }

theorem reaches_appended {events : BatchEvents μ} {records : List MutationRecord} {rest : List (ChainJob μ)}
    {numbering : Numbering} {numbered : List (Application μ)} (chain : p.chain = .batch events records :: rest)
    (phase : p.phase = some (.appending numbering numbered)) :
    ∃ last after, Reaches deps p fatal last after ∧ last.chain = rest ∧ last.phase = none ∧
      last.managed after = appended deps events (p.managed fatal) numbering := by
  have first := @advance_batch _ deps fatal p _ _ _ _ chain phase
  rw [advanceBatch] at first
  rw [appended, managed]
  cases appends : appendAll events p.partition numbering.entries with
  | mk partition thrown =>
    rw [appends] at first
    cases thrown with
    | none => exact ⟨_, _, .step first .here, rfl, rfl, rfl⟩
    | some error => exact ⟨_, _, .step first .here, rfl, rfl, settleFailed_managed rest error⟩

theorem reaches_numbered {events : BatchEvents μ} {records : List MutationRecord} {rest : List (ChainJob μ)}
    (more : List (Nat × MutationRecord)) (numbering : Numbering) (numbered : List (Application μ))
    (chain : p.chain = .batch events records :: rest)
    (phase : p.phase = some (.numbering more numbering numbered)) (owner : p.partition.seqOwner = numbering.seqOwner) :
    ∃ last after, Reaches deps p fatal last after ∧ last.chain = rest ∧ last.phase = none ∧
      last.managed after =
        match numberEach deps events more numbering with
        | (next, some error) =>
          (failPartition deps ⟨{ p.partition with seqOwner := next.seqOwner }, fatal, p.memory⟩ error).1
        | (next, none) =>
          appended deps events ⟨{ p.partition with seqOwner := next.seqOwner }, fatal, p.memory⟩ next := by
  induction more generalizing p numbering numbered with
  | nil =>
    have begun : ({ p with phase := some (.appending numbering numbered) } : ChainedPartition μ).chain =
      .batch events records :: rest := chain
    obtain ⟨last, after, reaches, ends, idle, result⟩ := @reaches_appended _ deps fatal _ _ _ _ _ _ begun rfl
    refine ⟨last, after, .step (advance_batch chain phase) reaches, ends, idle, ?_⟩
    rw [numberEach]
    dsimp only
    rw [← owner]
    exact result
  | cons record more ih =>
    obtain ⟨i, record⟩ := record
    have first := @advance_batch _ deps fatal p _ _ _ _ chain phase
    rw [advanceBatch] at first
    rw [numberEach_cons]
    cases step : numberEach deps events [(i, record)] numbering with
    | mk next thrown =>
      rw [step] at first
      cases thrown with
      | some error => exact ⟨_, _, .step first .here, rfl, rfl, settleFailed_managed rest error⟩
      | none =>
        obtain ⟨last, after, reaches, ends, idle, result⟩ := ih (p := { p with
            partition := { p.partition with seqOwner := next.seqOwner }
            phase := some (.numbering more next (numbered ++ [_])) }) next _ chain rfl rfl
        exact ⟨last, after, .step first reaches, ends, idle, result⟩

/-- The numbering of a batch does not depend on when it is committed. -/
theorem numberEach_sync (events : BatchEvents μ) (records : List (Nat × MutationRecord)) (s : Numbering)
    (syncEachBatch : Bool) :
    numberEach { deps with syncEachBatch } events records s = numberEach deps events records s := by
  induction records generalizing s with
  | nil => rfl
  | cons record records ih =>
    obtain ⟨i, record⟩ := record
    rw [numberEach, numberEach]
    cases events.numberEntry i with
    | error error => exact ih _
    | ok given =>
      cases given with
      | none => exact ih _
      | some entry =>
        dsimp only
        cases requireAscendingSeqNo record entry.seqNo s.lastSeqNo with
        | error error => rfl
        | ok => exact ih _

/-- A batch alone does what `recordPartitionBatch` does before it commits. -/
theorem reaches_recordPartitionBatch {events : BatchEvents μ} {records : List MutationRecord}
    {rest : List (ChainJob μ)} (chain : p.chain = .batch events records :: rest) (phase : p.phase = none) :
    ∃ last after, Reaches deps p fatal last after ∧ last.chain = rest ∧ last.phase = none ∧
      last.managed after =
        (recordPartitionBatch { deps with syncEachBatch := false } events (p.managed fatal) records).1 := by
  have first : p.advance deps fatal =
      if fatal.isSome ∨ p.partition.failed.isSome then some (p.settle rest, fatal)
      else some ({ p with phase := some (.applying (records.zipIdx.map Prod.swap) []
        (List.replicate records.length none)) }, fatal) := by rw [advance, chain, phase]
  cases fatal with
  | some error =>
    refine ⟨p.settle rest, some error, .step (first.trans (if_pos (.inl rfl))) .here, rfl, rfl, ?_⟩
    rw [recordPartitionBatch, managed]
    rfl
  | none =>
    cases failed : p.partition.failed with
    | some error =>
      have throws := first.trans (if_pos (.inr (by rw [failed]; rfl)))
      refine ⟨p.settle rest, none, .step throws .here, rfl, rfl, ?_⟩
      simp [recordPartitionBatch, managed, failed, ChainedPartition.settle]
    | none =>
      have begins := first.trans (if_neg (by simp [failed]))
      generalize applied : applyEach events (records.zipIdx.map Prod.swap)
        ⟨p.memory, [], List.replicate records.length none⟩ = s
      -- The partition once every record was tried.
      let tried : ChainedPartition μ := { p with memory := s.memory, phase := some (.applying [] s.applied s.outcomes) }
      suffices finishes : ∃ last after, Reaches deps tried none last after ∧ last.chain = rest ∧ last.phase = none ∧
          last.managed after =
            (recordPartitionBatch { deps with syncEachBatch := false } events (p.managed none) records).1 by
        obtain ⟨last, after, reaches, ends, idle, result⟩ := finishes
        refine ⟨last, after, .step begins (reaches_applied (p := { p with phase := some (.applying _ [] _) })
          (records.zipIdx.map Prod.swap) [] (List.replicate records.length none) chain rfl ?_), ends, idle, result⟩
        rw [applied]
        exact reaches
      have tried_chain : tried.chain = .batch events records :: rest := chain
      have next := @advance_batch _ deps none tried _ _ _ _ tried_chain rfl
      rw [advanceBatch] at next
      rw [recordPartitionBatch, managed]
      simp only [failed, applied]
      by_cases nothing : s.applied = []
      · rw [if_pos nothing] at next ⊢
        exact ⟨_, _, .step next .here, rfl, rfl, rfl⟩
      · rw [if_neg nothing] at next ⊢
        obtain ⟨last, after, reaches, ends, idle, result⟩ := @reaches_numbered _ deps none
          { tried with phase := some (.numbering s.applied
            ⟨p.partition.seqOwner, p.partition.appliedSeqNo, [], s.outcomes, false⟩ []) }
          events records rest s.applied _ [] tried_chain rfl rfl
        refine ⟨last, after, .step next reaches, ends, idle, result.trans ?_⟩
        simp only [numberEach_sync, tried, failed]
        generalize numberEach deps events s.applied
          ⟨p.partition.seqOwner, p.partition.appliedSeqNo, [], s.outcomes, false⟩ = numbers
        obtain ⟨numbering, thrown⟩ := numbers
        cases thrown with
        | some error => rfl
        | none =>
          simp only [appended]
          generalize appendAll events _ numbering.entries = appends
          obtain ⟨partition, thrown⟩ := appends
          cases thrown <;> rfl

theorem Reaches.trans {next last : ChainedPartition μ} {between after : Option NarsilError}
    (first : Reaches deps p fatal next between) (later : Reaches deps next between last after) :
    Reaches deps p fatal last after := by
  induction first with
  | here => exact later
  | step head _ ih => exact .step head (ih later)

/-- Batches that stand on a chain are recorded one call after another, whatever fails in them,
as far as the calls do not commit. -/
theorem reaches_batches (deps : PartitionBatchDeps) (fatal : Option NarsilError) (p : ChainedPartition μ)
    (batches : List (BatchEvents μ × List MutationRecord)) (rest : List (ChainJob μ))
    (chain : p.chain = batches.map (fun batch => .batch batch.1 batch.2) ++ rest) (phase : p.phase = none) :
    ∃ last after, Reaches deps p fatal last after ∧ last.chain = rest ∧ last.phase = none ∧
      last.managed after = batches.foldl (fun s batch =>
        (recordPartitionBatch { deps with syncEachBatch := false } batch.1 s batch.2).1) (p.managed fatal) := by
  induction batches generalizing p fatal with
  | nil => exact ⟨p, fatal, .here, chain, phase, rfl⟩
  | cons batch batches ih =>
    obtain ⟨next, between, first, chain, phase, recorded⟩ := reaches_recordPartitionBatch chain phase
    obtain ⟨last, after, later, ends, idle, result⟩ := ih between next chain phase
    exact ⟨last, after, first.trans later, ends, idle, by rw [result, recorded, List.foldl_cons]⟩

/-- The number of the first batch's record is refused, so only the second's has an entry. -/
theorem reaches_batches_two : ∃ last after, Reaches (plainDeps true false)
    { fresh 4 1 [] with chain :=
        [.batch (plainEvents (.error ⟨.persistenceSaveFailed, "log full"⟩)) [⟨"i", 0, .delete, "d", none⟩],
          .batch (plainEvents (.ok none)) [⟨"i", 0, .delete, "e", none⟩]] } none last after ∧
    last.chain = [] ∧ last.memory = [0, 0] ∧ last.partition.appliedSeqNo = 5 := by
  obtain ⟨last, after, reaches, ends, -, result⟩ := reaches_batches (plainDeps true false) none
    { fresh 4 1 [] with chain := _ }
    [(plainEvents (.error ⟨.persistenceSaveFailed, "log full"⟩), [⟨"i", 0, .delete, "d", none⟩]),
      (plainEvents (.ok none), [⟨"i", 0, .delete, "e", none⟩])] [] rfl rfl
  exact ⟨last, after, reaches, ends, congrArg ManagerState.memory result,
    congrArg (fun s => s.partition.appliedSeqNo) result⟩

end ChainedPartition

end Narsil.Durability
