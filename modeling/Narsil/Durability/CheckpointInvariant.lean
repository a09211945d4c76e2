import Narsil.Durability.RemovalPlan

/-!
# The invariant of a checkpoint run

Whatever a checkpoint has removed from a partition's log lies within what the
committed manifest covers, and what it is about to remove is the oldest part of
the log and covered too.
-/
namespace Narsil.Durability.CheckpointRun

open Transition

variable {codec : EntryCodec} {segmentMaxBytes : Nat} {s s' : IndexState}
  {p p' : PartitionState} {partitionId covered : Nat} {prior : Option SegmentManifest}
  {targets : List PartitionCheckpoint} {stage : TruncateStage}

/-- The manifest lists every partition it has a checkpoint of. -/
def Listed (m : SegmentManifest) : Prop := ∀ c ∈ m.checkpoint, c.partitionId ∈ m.partitions

private theorem find_carryForward (m written : SegmentManifest) (carried : Nat) (partitionId : Nat) :
    ((carryForward m written carried).checkpoint.find? fun c => c.partitionId = partitionId)
      = (written.checkpoint.find? fun c => c.partitionId = partitionId).or
          (if carried = partitionId then m.checkpoint.find? fun c => c.partitionId = partitionId
            else none) := by
  cases found : m.checkpoint.find? fun c => c.partitionId = carried with
  | none =>
    simp only [carryForward, found]
    by_cases same : carried = partitionId
    · subst same
      simp [found]
    · simp [same]
  | some c =>
    have named : c.partitionId = carried := by simpa using List.find?_some found
    simp only [carryForward, found]
    by_cases known : written.checkpoint.any (fun c => c.partitionId = carried) = true
    · rw [if_pos known]
      split
      next same =>
        subst same
        have present : (written.checkpoint.find? fun c => c.partitionId = carried).isSome = true := by
          rw [List.find?_isSome]
          simpa using known
        obtain ⟨c', hc'⟩ := Option.isSome_iff_exists.mp present
        rw [hc']
        rfl
      next => simp
    · rw [if_neg known, List.find?_append]
      congr 1
      split
      next same => subst same; simp [named, found]
      next other => simp [named, other]

private theorem find_carried (m : SegmentManifest) (carried : List Nat) (written : SegmentManifest)
    (partitionId : Nat) :
    ((carried.foldl (carryForward m) written).checkpoint.find? fun c => c.partitionId = partitionId)
      = (written.checkpoint.find? fun c => c.partitionId = partitionId).or
          (if partitionId ∈ carried then m.checkpoint.find? fun c => c.partitionId = partitionId
            else none) := by
  induction carried generalizing written with
  | nil => simp
  | cons first rest ih =>
    rw [List.foldl_cons, ih, find_carryForward, Option.or_assoc]
    congr 1
    by_cases same : first = partitionId
    · subst same
      simp only [if_pos, List.mem_cons_self]
      split <;> simp
    · simp [same, Ne.symm same]

theorem find_carriedForward (listed : ∀ m, prior = some m → Listed m) (partitionId : Nat) :
    ((carryForwardUncheckpointedPartitions prior targets).checkpoint.find?
        fun c => c.partitionId = partitionId)
      = (targets.find? fun c => c.partitionId = partitionId).or
          ((prior.elim [] SegmentManifest.checkpoint).find? fun c => c.partitionId = partitionId) := by
  cases prior with
  | none => simp [carryForwardUncheckpointedPartitions]
  | some m =>
    simp only [carryForwardUncheckpointedPartitions, find_carried, Option.elim_some]
    cases target : targets.find? fun c => c.partitionId = partitionId with
    | some c => rfl
    | none =>
      have untargeted : partitionId ∉ targets.map PartitionCheckpoint.partitionId := by
        intro known
        obtain ⟨c, hc, same⟩ := List.mem_map.mp known
        exact absurd (decide_eq_true same) (List.find?_eq_none.mp target c hc)
      cases found : m.checkpoint.find? fun c => c.partitionId = partitionId with
      | none => simp
      | some c =>
        have named : c.partitionId = partitionId := by simpa using List.find?_some found
        have inside := listed m rfl c (List.mem_of_find?_eq_some found)
        rw [if_pos]
        exact List.mem_filter.mpr ⟨named ▸ inside, decide_eq_true untargeted⟩

private theorem listed_carryForward {m written : SegmentManifest} (h : Listed written) (carried : Nat) :
    Listed (carryForward m written carried) := by
  intro c hc
  have old : c ∈ written.checkpoint → c.partitionId ∈ written.partitions ++ [carried] := fun known =>
    List.mem_append_left _ (h c known)
  simp only [carryForward] at hc ⊢
  split at hc
  · exact old hc
  next found =>
    split at hc
    · exact old hc
    · rcases List.mem_append.mp hc with known | new
      · exact old known
      · cases List.mem_singleton.mp new
        have named : c.partitionId = carried := by simpa using List.find?_some found
        simp [named]

theorem listed_carriedForward :
    Listed (carryForwardUncheckpointedPartitions prior targets) := by
  have start : Listed ⟨targets, targets.map PartitionCheckpoint.partitionId⟩ := fun c hc =>
    List.mem_map_of_mem hc
  cases prior with
  | none => exact start
  | some m =>
    simp only [carryForwardUncheckpointedPartitions]
    generalize m.partitions.filter _ = carried
    generalize (⟨targets, _⟩ : SegmentManifest) = written at start
    induction carried generalizing written with
    | nil => exact start
    | cons first rest ih => exact ih _ (listed_carryForward start first)

theorem captureTarget_spec {fromMemory : Bool} {t : PartitionCheckpoint}
    (captured : t ∈ captureCheckpoint prior fromMemory s.partitions) :
    ∃ p, s.partitions[t.partitionId]? = some p ∧
      captureTarget prior fromMemory (p, t.partitionId) = some t := by
  obtain ⟨⟨p, i⟩, member, target⟩ := List.mem_filterMap.mp captured
  have named : t.partitionId = i := by
    simp only [captureTarget] at target
    split at target
    · cases target
    · split at target <;> cases target <;> rfl
  subst named
  exact ⟨p, List.mem_zipIdx_iff_getElem?.mp member, target⟩

theorem captureTarget_bounds {fromMemory : Bool} {t : PartitionCheckpoint}
    (target : captureTarget prior fromMemory (p, partitionId) = some t)
    (ahead : checkpointLastSeqNo (prior.elim [] SegmentManifest.checkpoint) partitionId
      ≤ p.appliedSeqNo) :
    checkpointLastSeqNo (prior.elim [] SegmentManifest.checkpoint) partitionId ≤ t.lastSeqNo ∧
      t.lastSeqNo ≤ p.appliedSeqNo := by
  simp only [captureTarget] at target
  split at target
  · cases target
  · split at target <;> cases target
    · exact ⟨ahead, Nat.le_refl _⟩
    · exact ⟨by simp only; omega, Nat.min_le_left _ _⟩

/-- A partition, with what the manifest covers of its log. -/
structure PartitionInv (codec : EntryCodec) (covered : Nat) (p : PartitionState) : Prop where
  log : LogInv codec p.log
  truncated : ∀ e ∈ p.log.truncated, e.seqNo ≤ covered
  recovering : ∀ fromSeqNo phase, p.log.mode = .recovering fromSeqNo phase → fromSeqNo = covered
  applied : p.log.mode = .running → covered ≤ p.appliedSeqNo ∧ p.appliedSeqNo < p.log.nextSeqNo
  batch : ∀ lastSeqNo, p.batch = some lastSeqNo → p.log.mode = .running ∧
    p.appliedSeqNo ≤ lastSeqNo ∧ lastSeqNo < p.log.nextSeqNo

def TruncateStage.Safe (disk : Disk) (lastSeqNo : Nat) : TruncateStage → Prop
  | .readMarker => True
  | .list activeSegmentSeqNo => MarkedFrom disk activeSegmentSeqNo
  | .remove startSeqNos => RemovalPlan disk lastSeqNo startSeqNos

/-- The targets of a run that has not committed its manifest. -/
structure Captured (s : IndexState) (prior : Option SegmentManifest)
    (targets : List PartitionCheckpoint) : Prop where
  prior : prior = s.manifest
  single : ∀ t ∈ targets, ∀ t' ∈ targets, t.partitionId = t'.partitionId → t = t'
  covers : ∀ t ∈ targets, s.covered t.partitionId ≤ t.lastSeqNo
  applied : ∀ t ∈ targets, ∀ p, s.partitions[t.partitionId]? = some p → t.lastSeqNo ≤ p.appliedSeqNo

def PhaseInv (s : IndexState) : CheckpointPhase → Prop
  | .idle => True
  | .capturing prior _ => AllRunning s ∧ prior = s.manifest
  | .writing prior targets => AllRunning s ∧ Captured s prior targets
  | .truncating targets stage => AllRunning s ∧
      (∀ t ∈ targets, t.lastSeqNo ≤ s.covered t.partitionId) ∧
      ∀ t rest, targets = t :: rest → ∀ p, s.partitions[t.partitionId]? = some p →
        stage.Safe p.log.disk t.lastSeqNo

structure IndexInv (codec : EntryCodec) (s : IndexState) : Prop where
  partitions : ∀ partitionId p, s.partitions[partitionId]? = some p →
    PartitionInv codec (s.covered partitionId) p
  listed : ∀ m, s.manifest = some m → Listed m
  phase : PhaseInv s s.phase

theorem AllRunning.at (h : AllRunning s) (found : s.partitions[partitionId]? = some p) :
    p.log.mode = .running := h p (List.mem_of_getElem? found)

theorem TruncateStage.Safe.advance {disk disk' : Disk} {lastSeqNo : Nat}
    (h : stage.Safe disk lastSeqNo) (advances : Advances disk disk') :
    stage.Safe disk' lastSeqNo := by
  cases stage with
  | readMarker => trivial
  | list activeSegmentSeqNo => exact MarkedFrom.advance h advances
  | remove startSeqNos => exact RemovalPlan.advance h advances

/-- What the checkpoint run sees of a step of a running partition. -/
structure GoesOn (p p' : PartitionState) : Prop where
  running : p'.log.mode = .running
  disk : Advances p.log.disk p'.log.disk
  applied : p.appliedSeqNo ≤ p'.appliedSeqNo

theorem getElem?_set_cases {partitions : List PartitionState} {i j : Nat} {q : PartitionState}
    (found : (partitions.set i p')[j]? = some q) :
    (i = j ∧ q = p') ∨ (i ≠ j ∧ partitions[j]? = some q) := by
  by_cases same : i = j
  · subst same
    rw [List.getElem?_set_self'] at found
    obtain ⟨old, -, rfl⟩ := Option.map_eq_some_iff.mp found
    exact Or.inl ⟨rfl, rfl⟩
  · rw [List.getElem?_set_ne same] at found
    exact Or.inr ⟨same, found⟩

theorem IndexInv.onPartition (h : IndexInv codec s) (found : s.partitions[partitionId]? = some p)
    (inv : PartitionInv codec (s.covered partitionId) p')
    (goesOn : p.log.mode = .running → GoesOn p p') :
    IndexInv codec { s with partitions := s.partitions.set partitionId p' } := by
  have allRunning : AllRunning s →
      AllRunning { s with partitions := s.partitions.set partitionId p' } := by
    intro all q hq
    obtain ⟨i, at_i⟩ := List.mem_iff_getElem?.mp hq
    rcases getElem?_set_cases at_i with ⟨-, rfl⟩ | ⟨-, same⟩
    · exact (goesOn (all.at found)).running
    · exact all.at same
  refine ⟨?_, h.listed, ?_⟩
  · intro i q at_i
    rcases getElem?_set_cases at_i with ⟨rfl, rfl⟩ | ⟨-, same⟩
    · exact inv
    · exact h.partitions i q same
  · have phase := h.phase
    simp only
    cases current : s.phase with
    | idle => trivial
    | capturing prior fromMemory =>
      rw [current] at phase
      exact ⟨allRunning phase.1, phase.2⟩
    | writing prior targets =>
      rw [current] at phase
      obtain ⟨all, captured⟩ := phase
      refine ⟨allRunning all, captured.prior, captured.single, captured.covers, ?_⟩
      intro t ht q at_t
      rcases getElem?_set_cases at_t with ⟨rfl, rfl⟩ | ⟨-, same⟩
      · exact Nat.le_trans (captured.applied t ht p found) (goesOn (all.at found)).applied
      · exact captured.applied t ht q same
    | truncating targets stage =>
      rw [current] at phase
      obtain ⟨all, covers, safe⟩ := phase
      refine ⟨allRunning all, covers, ?_⟩
      intro t rest split q at_t
      rcases getElem?_set_cases at_t with ⟨rfl, rfl⟩ | ⟨-, same⟩
      · exact (safe t rest split p found).advance (goesOn (all.at found)).disk
      · exact safe t rest split q same

theorem le_replayedHighest {disk : Disk} {fromSeqNo : Nat} {replay : Replay}
    (replayed : replayWal codec disk fromSeqNo = .ok replay) :
    fromSeqNo ≤ replay.position.highestSeqNo := by
  have folds : ∀ (entries : List ReplicationLogEntry) (position : ReplayPosition),
      position.highestSeqNo ≤ (entries.foldl replayEntry position).highestSeqNo := by
    intro entries
    induction entries with
    | nil => exact fun _ => Nat.le_refl _
    | cons e rest ih =>
      intro position
      refine Nat.le_trans ?_ (ih (replayEntry position e))
      unfold replayEntry
      split
      · exact Nat.le_refl _
      · simp only
        omega
  simp only [replayWal] at replayed
  cases read : readWalSegments codec disk with
  | error err =>
    rw [read] at replayed
    cases replayed
  | ok found =>
    rw [read] at replayed
    cases found with
    | none =>
      cases replayed
      exact Nat.le_refl _
    | some read =>
      simp only [bind, Except.bind] at replayed
      split at replayed <;> cases replayed
      exact folds _ ⟨[], fromSeqNo, 0⟩

theorem recovered_bounds {log : LogState} {fromSeqNo : Nat} {phase : RecoveryPhase}
    {segs : List Segment} (inv : RecoveringInv codec log segs fromSeqNo phase)
    (done : (recoverStep codec log fromSeqNo phase).mode = .running) :
    fromSeqNo ≤ (recoverStep codec log fromSeqNo phase).replayedSeqNo ∧
      (recoverStep codec log fromSeqNo phase).replayedSeqNo
        < (recoverStep codec log fromSeqNo phase).nextSeqNo := by
  have finished : ∀ {log : LogState} {replay : Replay}, fromSeqNo ≤ replay.position.highestSeqNo →
      fromSeqNo ≤ (finishRecovery log replay).replayedSeqNo ∧
        (finishRecovery log replay).replayedSeqNo < (finishRecovery log replay).nextSeqNo := by
    intro log replay reaches
    refine ⟨reaches, ?_⟩
    simp only [finishRecovery]
    omega
  have reaches : ∀ {v : LogView} {replay : Replay},
      Recovers v.truncated v.appended v.owed fromSeqNo replay →
      fromSeqNo ≤ replay.position.highestSeqNo := by
    intro v replay recovers
    rw [recovers.highest]
    exact Nat.le_max_left _ _
  cases phase with
  | removeNext => cases done
  | replay =>
    simp only [recoverStep] at done ⊢
    cases replayed : replayWal codec log.disk fromSeqNo with
    | error err =>
      rw [replayed] at done
      cases done
    | ok replay =>
      rw [replayed] at done
      simp only at done ⊢
      cases read : replay.read with
      | none => exact finished (le_replayedHighest replayed)
      | some read' =>
        rw [read] at done
        cases done
  | deleteOrphans replay read orphans =>
    cases orphans with
    | cons orphan rest => cases done
    | nil =>
      obtain ⟨tail, m, p, j, k, rfl, found, replayed, -⟩ := inv.phase
      simp only [recoverStep, found] at done ⊢
      split at done
      next clean =>
        rw [if_pos clean]
        exact finished (reaches replayed.recovers)
      next => cases done
  | repairTail replay read tail =>
    obtain ⟨m, p, j, k, rfl, replayed, -⟩ := inv.phase
    simp only [recoverStep] at done ⊢
    split at done
    next clean =>
      rw [if_pos clean]
      exact finished (reaches replayed.recovers)
    next => cases done
  | writeMarker replay read tail => cases done
  | marking replay w =>
    obtain ⟨i, m, p, k, -, -, -, -, -, -, recovers⟩ := inv.phase
    exact finished (reaches recovers)

theorem recoverStep_from {log : LogState} {fromSeqNo fromSeqNo' : Nat} {phase phase' : RecoveryPhase}
    (mode : (recoverStep codec log fromSeqNo phase).mode = .recovering fromSeqNo' phase') :
    fromSeqNo' = fromSeqNo := by
  unfold recoverStep at mode
  repeat' (split at mode)
  all_goals cases mode
  all_goals rfl

theorem recoverStep_of_next {log log' : LogState} {a : Durability.Action}
    (stopped : log.mode ≠ .running) (noCrash : IsLogStep a = true)
    (step : Durability.next codec segmentMaxBytes log a = some log') :
    ∃ fromSeqNo phase, log.mode = .recovering fromSeqNo phase ∧
      log' = recoverStep codec log fromSeqNo phase := by
  cases a with
  | recoverStep =>
    simp only [Durability.next] at step
    split at step
    next fromSeqNo phase mode =>
      cases step
      exact ⟨fromSeqNo, phase, mode, rfl⟩
    next => cases step
  | crash outcome => cases noCrash
  | appendAll entries => cases noCrash
  | takeLock owner =>
    cases owner
    all_goals
      simp only [Durability.next, if_neg stopped] at step
      split at step <;> cases step
  | lockStep moveFirst =>
    simp only [Durability.next, if_neg stopped] at step
    split at step <;> cases step
  | _ => simp [Durability.next, stopped] at step

/-- What a step of the log must meet, seen from the index. -/
def StepRecordable (codec : EntryCodec) : Action → Prop
  | .recordBatch _ entries => ∀ e ∈ entries, Recordable codec e
  | _ => True

theorem PartitionInv.logStep (h : PartitionInv codec covered p) {a : Durability.Action}
    (step : logStep codec segmentMaxBytes a p = some p') :
    PartitionInv codec covered p' ∧ (p.log.mode = .running → GoesOn p p') := by
  simp only [CheckpointRun.logStep] at step
  split at step
  next isLogStep =>
    obtain ⟨log, stepped, rfl⟩ := Option.map_eq_some_iff.mp step
    have recordable : Durability.StepRecordable codec a := by
      cases a <;> trivial
    have keeps : StepKeepsMarker p.log a := by
      cases a <;> trivial
    have fromCheckpoint : StepFromCheckpoint p.log a := by
      cases a <;> trivial
    have inv : LogInv codec log := next_inv h.log recordable keeps fromCheckpoint stepped
    have truncated : ∀ e ∈ log.truncated, e.seqNo ≤ covered := by
      rw [(next_continues stepped).1]
      exact h.truncated
    by_cases running : p.log.mode = .running
    · have noCrash : ∀ outcome, a ≠ .crash outcome := by
        rintro outcome rfl
        cases isLogStep
      obtain ⟨segs, run⟩ := h.log.running running
      obtain ⟨advances, grows, running', -⟩ := next_advances run running noCrash stepped
      have same : registerPartition p.log { p with log := log } = { p with log := log } := by
        simp [registerPartition, running]
      rw [same]
      refine ⟨⟨inv, truncated, ?_, ?_, ?_⟩, fun _ => ⟨running', advances, Nat.le_refl _⟩⟩
      · intro fromSeqNo phase mode
        rw [show log.mode = _ from running'] at mode
        cases mode
      · intro _
        obtain ⟨ahead, below⟩ := h.applied running
        exact ⟨ahead, Nat.lt_of_lt_of_le below grows⟩
      · intro lastSeqNo batch
        obtain ⟨-, ahead, below⟩ := h.batch lastSeqNo batch
        exact ⟨running', ahead, Nat.lt_of_lt_of_le below grows⟩
    · obtain ⟨fromSeqNo, phase, mode, rfl⟩ := recoverStep_of_next running isLogStep stepped
      have from_eq : fromSeqNo = covered := h.recovering fromSeqNo phase mode
      have noBatch : ∀ lastSeqNo, p.batch ≠ some lastSeqNo := fun lastSeqNo batch =>
        running (h.batch lastSeqNo batch).1
      refine ⟨?_, fun isRunning => absurd isRunning running⟩
      by_cases done : (recoverStep codec p.log fromSeqNo phase).mode = .running
      · have before := h.log
        unfold LogInv at before
        rw [mode] at before
        obtain ⟨segs, recovering⟩ := before
        obtain ⟨reaches, below⟩ := recovered_bounds recovering done
        simp only [registerPartition, if_pos (And.intro running done)]
        refine ⟨inv, truncated, ?_, fun _ => ⟨from_eq ▸ reaches, below⟩, ?_⟩
        · intro fromSeqNo' phase' mode'
          rw [show _ = _ from done] at mode'
          cases mode'
        · exact fun lastSeqNo batch => absurd batch (noBatch lastSeqNo)
      · simp only [registerPartition, done, and_false, if_false]
        refine ⟨inv, truncated, ?_, fun isRunning => absurd isRunning done, ?_⟩
        · exact fun fromSeqNo' phase' mode' => (recoverStep_from mode').trans from_eq
        · exact fun lastSeqNo batch => absurd batch (noBatch lastSeqNo)
  next => cases step

theorem PartitionInv.recordBatch (h : PartitionInv codec covered p)
    {entries : List ReplicationLogEntry} (recordable : ∀ e ∈ entries, Recordable codec e)
    (step : recordBatch codec segmentMaxBytes entries p = some p') :
    PartitionInv codec covered p' ∧ (p.log.mode = .running → GoesOn p p') := by
  simp only [CheckpointRun.recordBatch] at step
  split at step
  next free =>
    obtain ⟨last, isLast, step⟩ := Option.bind_eq_some_iff.mp step
    obtain ⟨log, stepped, rfl⟩ := Option.map_eq_some_iff.mp step
    have recordable' : Durability.StepRecordable codec (.appendAll entries) := recordable
    have inv : LogInv codec log := next_inv h.log recordable' trivial trivial stepped
    have truncated : ∀ e ∈ log.truncated, e.seqNo ≤ covered := by
      rw [(next_continues stepped).1]
      exact h.truncated
    have enabled := stepped
    simp only [Durability.next] at enabled
    split at enabled
    next guard =>
      obtain ⟨running, -, -, above⟩ := guard
      obtain ⟨segs, run⟩ := h.log.running running
      obtain ⟨advances, grows, running', -⟩ :=
        next_advances run running (fun _ => by simp) stepped
      obtain ⟨ahead, below⟩ := h.applied running
      have lastAbove := above last (List.mem_of_getLast? isLast)
      have bound : last.seqNo < log.nextSeqNo := by
        cases enabled
        simp only [isLast, Option.elim_some]
        omega
      refine ⟨⟨inv, truncated, ?_, fun _ => ⟨ahead, by simp only; omega⟩, ?_⟩,
        fun _ => ⟨running', advances, Nat.le_refl _⟩⟩
      · intro fromSeqNo phase mode
        rw [show log.mode = _ from running'] at mode
        cases mode
      · intro lastSeqNo batch
        cases batch
        exact ⟨running', by simp only; omega, bound⟩
    next => cases enabled
  next => cases step

theorem PartitionInv.batchReturns (h : PartitionInv codec covered p)
    (step : batchReturns p = some p') :
    PartitionInv codec covered p' ∧ (p.log.mode = .running → GoesOn p p') := by
  simp only [CheckpointRun.batchReturns] at step
  split at step
  next lastSeqNo batch =>
    obtain ⟨running, ahead, below⟩ := h.batch lastSeqNo batch
    split at step
    · split at step <;> cases step
      · refine ⟨⟨h.log, h.truncated, h.recovering, fun _ => ⟨?_, below⟩, fun _ none => by cases none⟩,
          fun _ => ⟨running, .refl _, ahead⟩⟩
        exact Nat.le_trans (h.applied running).1 ahead
      · exact ⟨⟨h.log, h.truncated, h.recovering, h.applied, fun _ none => by cases none⟩,
          fun _ => ⟨running, .refl _, Nat.le_refl _⟩⟩
    · cases step
  next => cases step

theorem IndexInv.captureCheckpoint (h : IndexInv codec s) {fromMemory : Bool}
    (phase : s.phase = .capturing prior fromMemory) :
    IndexInv codec { s with
      phase := .writing prior (CheckpointRun.captureCheckpoint prior fromMemory s.partitions) } := by
  have before := h.phase
  rw [phase] at before
  obtain ⟨all, rfl⟩ := before
  refine ⟨h.partitions, h.listed, all, rfl, ?_, ?_, ?_⟩
  · intro t ht t' ht' same
    obtain ⟨p, found, target⟩ := captureTarget_spec ht
    obtain ⟨p', found', target'⟩ := captureTarget_spec ht'
    rw [← same, found] at found'
    cases found'
    rw [← same, target] at target'
    exact Option.some.inj target'
  · intro t ht
    obtain ⟨p, found, target⟩ := captureTarget_spec ht
    have ahead := ((h.partitions _ p found).applied (all.at found)).1
    exact (captureTarget_bounds target ahead).1
  · intro t ht p' found'
    obtain ⟨p, found, target⟩ := captureTarget_spec ht
    have same : some p = some p' := found.symm.trans found'
    cases same
    have ahead := ((h.partitions _ p' found).applied (all.at found)).1
    exact (captureTarget_bounds target ahead).2

theorem IndexInv.commitManifest (h : IndexInv codec s) (phase : s.phase = .writing prior targets) :
    IndexInv codec { s with
      manifest := some (carryForwardUncheckpointedPartitions prior targets)
      phase := .truncating targets .readMarker } := by
  have before := h.phase
  rw [phase] at before
  obtain ⟨all, captured⟩ := before
  obtain ⟨rfl, single, covers, applied⟩ := captured
  have now : ∀ partitionId,
      checkpointLastSeqNo (carryForwardUncheckpointedPartitions s.manifest targets).checkpoint partitionId
        = (targets.find? fun c => c.partitionId = partitionId).elim (s.covered partitionId)
          PartitionCheckpoint.lastSeqNo := by
    intro partitionId
    rw [checkpointLastSeqNo, find_carriedForward h.listed]
    cases targets.find? fun c => c.partitionId = partitionId <;> rfl
  have ofTarget : ∀ {partitionId t}, targets.find? (fun c => c.partitionId = partitionId) = some t →
      t ∈ targets ∧ t.partitionId = partitionId := fun found =>
    ⟨List.mem_of_find?_eq_some found, by simpa using List.find?_some found⟩
  have more : ∀ partitionId, s.covered partitionId
      ≤ checkpointLastSeqNo (carryForwardUncheckpointedPartitions s.manifest targets).checkpoint
          partitionId := by
    intro partitionId
    rw [now]
    cases found : targets.find? fun c => c.partitionId = partitionId with
    | none => exact Nat.le_refl _
    | some t =>
      obtain ⟨member, rfl⟩ := ofTarget found
      exact covers t member
  refine ⟨?_, ?_, all, ?_, fun _ _ _ _ _ => trivial⟩
  · intro partitionId p found
    have old := h.partitions partitionId p found
    have running := all.at found
    refine ⟨old.log, fun e he => Nat.le_trans (old.truncated e he) (more partitionId), ?_,
      fun _ => ⟨?_, (old.applied running).2⟩, old.batch⟩
    · intro fromSeqNo recovery mode
      rw [running] at mode
      cases mode
    · simp only [IndexState.covered, Option.elim_some, now]
      cases target : targets.find? fun c => c.partitionId = partitionId with
      | none => exact (old.applied running).1
      | some t =>
        obtain ⟨member, rfl⟩ := ofTarget target
        exact applied t member p found
  · intro m same
    cases same
    exact listed_carriedForward
  · intro t ht
    simp only [IndexState.covered, Option.elim_some, now]
    cases target : targets.find? fun c => c.partitionId = t.partitionId with
    | none =>
      exact absurd (decide_eq_true rfl) (List.find?_eq_none.mp target t ht)
    | some t' =>
      obtain ⟨member, same⟩ := ofTarget target
      rw [single t' member t ht same]
      exact Nat.le_refl _

theorem IndexInv.truncateStep (h : IndexInv codec s) (phase : s.phase = .truncating targets stage) :
    IndexInv codec (truncateStep codec s targets stage) := by
  have before := h.phase
  rw [phase] at before
  obtain ⟨all, covers, safe⟩ := before
  cases targets with
  | nil => exact ⟨h.partitions, h.listed, trivial⟩
  | cons target rest =>
    have coversRest : ∀ t ∈ rest, t.lastSeqNo ≤ s.covered t.partitionId := fun t ht =>
      covers t (List.mem_cons_of_mem _ ht)
    have onward : IndexInv codec { s with phase := .truncating rest .readMarker } :=
      ⟨h.partitions, h.listed, all, coversRest, fun _ _ _ _ _ => trivial⟩
    simp only [CheckpointRun.truncateStep]
    cases found : s.partitions[target.partitionId]? with
    | none => exact onward
    | some p =>
      have safeHere := safe target rest rfl p found
      have inv := h.partitions _ p found
      have running := all.at found
      obtain ⟨segs, run⟩ := inv.log.running running
      have layout := run.common.disk.layout
      have stays : ∀ stage' : TruncateStage, stage'.Safe p.log.disk target.lastSeqNo →
          IndexInv codec { s with phase := .truncating (target :: rest) stage' } := by
        intro stage' safe'
        refine ⟨h.partitions, h.listed, all, covers, ?_⟩
        intro t rest' same q at_t
        cases same
        rw [show s.partitions[target.partitionId]? = some p from found] at at_t
        cases at_t
        exact safe'
      match stage, safeHere with
      | .readMarker, _ =>
        simp only
        split
        · exact onward
        next m i read => exact stays _ (markedFrom_of_read run read)
      | .list activeSegmentSeqNo, marked => exact stays _ (MarkedFrom.plan marked layout _)
      | .remove [], _ => exact onward
      | .remove (start :: startSeqNos), plan =>
        have plan : RemovalPlan p.log.disk target.lastSeqNo (start :: startSeqNos) := plan
        obtain ⟨q, start_eq, drop, later, file, entries, within⟩ := plan.droppable run.common.disk
        have removed := removeLogSegment_eq start_eq file entries
        have left := plan.removed layout
        have run' := run.drop drop later
        have inv' : PartitionInv codec (s.covered target.partitionId)
            { p with log := removeLogSegment codec p.log start } := by
          refine ⟨?_, ?_, inv.recovering, inv.applied, inv.batch⟩
          · rw [removed]
            exact .of_running run' running
          · intro e he
            rw [removed] at he
            rcases List.mem_append.mp he with old | new
            · exact inv.truncated e old
            · exact Nat.le_trans (within e new) (covers target (by simp))
        refine ⟨?_, h.listed, ?_, covers, ?_⟩
        · intro i r at_i
          rcases getElem?_set_cases at_i with ⟨rfl, rfl⟩ | ⟨-, same⟩
          · exact inv'
          · exact h.partitions i r same
        · intro r hr
          obtain ⟨i, at_i⟩ := List.mem_iff_getElem?.mp hr
          rcases getElem?_set_cases at_i with ⟨-, rfl⟩ | ⟨-, same⟩
          · exact running
          · exact all.at same
        · intro t rest' same r at_t
          cases same
          rcases getElem?_set_cases at_t with ⟨-, rfl⟩ | ⟨other, -⟩
          · exact left
          · exact absurd rfl other

theorem IndexInv.crash (h : IndexInv codec s) (outcomes : Outcomes)
    (survives : ∀ partitionId p, s.partitions[partitionId]? = some p →
      MarkerSurvives p.log (crashOutcome s outcomes partitionId)) :
    IndexInv codec { s with
      partitions := s.partitions.zipIdx.map (crashPartition s outcomes), phase := .idle } := by
  refine ⟨?_, h.listed, trivial⟩
  intro partitionId p' found
  simp only [List.getElem?_map, List.getElem?_zipIdx, Option.map_map, Nat.zero_add] at found
  obtain ⟨p, before, rfl⟩ := Option.map_eq_some_iff.mp found
  have inv := h.partitions partitionId p before
  refine ⟨inv.log.crash inv.truncated (survives partitionId p before), inv.truncated, ?_, ?_, ?_⟩
  · intro fromSeqNo phase mode
    cases mode
    rfl
  · intro mode
    cases mode
  · intro lastSeqNo batch
    cases batch

/-- A crash in this step leaves each log's marker readable, or no more than a
header. -/
def StepKeepsMarkers (s : IndexState) : Action → Prop
  | .crash outcomes => ∀ entry ∈ s.partitions.zipIdx,
      MarkerSurvives entry.1.log (crashOutcome s outcomes entry.2)
  | _ => True

instance (s : IndexState) : ∀ a, Decidable (StepKeepsMarkers s a)
  | .crash _ => inferInstanceAs (Decidable (∀ entry ∈ s.partitions.zipIdx, MarkerSurvives _ _))
  | .log _ _ | .recordBatch _ _ | .batchReturns _ | .failPartition _ | .startCheckpoint _
  | .captureCheckpoint | .commitManifest | .abandonCheckpoint | .truncateStep => isTrue trivial

theorem IndexInv.changed (h : IndexInv codec s)
    {change : PartitionState → Option PartitionState}
    (keeps : ∀ covered p p', PartitionInv codec covered p → change p = some p' →
      PartitionInv codec covered p' ∧ (p.log.mode = .running → GoesOn p p'))
    (step : s.onPartition partitionId change = some s') : IndexInv codec s' := by
  obtain ⟨p, found, step⟩ := Option.bind_eq_some_iff.mp step
  obtain ⟨p', changed, rfl⟩ := Option.map_eq_some_iff.mp step
  obtain ⟨inv, goesOn⟩ := keeps _ p p' (h.partitions _ p found) changed
  exact h.onPartition found inv goesOn

theorem IndexInv.next (h : IndexInv codec s) {a : Action} (recordable : StepRecordable codec a)
    (keeps : StepKeepsMarkers s a) (step : next codec segmentMaxBytes s a = some s') :
    IndexInv codec s' := by
  cases a with
  | log partitionId action => exact h.changed (fun _ _ _ inv step => inv.logStep step) step
  | recordBatch partitionId entries =>
    exact h.changed (fun _ _ _ inv step => inv.recordBatch recordable step) step
  | batchReturns partitionId => exact h.changed (fun _ _ _ inv step => inv.batchReturns step) step
  | failPartition partitionId =>
    refine h.changed (fun _ p p' inv changed => ?_) step
    cases changed
    exact ⟨⟨inv.log, inv.truncated, inv.recovering, inv.applied, inv.batch⟩,
      fun running => ⟨running, .refl _, Nat.le_refl _⟩⟩
  | startCheckpoint fromMemory =>
    simp only [CheckpointRun.next] at step
    split at step <;> cases step
    next enabled => exact ⟨h.partitions, h.listed, enabled.2, rfl⟩
  | captureCheckpoint =>
    simp only [CheckpointRun.next] at step
    split at step
    next prior fromMemory phase =>
      split at step <;> cases step
      exact h.captureCheckpoint phase
    next => cases step
  | commitManifest =>
    simp only [CheckpointRun.next] at step
    split at step
    next prior targets phase =>
      split at step <;> cases step
      exact h.commitManifest phase
    next => cases step
  | abandonCheckpoint =>
    simp only [CheckpointRun.next] at step
    split at step <;> cases step
    exact ⟨h.partitions, h.listed, trivial⟩
  | truncateStep =>
    simp only [CheckpointRun.next] at step
    split at step
    next targets stage phase =>
      cases step
      exact h.truncateStep phase
    next => cases step
  | crash outcomes =>
    cases step
    exact h.crash outcomes fun partitionId p found =>
      keeps (p, partitionId) (List.mem_zipIdx_iff_getElem?.mpr found)

theorem initial_inv (partitionCount : Nat) : IndexInv codec (.initial partitionCount) := by
  refine ⟨?_, ?_, trivial⟩
  · intro partitionId p found
    obtain rfl : p = .initial := List.eq_of_mem_replicate (List.mem_of_getElem? found)
    refine ⟨Durability.initial_inv, ?_, ?_, fun _ => ⟨Nat.le_refl _, Nat.one_pos⟩, ?_⟩
    · exact fun e he => by cases he
    · exact fun _ _ mode => by cases mode
    · exact fun _ batch => by cases batch
  · exact fun m none => by cases none

theorem run_inv {partitionCount : Nat} {acts : List Action}
    (recordable : ∀ a ∈ acts, StepRecordable codec a)
    (keeps : AllSteps (CheckpointRun.next codec segmentMaxBytes) StepKeepsMarkers
      (.initial partitionCount) acts)
    (reached : run (CheckpointRun.next codec segmentMaxBytes) (.initial partitionCount) acts = some s) :
    IndexInv codec s := by
  have all : AllSteps (CheckpointRun.next codec segmentMaxBytes)
      (fun s a => StepRecordable codec a ∧ StepKeepsMarkers s a) (.initial partitionCount) acts :=
    (AllSteps.of_forall (fun a ha _ => recordable a ha) _).and keeps
  refine run_invariant_of _ _ (IndexInv codec) ?_ acts _ s (initial_inv partitionCount) all reached
  exact fun s a s' inv meets step => inv.next meets.1 meets.2 step

end Narsil.Durability.CheckpointRun
