import Narsil.Durability.RecoverySteps

/-!
# Durability of the log

The invariant along every run, and from it what a replay after a crash returns:
a prefix of what was appended, with everything that was acknowledged or
recovered before. The crashes that leave segment bytes without a readable marker
are left out, and a run shows why: recovery keeps such a segment, the next
writer appends behind its bytes, and the recovery after that fails.
-/
namespace Narsil.Durability

open Transition

variable {codec : EntryCodec} {segmentMaxBytes : Nat} {s s' : LogState}

/-- The assumption on the entries of a step. -/
def StepRecordable (codec : EntryCodec) : Action → Prop
  | .appendAll entries => ∀ e ∈ entries, Recordable codec e
  | _ => True

/-- A crash in this step leaves the marker readable, or nothing but a header. -/
def StepKeepsMarker (s : LogState) : Action → Prop
  | .crash outcome => MarkerSurvives s outcome
  | _ => True

instance (s : LogState) : ∀ a, Decidable (StepKeepsMarker s a)
  | .crash outcome => inferInstanceAs (Decidable (MarkerSurvives s outcome))
  | .appendAll _ | .commit | .rollToNewSegment _ | .prepareCheckpointRoll | .prepareStep
  | .rollForCheckpoint | .callerStep | .takeLock _ | .lockStep _ | .recoverStep => isTrue trivial

/-- Recovery starts behind what a checkpoint removed from the log. -/
def StepFromCheckpoint (s : LogState) : Action → Prop
  | .crash outcome => ∀ e ∈ s.truncated, e.seqNo ≤ outcome.fromSeqNoExclusive
  | _ => True

theorem LogInv.running (h : LogInv codec s) (mode : s.mode = .running) :
    ∃ segs, RunningInv codec s segs := by
  unfold LogInv at h
  rw [mode] at h
  exact h

theorem LogInv.of_running {segs : List Segment} (h : RunningInv codec s segs)
    (mode : s.mode = .running) : LogInv codec s := by
  unfold LogInv
  rw [mode]
  exact ⟨segs, h⟩

theorem LogInv.disk (h : LogInv codec s) :
    ∃ segs, DiskInv codec s.truncated s.appended (owedOf s) s.disk segs ∧
      ∀ p ∈ segs, 0 < p.1.startSeqNo := by
  unfold LogInv at h
  split at h
  · obtain ⟨segs, inv⟩ := h
    exact ⟨segs, inv.common.disk, fun p hp => (inv.common.starts p hp).1⟩
  · obtain ⟨segs, inv⟩ := h
    exact ⟨segs, inv.disk, inv.positive⟩
  · exact h.elim

theorem LogInv.crash (h : LogInv codec s) {outcome : CrashOutcome}
    (below : ∀ e ∈ s.truncated, e.seqNo ≤ outcome.fromSeqNoExclusive)
    (survives : MarkerSurvives s outcome) : LogInv codec (crash s outcome) := by
  obtain ⟨segs, disk, positive⟩ := h.disk
  exact ⟨_, crash_inv disk positive below survives⟩

theorem next_inv (h : LogInv codec s) {a : Action} (recordable : StepRecordable codec a)
    (keeps : StepKeepsMarker s a) (covered : StepFromCheckpoint s a)
    (step : next codec segmentMaxBytes s a = some s') : LogInv codec s' := by
  cases a with
  | appendAll entries =>
    simp only [next] at step
    split at step <;> cases step
    next enabled =>
      obtain ⟨segs, inv⟩ := h.running enabled.1
      exact .of_running (inv.appendAll enabled.2.1 enabled.2.2 recordable) enabled.1
  | commit =>
    simp only [next] at step
    split at step <;> cases step
    next running =>
      obtain ⟨segs, inv⟩ := h.running running
      exact .of_running inv.commit running
  | rollToNewSegment start =>
    simp only [next] at step
    split at step <;> cases step
    next enabled =>
      obtain ⟨segs, inv⟩ := h.running enabled.1
      exact .of_running (inv.rollToNewSegment enabled.2.1 enabled.2.2.1 enabled.2.2.2) enabled.1
  | prepareCheckpointRoll =>
    simp only [next] at step
    split at step
    next enabled =>
      split at step <;> cases step
      next records =>
        obtain ⟨segs, inv⟩ := h.running enabled.1
        exact .of_running (inv.prepareCheckpointRoll enabled.2.1) enabled.1
      next empty => exact h
    next => cases step
  | prepareStep =>
    simp only [next] at step
    split at step <;> cases step
    next enabled =>
      obtain ⟨segs, inv⟩ := h.running enabled.1
      exact .of_running (inv.prepareStep enabled.2) enabled.1
  | rollForCheckpoint =>
    simp only [next] at step
    split at step <;> cases step
    next enabled =>
      obtain ⟨segs, inv⟩ := h.running enabled.1
      exact .of_running (inv.rollForCheckpoint enabled.2.1 enabled.2.2) enabled.1
  | callerStep =>
    simp only [next] at step
    split at step
    next running =>
      obtain ⟨segs, inv⟩ := h.running running
      obtain ⟨segs', inv', mode⟩ := inv.callerStep step
      exact .of_running inv' (mode.trans running)
    next => cases step
  | takeLock owner =>
    cases owner with
    | caller =>
      simp only [next] at step
      split at step
      next job after free queued =>
        split at step <;> cases step
        next running =>
          obtain ⟨segs, inv⟩ := h.running running
          exact .of_running (inv.takeLock_caller free queued) running
      next => cases step
    | coordinator =>
      simp only [next] at step
      split at step
      next batch free inFlight =>
        split at step <;> cases step
        next running =>
          obtain ⟨segs, inv⟩ := h.running running
          exact .of_running (inv.takeLock_coordinator free inFlight) running
      next => cases step
  | lockStep moveFirst =>
    simp only [next] at step
    split at step
    next => cases step
    next owner job locked =>
      split at step
      next running =>
        obtain ⟨segs, inv⟩ := h.running running
        obtain ⟨segs', inv'⟩ := inv.lockStep locked moveFirst
        exact .of_running (inv' s' step).1 ((inv' s' step).2.trans running)
      next => cases step
  | crash outcome =>
    cases step
    exact h.crash covered keeps
  | recoverStep =>
    simp only [next] at step
    split at step
    next from_ phase mode =>
      cases step
      unfold LogInv at h
      rw [mode] at h
      obtain ⟨segs, inv⟩ := h
      exact recoverStep_inv inv
    next => cases step

/-- What was appended grows, until a recovery ends and starts it afresh. -/
def Continues (s s' : LogState) : Prop :=
  s'.truncated = s.truncated ∧
    ((s.appended <+: s'.appended ∧ s'.recovered = s.recovered) ∨ s'.appended = s'.recovered)

theorem Continues.of_eq (truncated : s'.truncated = s.truncated)
    (appended : s'.appended = s.appended) (recovered : s'.recovered = s.recovered) :
    Continues s s' :=
  ⟨truncated, Or.inl ⟨appended ▸ List.prefix_rfl, recovered⟩⟩

theorem callerStep_continues (step : callerStep codec segmentMaxBytes s = some s') :
    Continues s s' := by
  simp only [callerStep] at step
  repeat' (split at step)
  all_goals cases step
  all_goals first
    | exact .of_eq rfl rfl rfl
    | exact ⟨rfl, Or.inl ⟨List.prefix_append _ _, rfl⟩⟩

theorem recoverStep_continues (fromSeqNoExclusive : Nat) (phase : RecoveryPhase) :
    Continues s (recoverStep codec s fromSeqNoExclusive phase) := by
  unfold recoverStep
  repeat' split
  all_goals first
    | exact .of_eq rfl rfl rfl
    | exact ⟨rfl, Or.inr rfl⟩

theorem next_continues {a : Action} (step : next codec segmentMaxBytes s a = some s') :
    Continues s s' := by
  cases a with
  | callerStep =>
    simp only [next] at step
    split at step
    · exact callerStep_continues step
    · cases step
  | recoverStep =>
    simp only [next] at step
    split at step
    · cases step
      exact recoverStep_continues _ _
    · cases step
  | lockStep moveFirst =>
    simp only [next] at step
    split at step
    · cases step
    · split at step
      · split at step <;> cases step
        · exact .of_eq rfl rfl rfl
        · unfold releaseLock
          split <;> exact .of_eq rfl rfl rfl
      · cases step
  | crash outcome =>
    cases step
    exact .of_eq rfl rfl rfl
  | takeLock owner =>
    cases owner
    all_goals
      simp only [next] at step
      repeat' (split at step)
      all_goals cases step
      all_goals exact .of_eq rfl rfl rfl
  | _ =>
    simp only [next] at step
    repeat' (split at step)
    all_goals cases step
    all_goals exact .of_eq rfl rfl rfl

theorem initial_inv : LogInv codec .initial := by
  have layout : Layout codec [] [] [] [] :=
    ⟨rfl, by simp, by simp, List.Pairwise.nil, rfl, List.Pairwise.nil, by simp, by simp⟩
  have unmarked : readCommitMarker MarkerFile.empty = none := rfl
  refine ⟨[], ⟨⟨⟨layout, ?_, ?_, ?_, fun _ => ⟨rfl, rfl⟩⟩, by simp, by simp, Nat.one_pos, ?_, rfl, ?_,
    ⟨Nat.le_refl _, Or.inl rfl, Nat.le_refl _, ?_, ?_⟩⟩, ?_, ?_, owes_idle _, List.Pairwise.nil, ?_,
    ⟨rfl, Or.inl ⟨⟨rfl, by simp, ?_, fun _ => rfl⟩, rfl⟩⟩, trivial⟩⟩
  · exact fun m i read => by cases read
  · exact fun i m write => by cases write
  · exact fun i m write => by cases write
  · exact fun e he => by cases he
  · exact fun e he => by cases he
  · exact fun m i read => by cases read
  · exact fun w known => by cases known
  · exact fun _ prepared => by cases prepared
  · exact fun preparing => by cases preparing
  · exact fun e he => by cases he
  · exact fun m i read => by cases read

/-- What the writer and recovery keep in every run of the log alone, where no
checkpoint removes a segment. -/
structure RunInv (codec : EntryCodec) (s : LogState) : Prop where
  log : LogInv codec s
  truncated : s.truncated = []
  recovered : s.recovered <+: s.appended

theorem RunInv.step (h : RunInv codec s) {a : Action}
    (meets : StepRecordable codec a ∧ StepKeepsMarker s a)
    (step : next codec segmentMaxBytes s a = some s') : RunInv codec s' := by
  have covered : StepFromCheckpoint s a := by
    unfold StepFromCheckpoint
    split
    · simp [h.truncated]
    · trivial
  obtain ⟨truncated, history⟩ := next_continues step
  refine ⟨next_inv h.log meets.1 meets.2 covered step, truncated.trans h.truncated, ?_⟩
  rcases history with ⟨grows, same⟩ | afresh
  · rw [same]
    exact h.recovered.trans grows
  · rw [afresh]

theorem run_inv {acts : List Action} (recordable : ∀ a ∈ acts, StepRecordable codec a)
    (keeps : AllSteps (next codec segmentMaxBytes) StepKeepsMarker .initial acts)
    (reached : run (next codec segmentMaxBytes) .initial acts = some s) : RunInv codec s := by
  have all : AllSteps (next codec segmentMaxBytes)
      (fun s a => StepRecordable codec a ∧ StepKeepsMarker s a) .initial acts :=
    (AllSteps.of_forall (fun a ha _ => recordable a ha) _).and keeps
  refine run_invariant_of _ _ (RunInv codec) ?_ acts .initial s ⟨initial_inv, rfl, ?_⟩ all reached
  · exact fun s a s' inv meets step => inv.step meets step
  · exact List.prefix_rfl

/-- `replayWal` as the next process runs it after the crash. -/
def replayAfter (codec : EntryCodec) (s : LogState) (outcome : CrashOutcome) :
    Except NarsilError Replay :=
  replayWal codec { crashDisk s.disk outcome.kept outcome.marker with next := none }
    outcome.fromSeqNoExclusive

theorem eq_of_prefix_of_subset {xs ys : List ReplicationLogEntry} (h : xs <+: ys)
    (ascending : Ascending ys) (sub : ∀ e ∈ ys, e ∈ xs) : xs = ys := by
  obtain ⟨rest, rfl⟩ := h
  cases rest with
  | nil => rw [List.append_nil]
  | cons e rest =>
    have again := sub e (by simp)
    have := ascending.lt_of_append again (List.mem_cons_self ..)
    omega

theorem prefix_of_subset {xs ys zs : List ReplicationLogEntry} (hx : xs <+: zs) (hy : ys <+: zs)
    (ascending : Ascending zs) (sub : ∀ e ∈ xs, e ∈ ys) : xs <+: ys := by
  rcases List.prefix_or_prefix_of_prefix hx hy with shorter | longer
  · exact shorter
  · rw [eq_of_prefix_of_subset longer (ascending.sublist hx.sublist) sub]

/-- What a replay returns after a crash in a state of a run. -/
structure Survives (s : LogState) (outcome : CrashOutcome) (replay : Replay) : Prop where
  isPrefix : replay.entries <+: s.appended
  acknowledged : ∀ e ∈ s.acknowledged, e ∈ replay.entries
  recovered : s.recovered <+: replay.entries
  applied : replay.position.applied
    = replay.entries.filter fun e => outcome.fromSeqNoExclusive < e.seqNo

theorem RunInv.replays (h : RunInv codec s) (outcome : CrashOutcome) :
    ∃ replay, replayAfter codec s outcome = .ok replay ∧ Survives s outcome replay := by
  obtain ⟨segs, disk, positive⟩ := h.log.disk
  have crashed := (disk.crash outcome.kept outcome.marker).withNext none
  have below : ∀ e ∈ s.truncated, e.seqNo ≤ outcome.fromSeqNoExclusive := by simp [h.truncated]
  have ascending := disk.layout.ascending
  cases current : readCommitMarker (crashDisk s.disk outcome.kept outcome.marker).marker with
  | none =>
    have replayed : replayAfter codec s outcome = _ :=
      replayWal_unmarked outcome.fromSeqNoExclusive current
    obtain ⟨acknowledged, recovered⟩ := List.append_eq_nil_iff.mp (crashed.unmarked current).1
    refine ⟨_, replayed, List.nil_prefix, ?_, ?_, rfl⟩
    · simp [acknowledged]
    · simp [recovered, Replay.entries]
  | some found =>
    obtain ⟨m, i⟩ := found
    obtain ⟨p, j, k, read, replay, -, -, -, -, replayed, recovers⟩ :=
      replayWal_recovers crashed outcome.fromSeqNoExclusive below current
    have isPrefix := recovers.isPrefix
    have owed := recovers.owed
    rw [h.truncated] at isPrefix owed
    refine ⟨replay, replayed, isPrefix, ?_, ?_, recovers.applied⟩
    · exact fun e he => owed e (List.mem_append_left _ he)
    · exact prefix_of_subset h.recovered isPrefix ascending
        fun e he => owed e (List.mem_append_right _ he)

/-- The phases behind the replay, with what it returned. -/
def RecoveryPhase.Holds (replay : Replay) : RecoveryPhase → Prop
  | .removeNext | .replay => False
  | .deleteOrphans r _ _ | .repairTail r _ _ | .writeMarker r _ _ | .marking r _ => r = replay

/-- The state a recovery ends in. -/
structure EndsWith (s : LogState) (replay : Replay) (s' : LogState) : Prop where
  mode : s'.mode = .running
  appended : s'.appended = s.truncated ++ replay.entries
  recovered : s'.recovered = s.truncated ++ replay.entries

def Ends (codec : EntryCodec) (segmentMaxBytes : Nat) (s : LogState) (replay : Replay) : Prop :=
  ∃ n s', run (next codec segmentMaxBytes) s (List.replicate n .recoverStep) = some s' ∧
    EndsWith s replay s'

variable {fromSeqNoExclusive : Nat} {replay : Replay}

theorem finishRecovery_ends :
    Ends codec segmentMaxBytes (finishRecovery s replay) replay := ⟨0, _, rfl, rfl, rfl, rfl⟩

theorem Ends.after {phase : RecoveryPhase} (mode : s.mode = .recovering fromSeqNoExclusive phase)
    (same : (recoverStep codec s fromSeqNoExclusive phase).truncated = s.truncated)
    (rest : Ends codec segmentMaxBytes (recoverStep codec s fromSeqNoExclusive phase) replay) :
    Ends codec segmentMaxBytes s replay := by
  obtain ⟨n, s', reached, ends⟩ := rest
  refine ⟨n + 1, s', ?_, ends.mode, same ▸ ends.appended, same ▸ ends.recovered⟩
  rw [List.replicate_succ, run_cons]
  simp only [next, mode, Option.bind_some]
  exact reached

theorem recovery_ends {phase : RecoveryPhase} (mode : s.mode = .recovering fromSeqNoExclusive phase)
    (holds : phase.Holds replay) : Ends codec segmentMaxBytes s replay := by
  have marking : ∀ {s : LogState} {w}, s.mode = .recovering fromSeqNoExclusive (.marking replay w) →
      Ends codec segmentMaxBytes s replay := fun mode =>
    .after mode rfl finishRecovery_ends
  have writeMarker : ∀ {s : LogState} {read tail},
      s.mode = .recovering fromSeqNoExclusive (.writeMarker replay read tail) →
      Ends codec segmentMaxBytes s replay := fun mode => .after mode rfl (marking rfl)
  have repairTail : ∀ {s : LogState} {read tail},
      s.mode = .recovering fromSeqNoExclusive (.repairTail replay read tail) →
      Ends codec segmentMaxBytes s replay := by
    intro s read tail mode
    by_cases none : tail.entries = []
    · refine .after mode ?_ ?_ <;> simp only [recoverStep, if_pos none]
      · rfl
      · exact finishRecovery_ends
    · refine .after mode ?_ ?_ <;> simp only [recoverStep, if_neg none]
      exact writeMarker rfl
  have deleteOrphans : ∀ (orphans : List Nat) {s : LogState} {read},
      s.mode = .recovering fromSeqNoExclusive (.deleteOrphans replay read orphans) →
      Ends codec segmentMaxBytes s replay := by
    intro orphans
    induction orphans with
    | cons orphan rest ih => exact fun mode => .after mode rfl (ih rfl)
    | nil =>
      intro s read mode
      cases tail : read.activeTail with
      | none =>
        refine .after mode ?_ ?_ <;> simp only [recoverStep, tail]
        · rfl
        · exact finishRecovery_ends
      | some tail' =>
        by_cases clean : tail'.entries = [] ∧ tail'.cleanEnd ≥ tail'.segmentLength
        · refine .after mode ?_ ?_ <;> simp only [recoverStep, tail, if_pos clean]
          · rfl
          · exact finishRecovery_ends
        · refine .after mode ?_ ?_ <;> simp only [recoverStep, tail, if_neg clean]
          exact repairTail rfl
  cases phase with
  | removeNext => exact holds.elim
  | replay => exact holds.elim
  | deleteOrphans r read orphans => cases holds; exact deleteOrphans orphans mode
  | repairTail r read tail => cases holds; exact repairTail mode
  | writeMarker r read tail => cases holds; exact writeMarker mode
  | marking r w => cases holds; exact marking mode

theorem crash_ends {outcome : CrashOutcome} (replayed : replayAfter codec s outcome = .ok replay) :
    Ends codec segmentMaxBytes (crash s outcome) replay := by
  refine .after rfl rfl (.after rfl ?_ ?_) <;>
    simp only [recoverStep, crash, show replayWal codec _ outcome.fromSeqNoExclusive = _ from replayed]
  · cases replay.read <;> rfl
  · cases read : replay.read with
    | none => exact finishRecovery_ends
    | some read => exact recovery_ends rfl rfl

/-- Durability of the log. In every run whose crashes leave the marker readable,
or no more than a header, a crash loses nothing that was acknowledged: the replay
returns a prefix of what was appended, with every acknowledged entry, and it
extends what the last recovery returned. After such a crash recovery ends, and
one more crash leads to the same entries. -/
theorem replayWal_recovers_acknowledged (codec : EntryCodec) (segmentMaxBytes : Nat)
    (acts : List Action) (s : LogState) (outcome : CrashOutcome)
    (recordable : ∀ a ∈ acts, StepRecordable codec a)
    (keeps : AllSteps (next codec segmentMaxBytes) StepKeepsMarker .initial acts)
    (reached : run (next codec segmentMaxBytes) .initial acts = some s) :
    ∃ replay, replayAfter codec s outcome = .ok replay ∧ Survives s outcome replay ∧
      (MarkerSurvives s outcome →
        ∃ n s', run (next codec segmentMaxBytes) (crash s outcome) (List.replicate n .recoverStep)
            = some s' ∧
          s'.mode = .running ∧ s'.appended = replay.entries ∧ s'.recovered = replay.entries ∧
          ∀ outcome', ∃ again, replayAfter codec s' outcome' = .ok again ∧
            again.entries = replay.entries) := by
  have inv : RunInv codec s := run_inv recordable keeps reached
  obtain ⟨replay, replayed, isPrefix⟩ := inv.replays outcome
  refine ⟨replay, replayed, isPrefix, fun survives => ?_⟩
  have finishes : Ends codec segmentMaxBytes (crash s outcome) replay := crash_ends replayed
  obtain ⟨n, s', recovers, ends⟩ := finishes
  have truncated : (crash s outcome).truncated = [] := inv.truncated
  have appended := ends.appended
  have recovered := ends.recovered
  rw [truncated, List.nil_append] at appended recovered
  refine ⟨n, s', recovers, ends.mode, appended, recovered, fun outcome' => ?_⟩
  -- The recovered state is one of the run that goes on with the crash.
  have step : next codec segmentMaxBytes s (.crash outcome) = some (crash s outcome) := rfl
  have meets : StepRecordable codec (.crash outcome) ∧ StepKeepsMarker s (.crash outcome) :=
    ⟨trivial, survives⟩
  have crashed : RunInv codec (crash s outcome) := inv.step meets step
  have inv' : RunInv codec s' := by
    refine run_invariant_of _ (fun _ a => a = .recoverStep) (RunInv codec) ?_ _ _ s' crashed
      (.of_forall (fun a ha _ => List.eq_of_mem_replicate ha) _) recovers
    intro s a s' inv same step
    subst same
    have meets : StepRecordable codec .recoverStep ∧ StepKeepsMarker s .recoverStep :=
      ⟨trivial, trivial⟩
    exact inv.step meets step
  obtain ⟨again, replayed', isPrefix'⟩ := inv'.replays outcome'
  refine ⟨again, replayed', ?_⟩
  have below := isPrefix'.isPrefix
  have above := isPrefix'.recovered
  rw [appended] at below
  rw [recovered] at above
  exact (below.eq_of_length_le above.length_le)

/-- The package's MessagePack encoding of the removal of document `d` of index
`i` with the given sequence number, all numbers below 128. -/
def sampleFields (seqNo : UInt8) : Bytes :=
  [0x97, seqNo, 1, 0xa6, 68, 69, 76, 69, 84, 69, 0, 0xa1, 105, 0xa1, 100, 0xc0]

def sampleEntry (seqNo : UInt8) : ReplicationLogEntry :=
  ⟨seqNo.toNat, 1, .delete, 0, "i", "d", none, Serialization.crc32 (sampleFields seqNo)⟩

def samplePayload (seqNo : UInt8) : Bytes :=
  [0x88, 0xa5, 115, 101, 113, 78, 111, seqNo, 0xab, 112, 114, 105, 109, 97, 114, 121, 84, 101, 114,
    109, 1, 0xa9, 111, 112, 101, 114, 97, 116, 105, 111, 110, 0xa6, 68, 69, 76, 69, 84, 69, 0xab,
    112, 97, 114, 116, 105, 116, 105, 111, 110, 73, 100, 0, 0xa9, 105, 110, 100, 101, 120, 78, 97,
    109, 101, 0xa1, 105, 0xaa, 100, 111, 99, 117, 109, 101, 110, 116, 73, 100, 0xa1, 100, 0xa8, 100,
    111, 99, 117, 109, 101, 110, 116, 0xc0, 0xa8, 99, 104, 101, 99, 107, 115, 117, 109, 0xce]
  ++ setUint32 (Serialization.crc32 (sampleFields seqNo))

/-- The package on those removals. -/
def sampleCodec : EntryCodec where
  encode entry := samplePayload entry.seqNo.toUInt8
  decode bytes :=
    let seqNo := bytes.getD 7 0
    if bytes = samplePayload seqNo then some (sampleEntry seqNo) else none
  encodeFields entry := sampleFields entry.seqNo.toUInt8

set_option maxRecDepth 100000 in
theorem sampleEntry_recordable : Recordable sampleCodec (sampleEntry 1) :=
  ⟨by decide, by decide, by decide⟩

def losesNothing : CrashOutcome := ⟨[], .untouched, 0⟩

/-- Append one entry to an empty log, commit it and crash. -/
def acknowledgedRun : List Action :=
  [.appendAll [sampleEntry 1], .callerStep, .takeLock .caller] ++ List.replicate 5 (.lockStep false)
    ++ List.replicate 3 .callerStep ++ [.commit, .takeLock .coordinator]
    ++ List.replicate 5 (.lockStep false) ++ [.crash losesNothing]

set_option maxRecDepth 100000 in
theorem replayWal_recovers_acknowledged_sample :
    ∃ s replay, run (next sampleCodec 1000) .initial acknowledgedRun = some s ∧
      s.acknowledged = [sampleEntry 1] ∧ replayAfter sampleCodec s losesNothing = .ok replay ∧
      sampleEntry 1 ∈ replay.entries := by
  have recordable : ∀ a ∈ acknowledgedRun, StepRecordable sampleCodec a := by
    simp [acknowledgedRun, StepRecordable, sampleEntry_recordable]
  have keeps : AllSteps (next sampleCodec 1000) StepKeepsMarker .initial acknowledgedRun := by
    decide
  have acknowledges : (run (next sampleCodec 1000) .initial acknowledgedRun).map
      LogState.acknowledged = some [sampleEntry 1] := by
    decide
  obtain ⟨s, reached, acknowledged⟩ := Option.map_eq_some_iff.mp acknowledges
  obtain ⟨replay, replayed, survives, -⟩ := replayWal_recovers_acknowledged sampleCodec 1000
    acknowledgedRun s losesNothing recordable keeps reached
  exact ⟨s, replay, reached, acknowledged, replayed,
    survives.acknowledged _ (by rw [acknowledged]; simp)⟩

/-- A crash leaves three bytes of the first segment's header and no marker. The
recovered log takes an entry behind them and acknowledges it. -/
def tornHeaderRun : List Action :=
  [.appendAll [sampleEntry 1], .callerStep, .crash ⟨[(1, 3)], .untouched, 0⟩,
    .recoverStep, .recoverStep, .appendAll [sampleEntry 1]] ++ List.replicate 4 .callerStep
    ++ [.commit, .takeLock .coordinator] ++ List.replicate 5 (.lockStep false)

set_option maxRecDepth 100000 in
/-- The next recovery refuses the log, and the acknowledged entry with it. -/
theorem replayWal_refuses_acknowledged :
    (∀ a ∈ tornHeaderRun, StepRecordable sampleCodec a) ∧
    ∃ s, run (next sampleCodec 1000) .initial tornHeaderRun = some s ∧
      s.acknowledged = [sampleEntry 1] ∧
      replayAfter sampleCodec s losesNothing = .error
        ⟨.persistenceWalCorrupt, "WAL segment header invalid in durable region: missing NRSW magic"⟩ := by
  refine ⟨by simp [tornHeaderRun, StepRecordable, sampleEntry_recordable], ?_⟩
  have ends : (run (next sampleCodec 1000) .initial tornHeaderRun).map
      (fun s => (s.acknowledged, (replayAfter sampleCodec s losesNothing).toOption,
        match replayAfter sampleCodec s losesNothing with
        | .ok _ => none
        | .error err => some err))
      = some ([sampleEntry 1], none, some ⟨.persistenceWalCorrupt,
        "WAL segment header invalid in durable region: missing NRSW magic"⟩) := by
    decide
  obtain ⟨s, reached, result⟩ := Option.map_eq_some_iff.mp ends
  simp only [Prod.mk.injEq] at result
  refine ⟨s, reached, result.1, ?_⟩
  cases replayed : replayAfter sampleCodec s losesNothing with
  | ok replay => simp [replayed] at result
  | error err => simpa [replayed] using result.2.2

end Narsil.Durability
