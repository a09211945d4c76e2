import Narsil.Durability.CaptureGate

/-!
# Captures are consistent

What a capture finds on the partitions it holds, over every run of an index, and that a
capture that was asked for is never stuck behind its gate.
-/
namespace Narsil.Durability.CaptureGate

variable {μ : Type} {deps : PartitionBatchDeps}

/-- The memory of a partition is the result of exactly the records whose entries are the log's,
and these end at its `appliedSeqNo`. -/
structure Consistent (deps : PartitionBatchDeps) (p : ChainedPartition μ) : Prop where
  memory : ChainedPartition.applyHistory p.history p.startMemory = .ok p.memory
  entries : p.history.map Application.entry = p.partition.appended.map some
  upTo : ChainedPartition.UpTo p.startSeqNo p.partition.appended p.partition.appliedSeqNo
  made : ∀ application ∈ p.history, ChainedPartition.Made deps application

/-- A step of what is on the chain of a partition. -/
inductive OnChain (id : Nat) : Label μ → Prop where
  | advance : OnChain id (.advance id)
  | reach (throws : Bool) : OnChain id (.reach id throws)
  | leave : OnChain id (.leave id)

namespace IndexState

variable {s s' : IndexState μ} {a : Label μ}

theorem entries_numbered {history : List (Application μ)} (whole : ChainedPartition.NoneRefused history) :
    history.map Application.entry = (history.filterMap Application.entry).map some := by
  induction history with
  | nil => rfl
  | cons application history ih =>
    obtain ⟨entry, given⟩ := Option.isSome_iff_exists.mp (whole application List.mem_cons_self)
    rw [List.map_cons, List.filterMap_cons_some given, List.map_cons, given,
      ih fun later isIn => whole later (List.mem_cons_of_mem _ isIn)]

theorem idle_consistent {p : ChainedPartition μ} (inv : p.Inv deps) (idle : p.phase = none)
    (unfailed : p.partition.failed = none) (whole : ChainedPartition.NoneRefused p.history) : Consistent deps p := by
  have sound := inv.sound unfailed
  refine ⟨?_, ?_, sound.upTo, sound.made⟩
  · have memory := sound.memory whole
    rw [ChainedPartition.inFlight_idle idle, List.append_nil] at memory
    exact memory
  · rw [sound.entries]
    exact entries_numbered whole

theorem advance_batch_isSome {p : ChainedPartition μ} {events : BatchEvents μ} {records : List MutationRecord}
    {rest : List (ChainJob μ)} (chain : p.chain = .batch events records :: rest) (fatal : Option NarsilError) :
    (p.advance deps fatal).isSome := by
  rw [ChainedPartition.advance, chain]
  cases p.phase with
  | none =>
    dsimp only
    split <;> rfl
  | some phase => rfl

theorem advance_roll_isSome {p : ChainedPartition μ} {fails : Option NarsilError} {rest : List (ChainJob μ)}
    (chain : p.chain = .roll fails :: rest) (idle : p.phase = none) (fatal : Option NarsilError) :
    (p.advance deps fatal).isSome := by
  rw [ChainedPartition.advance, chain, idle]
  cases fails with
  | none => rfl
  | some error =>
    dsimp only
    split <;> rfl

theorem Inv.front_moves (inv : s.Inv deps) {id : Nat} {job : ChainJob μ} {rest : List (ChainJob μ)}
    (chain : (s.partition id).chain = job :: rest) :
    (∃ label, OnChain id label ∧ (s.next deps label).isSome) ∨
      ∃ c capture, job = .hold c true ∧ s.captures[c]? = some capture ∧ capture.seen = none := by
  cases job with
  | batch events records =>
    refine .inl ⟨_, .advance, ?_⟩
    rw [next, Option.isSome_map]
    exact advance_batch_isSome chain s.fatalError
  | roll fails =>
    have idle : (s.partition id).phase = none := by
      by_contra busy
      obtain ⟨events, records, others, front⟩ := (inv.partition id).front busy
      rw [chain] at front
      cases front
    refine .inl ⟨_, .advance, ?_⟩
    rw [next, Option.isSome_map]
    exact advance_roll_isSome chain idle s.fatalError
  | hold c reached =>
    cases reached with
    | false =>
      obtain ⟨capture, found, -⟩ := inv.awaited id c (by rw [chain]; exact List.mem_cons_self)
      refine .inl ⟨_, .reach false, ?_⟩
      simp only [next, chain, found, Option.map_some, Option.isSome_some]
    | true =>
      have known : c < s.captures.length := (inv.gated id).known (c, true) (by rw [chain]; exact List.mem_cons_self)
      cases ran : s.captures[c].seen with
      | none => exact .inr ⟨c, _, rfl, List.getElem?_eq_getElem known, ran⟩
      | some seen =>
        refine .inl ⟨_, .leave, ?_⟩
        simp [next, chain, List.getElem?_eq_getElem known, ran]

/-- While a capture has not run, some chain goes on. The induction is on the capture: a hold
that keeps its chain waiting is of an earlier one. -/
theorem Inv.gate_opens (inv : s.Inv deps) (c : Nat) {capture : Capture μ} (found : s.captures[c]? = some capture)
    (unseen : capture.seen = none) : ∃ id label, OnChain id label ∧ (s.next deps label).isSome := by
  induction c using Nat.strongRecOn generalizing capture with
  | ind c ih =>
    obtain ⟨-, -, waiting, some_waits⟩ := inv.pending c capture found unseen
    rw [waiting] at some_waits
    obtain ⟨id, held⟩ := List.exists_mem_of_length_pos some_waits
    have waits : (c, false) ∈ holdsOf (s.partition id).chain := of_decide_eq_true (List.mem_filter.mp held).2
    cases chain : (s.partition id).chain with
    | nil =>
      rw [chain] at waits
      cases waits
    | cons job rest =>
      rcases inv.front_moves chain with ⟨label, moves⟩ | ⟨d, earlier, rfl, found', unseen'⟩
      · exact ⟨id, label, moves⟩
      · refine ih d ?_ found' unseen'
        have ascending := (inv.gated id).ascending
        rw [chain, holdsOf_cons_hold] at ascending waits
        rcases List.mem_cons.mp waits with same | later
        · cases same
        · exact (List.pairwise_cons.mp ascending).1 c (List.mem_map.mpr ⟨_, later, rfl⟩)

theorem next_listed (step : s.next deps a = some s') {c : Nat} {capture : Capture μ}
    (found : s.captures[c]? = some capture) :
    ∃ capture', s'.captures[c]? = some capture' ∧ capture'.listed = capture.listed := by
  have same (kept : s'.captures = s.captures) : ∃ capture', s'.captures[c]? = some capture' ∧
      capture'.listed = capture.listed := ⟨capture, by rw [kept]; exact found, rfl⟩
  have created (id : Nat) : (s.getOrCreate id).captures = s.captures := by
    rw [getOrCreate]
    split <;> rfl
  cases a with
  | register id seqNo primaryTerm =>
    rw [next] at step
    split at step
    · cases step
    · cases step
      exact same (created id)
  | mutate id events records =>
    cases step
    exact same (created id)
  | roll id fails =>
    rw [next] at step
    split at step <;> cases step
    exact same rfl
  | advance id =>
    obtain ⟨advanced, -, rfl⟩ := Option.map_eq_some_iff.mp step
    exact same rfl
  | commit id =>
    cases step
    exact same rfl
  | fail id error =>
    cases step
    exact same rfl
  | rollBack id memory =>
    rw [next] at step
    split at step <;> cases step
    exact same rfl
  | capture turn throws =>
    rw [next] at step
    split at step <;> cases step
    rw [requestCapture]
    have below := (List.getElem?_eq_some_iff.mp found).1
    split
    · exact ⟨capture, by rw [List.getElem?_append_left below]; exact found, rfl⟩
    · exact ⟨capture, by rw [List.getElem?_append_left below]; exact found, rfl⟩
  | reach id throws =>
    rw [next] at step
    split at step
    next d rest chain =>
      obtain ⟨reached, found', rfl⟩ := Option.map_eq_some_iff.mp step
      by_cases here : d = c
      · subst here
        cases found.symm.trans found'
        exact ⟨_, List.getElem?_set_self (List.getElem?_eq_some_iff.mp found).1, rfl⟩
      · exact ⟨capture, (List.getElem?_set_ne here).trans found, rfl⟩
    next => cases step
  | leave id =>
    rw [next] at step
    split at step
    · split at step <;> cases step
      exact same rfl
    · cases step
  | turn label =>
    obtain ⟨turns, -, rfl⟩ := Option.map_eq_some_iff.mp step
    exact same rfl

theorem run_listed {labels : List (Label μ)} (run : Transition.run (next deps) s labels = some s') {c : Nat}
    {capture : Capture μ} (found : s.captures[c]? = some capture) :
    ∃ capture', s'.captures[c]? = some capture' ∧ capture'.listed = capture.listed :=
  Transition.run_invariant (next deps)
    (fun s => ∃ capture', s.captures[c]? = some capture' ∧ capture'.listed = capture.listed)
    (fun _ _ _ kept step => by
      obtain ⟨_, found, listed⟩ := kept
      obtain ⟨capture', found', same⟩ := next_listed step found
      exact ⟨capture', found', same.trans listed⟩)
    labels s s' ⟨capture, found, rfl⟩ run

theorem run_inv {labels : List (Label μ)} (inv : s.Inv deps) (run : Transition.run (next deps) s labels = some s') :
    s'.Inv deps :=
  Transition.run_invariant (next deps) (Inv deps) (fun _ _ _ inv step => next_inv inv step) labels s s' inv run

theorem requestCapture_listed (s : IndexState μ) (throws : Bool) :
    ∃ capture, (s.requestCapture throws).captures[s.captures.length]? = some capture ∧ capture.listed = s.registered := by
  rw [requestCapture]
  split
  next nothing => exact ⟨_, List.getElem?_concat_length, nothing.symm⟩
  next => exact ⟨_, List.getElem?_concat_length, rfl⟩

/-- The first turn of an index, and a batch of partition 0. -/
def mutateInTurn (numbering : Except NarsilError (Option ReplicationLogEntry)) : List (Label (List Nat)) :=
  [.turn (.call false ⟨true, true⟩), .mutate 0 (plainEvents numbering) [⟨"i", 0, .delete, "d", none⟩]]

/-- The batch comes to its end, and the hold behind it is reached. -/
def endThenReach : List (Label (List Nat)) := List.replicate 6 (.advance 0) ++ [.reach 0 false]

/-- A partition that is first written while a capture waits: its batch has applied one record of two. -/
def mutateAnother : List (Label (List Nat)) :=
  [.mutate 1 (plainEvents (.ok none)) (List.replicate 2 ⟨"i", 1, .delete, "e", none⟩), .advance 1, .advance 1]

def startEmpty : IndexState (List Nat) := initial fun _ => []

end IndexState

end Narsil.Durability.CaptureGate
