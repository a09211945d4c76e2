import Narsil.Durability.ApplyChain
import Narsil.Durability.CheckpointTurns

/-!
# A gate over the append chains

`whileNoMutationApplies` puts a hold on the chain of every partition. The last hold that is
reached runs the capture and lets all of them go, whether the capture throws or not. Mutations
come in, batches go on by one step, writers fail and turns of the index begin and end in any
order.

**Strategy:** the holds of one capture stand on all its chains at once and behind those of
every earlier capture. A hold that was reached stays at the front of its chain until its
capture has run, so that no batch is on its way there.
-/
namespace Narsil.Durability.CaptureGate

variable {μ : Type}

/-- What a capture found. -/
structure Seen (μ : Type) where
  partition : Nat → ChainedPartition μ
  thrown : Bool

/-- One call of `whileNoMutationApplies`; its holds are let go once it has seen. -/
structure Capture (μ : Type) where
  listed : List Nat
  waiting : Nat
  seen : Option (Seen μ)

/-- The partitions of one index; those without a durable state have not been written. -/
structure IndexState (μ : Type) where
  registered : List Nat
  partition : Nat → ChainedPartition μ
  captures : List (Capture μ)
  turns : Turns
  fatalError : Option NarsilError

inductive Label (μ : Type) where
  | register (id seqNo primaryTerm : Nat)
  | mutate (id : Nat) (events : BatchEvents μ) (records : List MutationRecord)
  | roll (id : Nat) (fails : Option NarsilError)
  | advance (id : Nat)
  | commit (id : Nat)
  | fail (id : Nat) (error : NarsilError)
  /-- The engine takes back what a record that was refused its number has done. -/
  | rollBack (id : Nat) (memory : μ)
  | capture (turn : Nat) (throws : Bool)
  | reach (id : Nat) (throws : Bool)
  | leave (id : Nat)
  | turn (label : TurnLabel)

namespace IndexState

def initial (memory : Nat → μ) : IndexState μ where
  registered := []
  partition id := .fresh 0 singleNodePrimaryTerm (memory id)
  captures := []
  turns := .initial
  fatalError := none

def setPartition (s : IndexState μ) (id : Nat) (p : ChainedPartition μ) : IndexState μ :=
  { s with partition := Function.update s.partition id p }

/-- `getOrCreatePartition`. -/
def getOrCreate (s : IndexState μ) (id : Nat) : IndexState μ :=
  if id ∈ s.registered then s else { s with registered := s.registered ++ [id] }

/-- `appendChain = appendChain.then(job)`. -/
def chained (p : ChainedPartition μ) (job : ChainJob μ) : ChainedPartition μ := { p with chain := p.chain ++ [job] }

def requestCapture (s : IndexState μ) (throws : Bool) : IndexState μ :=
  if s.registered = [] then { s with captures := s.captures ++ [⟨[], 0, some ⟨s.partition, throws⟩⟩] }
  else
    { s with
      partition := fun id =>
        if id ∈ s.registered then chained (s.partition id) (.hold s.captures.length false) else s.partition id
      captures := s.captures ++ [⟨s.registered, s.registered.length, none⟩] }

/-- The callback of a hold. -/
def reachHold (s : IndexState μ) (id c : Nat) (rest : List (ChainJob μ)) (capture : Capture μ) (throws : Bool) :
    IndexState μ :=
  let s := s.setPartition id { s.partition id with chain := .hold c true :: rest }
  let waiting := capture.waiting - 1
  let seen := if waiting = 0 then some ⟨s.partition, throws⟩ else none
  { s with captures := s.captures.set c { capture with waiting, seen } }

def next (deps : PartitionBatchDeps) (s : IndexState μ) : Label μ → Option (IndexState μ)
  | .register id seqNo primaryTerm =>
    if id ∈ s.registered then none
    else some ((s.getOrCreate id).setPartition id (.fresh seqNo primaryTerm (s.partition id).memory))
  | .mutate id events records =>
    some ((s.getOrCreate id).setPartition id (chained (s.partition id) (.batch events records)))
  | .roll id fails =>
    if id ∈ s.registered then some (s.setPartition id (chained (s.partition id) (.roll fails))) else none
  | .advance id =>
    ((s.partition id).advance deps s.fatalError).map fun (p, fatalError) => { s.setPartition id p with fatalError }
  | .commit id =>
    let p := s.partition id
    some (s.setPartition id { p with partition := { p.partition with committed := p.partition.appended.length } })
  | .fail id error =>
    let p := s.partition id
    let failed := (failPartition deps ⟨p.partition, s.fatalError, p.memory⟩ error).1
    some { s.setPartition id { p with partition := failed.partition } with fatalError := failed.fatalError }
  | .rollBack id memory =>
    if (s.partition id).history.any fun application => application.entry.isNone then
      some (s.setPartition id { s.partition id with memory })
    else none
  | .capture turn throws => if s.turns.phase turn = .performing then some (s.requestCapture throws) else none
  | .reach id throws =>
    match (s.partition id).chain with
    | .hold c false :: rest => s.captures[c]?.map fun capture => s.reachHold id c rest capture throws
    | _ => none
  | .leave id =>
    match (s.partition id).chain with
    | .hold c true :: rest =>
      if s.captures[c]?.any fun capture => capture.seen.isSome then
        some (s.setPartition id ((s.partition id).settle rest))
      else none
    | _ => none
  | .turn label => (s.turns.next label).map fun turns => { s with turns }

/-! ### The invariant -/

/-- The holds on a chain, each with whether it was reached. -/
def holdsOf (chain : List (ChainJob μ)) : List (Nat × Bool) :=
  chain.filterMap fun job => match job with
    | .hold c reached => some (c, reached)
    | _ => none

/-- A partition on whose chain nothing is on its way: its turn is a hold's. -/
def Idle (p : ChainedPartition μ) : Prop := p.phase = none ∧ ∃ c rest, p.chain = .hold c true :: rest

/-- A partition's holds stand in the order of their captures, a reached one at the front. -/
structure Gated (count : Nat) (p : ChainedPartition μ) : Prop where
  ascending : ((holdsOf p.chain).map Prod.fst).Pairwise (· < ·)
  known : ∀ hold ∈ holdsOf p.chain, hold.1 < count
  front : ∀ c, (c, true) ∈ holdsOf p.chain → ∃ rest, p.chain = .hold c true :: rest

/-- A capture that has not run: its holds stand on the chains it lists, and it counts
those that were not reached. -/
structure Pending (partition : Nat → ChainedPartition μ) (c : Nat) (capture : Capture μ) : Prop where
  distinct : capture.listed.Nodup
  listed : ∀ id, c ∈ (holdsOf (partition id).chain).map Prod.fst ↔ id ∈ capture.listed
  waiting : capture.waiting = (capture.listed.filter fun id => (c, false) ∈ holdsOf (partition id).chain).length
  some_waits : 0 < capture.waiting

structure Inv (deps : PartitionBatchDeps) (s : IndexState μ) : Prop where
  turns : s.turns.Inv
  distinct : s.registered.Nodup
  partition : ∀ id, (s.partition id).Inv deps
  unwritten : ∀ id, id ∉ s.registered → (s.partition id).chain = []
  gated : ∀ id, Gated s.captures.length (s.partition id)
  pending : ∀ c capture, s.captures[c]? = some capture → capture.seen = none → Pending s.partition c capture
  awaited : ∀ id c, (c, false) ∈ holdsOf (s.partition id).chain →
    ∃ capture, s.captures[c]? = some capture ∧ capture.seen = none
  seen : ∀ capture ∈ s.captures, ∀ seen, capture.seen = some seen → ∀ id ∈ capture.listed,
    Idle (seen.partition id) ∧ (seen.partition id).Inv deps

theorem initial_inv (deps : PartitionBatchDeps) (memory : Nat → μ) : (initial memory).Inv deps where
  turns := Turns.initial_inv
  distinct := List.nodup_nil
  partition _ := ChainedPartition.fresh_inv deps ..
  unwritten _ _ := rfl
  gated _ := ⟨List.Pairwise.nil, fun _ isIn => (nomatch isIn), fun _ isIn => (nomatch isIn)⟩
  pending _ _ found := nomatch found
  awaited _ _ isIn := nomatch isIn
  seen _ isIn := nomatch isIn

variable {deps : PartitionBatchDeps} {s : IndexState μ} {id : Nat}

@[simp] theorem holdsOf_cons_batch (events : BatchEvents μ) (records : List MutationRecord) (rest : List (ChainJob μ)) :
    holdsOf (.batch events records :: rest) = holdsOf rest := rfl

@[simp] theorem holdsOf_cons_roll (fails : Option NarsilError) (rest : List (ChainJob μ)) :
    holdsOf (.roll fails :: rest) = holdsOf rest := rfl

@[simp] theorem holdsOf_cons_hold (c : Nat) (reached : Bool) (rest : List (ChainJob μ)) :
    holdsOf (.hold c reached :: rest) = (c, reached) :: holdsOf rest := rfl

theorem holdsOf_append (front back : List (ChainJob μ)) : holdsOf (front ++ back) = holdsOf front ++ holdsOf back :=
  List.filterMap_append

@[simp] theorem setPartition_same (p : ChainedPartition μ) : (s.setPartition id p).partition id = p := by
  simp [setPartition]

theorem setPartition_other {other : Nat} (different : other ≠ id) (p : ChainedPartition μ) :
    (s.setPartition id p).partition other = s.partition other := by
  simp [setPartition, different]

theorem Inv.setPartition (inv : s.Inv deps) {p : ChainedPartition μ} (kept : p.Inv deps)
    (unwritten : id ∉ s.registered → p.chain = []) (same : holdsOf p.chain = holdsOf (s.partition id).chain)
    (front : ∀ c, (c, true) ∈ holdsOf p.chain → ∃ rest, p.chain = .hold c true :: rest) :
    (s.setPartition id p).Inv deps := by
  have holds (other : Nat) : holdsOf ((s.setPartition id p).partition other).chain =
      holdsOf (s.partition other).chain := by
    by_cases here : other = id
    · rw [here, setPartition_same, same]
    · rw [setPartition_other here]
  refine ⟨inv.turns, inv.distinct, fun other => ?_, fun other new => ?_, fun other => ?_, fun c capture found unseen => ?_,
    fun other c waits => ?_, inv.seen⟩
  · by_cases here : other = id
    · rw [here, setPartition_same]
      exact kept
    · rw [setPartition_other here]
      exact inv.partition other
  · by_cases here : other = id
    · subst here
      rw [setPartition_same]
      exact unwritten new
    · rw [setPartition_other here]
      exact inv.unwritten other new
  · obtain ⟨ascending, known, at_front⟩ := inv.gated other
    refine ⟨by rw [holds]; exact ascending, by rw [holds]; exact known, fun c reached => ?_⟩
    by_cases here : other = id
    · subst here
      rw [setPartition_same] at reached ⊢
      exact front c reached
    · rw [setPartition_other here] at reached ⊢
      exact at_front c reached
  · obtain ⟨distinct, listed, waiting, some_waits⟩ := inv.pending c capture found unseen
    refine ⟨distinct, fun other => ?_, ?_, some_waits⟩
    · rw [holds]
      exact listed other
    · simp only [holds]
      exact waiting
  · rw [holds] at waits
    exact inv.awaited other c waits

/-! ### Each step keeps it -/

theorem Inv.getOrCreate (inv : s.Inv deps) (id : Nat) : (s.getOrCreate id).Inv deps := by
  rw [IndexState.getOrCreate]
  split
  · exact inv
  next new =>
    refine ⟨inv.turns, ?_, inv.partition, fun other unlisted => ?_, inv.gated, inv.pending, inv.awaited, inv.seen⟩
    · rw [List.nodup_append]
      exact ⟨inv.distinct, List.pairwise_singleton _ id, fun a isIn b same => by
        rw [List.mem_singleton.mp same]
        rintro rfl
        exact new isIn⟩
    · exact inv.unwritten other fun isIn => unlisted (List.mem_append_left _ isIn)

theorem getOrCreate_registered (s : IndexState μ) (id : Nat) : id ∈ (s.getOrCreate id).registered := by
  rw [getOrCreate]
  split
  next isIn => exact isIn
  next => exact List.mem_append_right _ (List.mem_singleton_self id)

theorem getOrCreate_partition (s : IndexState μ) (id other : Nat) :
    (s.getOrCreate id).partition other = s.partition other := by
  rw [getOrCreate]
  split <;> rfl

theorem chained_front {p : ChainedPartition μ} {job : ChainJob μ}
    (front : ∀ c, (c, true) ∈ holdsOf p.chain → ∃ rest, p.chain = .hold c true :: rest)
    (other : holdsOf [job] = []) :
    holdsOf (chained p job).chain = holdsOf p.chain ∧
      ∀ c, (c, true) ∈ holdsOf (chained p job).chain → ∃ rest, (chained p job).chain = .hold c true :: rest := by
  have same : holdsOf (chained p job).chain = holdsOf p.chain := by
    rw [chained, holdsOf_append, other, List.append_nil]
  refine ⟨same, fun c reached => ?_⟩
  rw [same] at reached
  obtain ⟨rest, chain⟩ := front c reached
  exact ⟨rest ++ [job], by rw [chained, chain, List.cons_append]⟩

theorem chained_inv {p : ChainedPartition μ} (inv : p.Inv deps) (job : ChainJob μ) : (chained p job).Inv deps := by
  have kept : (chained p job).inFlight = p.inFlight := by
    cases phase : p.phase with
    | none => rw [ChainedPartition.inFlight_idle phase, ChainedPartition.inFlight_idle (show (chained p job).phase = none from phase)]
    | some at_phase =>
      obtain ⟨events, records, rest, chain⟩ := inv.front (by rw [phase]; simp)
      simp only [ChainedPartition.inFlight, chained, phase, chain, List.cons_append]
      cases at_phase <;> rfl
  refine ⟨fun busy => ?_, fun unfailed => ?_⟩
  · obtain ⟨events, records, rest, chain⟩ := inv.front busy
    exact ⟨events, records, rest ++ [job], by rw [chained, chain, List.cons_append]⟩
  · have sound := inv.sound unfailed
    refine ⟨fun whole => ?_, sound.entries, sound.upTo, sound.owner, sound.made, ?_, ?_⟩
    · rw [kept]
      exact sound.memory whole
    · exact fun rest numbering numbered phase =>
        have numbers := sound.numbering rest numbering numbered phase
        ⟨numbers.entries, numbers.upTo, numbers.grows, numbers.owner, numbers.seqOwner, numbers.made⟩
    · exact fun numbering numbered phase =>
        have numbers := sound.appending numbering numbered phase
        ⟨numbers.entries, numbers.upTo, numbers.grows, numbers.owner, numbers.seqOwner, numbers.made⟩

theorem Inv.chained (inv : s.Inv deps) (registered : id ∈ s.registered) {job : ChainJob μ}
    (other : holdsOf [job] = []) : (s.setPartition id (chained (s.partition id) job)).Inv deps := by
  obtain ⟨same, front⟩ := chained_front (inv.gated id).front other
  exact inv.setPartition (chained_inv (inv.partition id) job) (fun new => absurd registered new) same front

theorem Inv.touched (inv : s.Inv deps) {p : ChainedPartition μ} (kept : p.Inv deps)
    (chain : p.chain = (s.partition id).chain) : (s.setPartition id p).Inv deps :=
  inv.setPartition kept (fun new => chain.trans (inv.unwritten id new)) (by rw [chain]) fun c reached => by
    rw [chain] at reached ⊢
    exact (inv.gated id).front c reached

theorem advance_chain {p p' : ChainedPartition μ} {fatal fatal' : Option NarsilError}
    (step : p.advance deps fatal = some (p', fatal')) :
    (p'.chain = p.chain ∨ ∃ job, holdsOf [job] = [] ∧ p.chain = job :: p'.chain) ∧
      ∃ job rest, p.chain = job :: rest ∧ holdsOf [job] = [] := by
  rw [ChainedPartition.advance] at step
  split at step
  next events records rest chain phase =>
    refine ⟨?_, _, rest, chain, rfl⟩
    split at step
    · cases step
      exact .inr ⟨_, rfl, chain⟩
    · cases step
      exact .inl rfl
  next events records rest phase chain at_phase =>
    refine ⟨?_, _, rest, chain, rfl⟩
    have same : p' = (p.advanceBatch deps fatal events rest phase).1 := by rw [Option.some.inj step]
    have ends {q : ChainedPartition μ} (left : q.chain = rest) : ∃ job, holdsOf [job] = [] ∧ p.chain = job :: q.chain :=
      ⟨.batch events records, rfl, by rw [left, chain]⟩
    rw [same]
    cases phase with
    | applying more applied outcomes =>
      cases more with
      | nil =>
        rw [ChainedPartition.advanceBatch]
        split
        · exact .inr (ends rfl)
        · exact .inl rfl
      | cons record more => exact .inl rfl
    | numbering more numbering numbered =>
      cases more with
      | nil => exact .inl rfl
      | cons record more =>
        rw [ChainedPartition.advanceBatch]
        cases numberEach deps events [(record.1, record.2)] numbering with
        | mk next thrown =>
          cases thrown with
          | some error => exact .inr (ends rfl)
          | none => exact .inl rfl
    | appending numbering numbered =>
      rw [ChainedPartition.advanceBatch]
      cases appendAll events p.partition numbering.entries with
      | mk partition thrown =>
        cases thrown with
        | some error => exact .inr (ends rfl)
        | none => exact .inr (ends rfl)
  next fails rest chain phase =>
    refine ⟨.inr ⟨.roll fails, rfl, ?_⟩, _, rest, chain, rfl⟩
    rw [chain]
    split at step
    · split at step
      · cases step
        rfl
      · cases step
        rfl
    · cases step
      rfl
  next => cases step

theorem Inv.advance (inv : s.Inv deps) {p : ChainedPartition μ} {fatal : Option NarsilError}
    (step : (s.partition id).advance deps s.fatalError = some (p, fatal)) : (s.setPartition id p).Inv deps := by
  obtain ⟨change, job, rest, chain, no_hold⟩ := advance_chain step
  have same : holdsOf p.chain = holdsOf (s.partition id).chain := by
    rcases change with kept | ⟨left, no_hold, chain⟩
    · rw [kept]
    · rw [chain, ← List.singleton_append, holdsOf_append, no_hold, List.nil_append]
  have nothing_reached : ∀ c, (c, true) ∉ holdsOf (s.partition id).chain := by
    intro c reached
    obtain ⟨others, at_front⟩ := (inv.gated id).front c reached
    rw [chain] at at_front
    rw [(List.cons.inj at_front).1] at no_hold
    cases no_hold
  refine inv.setPartition (ChainedPartition.advance_inv (inv.partition id) step) (fun new => ?_) same fun c reached => ?_
  · rw [inv.unwritten id new] at chain
    cases chain
  · rw [same] at reached
    exact absurd reached (nothing_reached c)

theorem hold_idle {p : ChainedPartition μ} {c : Nat} {reached : Bool} {rest : List (ChainJob μ)} (inv : p.Inv deps)
    (chain : p.chain = .hold c reached :: rest) : p.phase = none := by
  by_contra busy
  obtain ⟨events, records, others, at_front⟩ := inv.front busy
  rw [chain] at at_front
  cases at_front

theorem length_filter_flip {listed : List Nat} (distinct : listed.Nodup) (isIn : id ∈ listed) {p p' : Nat → Bool}
    (was : p id = true) (now : p' id = false) (others : ∀ other ≠ id, p' other = p other) :
    (listed.filter p).length = (listed.filter p').length + 1 := by
  induction listed with
  | nil => cases isIn
  | cons first listed ih =>
    obtain ⟨new, distinct⟩ := List.nodup_cons.mp distinct
    by_cases same : first = id
    · subst same
      have rest : listed.filter p' = listed.filter p := List.filter_congr fun other member =>
        others other fun same => new (same ▸ member)
      rw [List.filter_cons_of_pos was, List.filter_cons_of_neg (by rw [now]; exact Bool.false_ne_true), rest,
        List.length_cons]
    · have later := ih distinct ((List.mem_cons.mp isIn).resolve_left (Ne.symm same))
      rw [List.filter_cons, List.filter_cons, others first same]
      split
      · rw [List.length_cons, List.length_cons, later]
      · exact later

theorem Inv.requestCapture (inv : s.Inv deps) (throws : Bool) : (s.requestCapture throws).Inv deps := by
  rw [IndexState.requestCapture]
  split
  next nothing =>
    refine ⟨inv.turns, inv.distinct, inv.partition, inv.unwritten, fun id => ?_, fun c capture found unseen => ?_,
      fun id c waits => ?_, fun capture isIn seen at_seen id listed => ?_⟩
    · obtain ⟨ascending, known, front⟩ := inv.gated id
      refine ⟨ascending, fun hold isIn => ?_, front⟩
      rw [List.length_append]
      exact Nat.lt_add_right _ (known hold isIn)
    · rw [List.getElem?_append] at found
      split at found
      · exact inv.pending c capture found unseen
      · obtain ⟨inside, same⟩ := List.getElem?_eq_some_iff.mp found
        rw [← same, List.getElem_singleton] at unseen
        cases unseen
    · obtain ⟨capture, found, unseen⟩ := inv.awaited id c waits
      exact ⟨capture, by rw [List.getElem?_append_left (List.getElem?_eq_some_iff.mp found).1]; exact found, unseen⟩
    · rcases List.mem_append.mp isIn with before | new
      · exact inv.seen capture before seen at_seen id listed
      · rw [List.mem_singleton.mp new] at listed
        cases listed
  next some_registered =>
    -- The new hold is the last of its chain, and its capture the last that was asked for.
    have holds (id : Nat) : holdsOf (if id ∈ s.registered then
        IndexState.chained (s.partition id) (.hold s.captures.length false) else s.partition id).chain =
        holdsOf (s.partition id).chain ++ if id ∈ s.registered then [(s.captures.length, false)] else [] := by
      split
      · rw [IndexState.chained, holdsOf_append]
        rfl
      · rw [List.append_nil]
    have old (id c : Nat) (below : c < s.captures.length) (reached : Bool) :
        (c, reached) ∈ holdsOf (s.partition id).chain ++ (if id ∈ s.registered then [(s.captures.length, false)] else []) ↔
          (c, reached) ∈ holdsOf (s.partition id).chain := by
      rw [List.mem_append, or_iff_left]
      intro new
      split at new
      · have same := (Prod.mk.inj (List.mem_singleton.mp new)).1
        omega
      · cases new
    refine ⟨inv.turns, inv.distinct, fun id => ?_, fun id new => ?_, fun id => ?_, fun c capture found unseen => ?_,
      fun id c waits => ?_, fun capture isIn seen at_seen id listed => ?_⟩
    · dsimp only
      split
      · exact chained_inv (inv.partition id) _
      · exact inv.partition id
    · dsimp only
      rw [if_neg new]
      exact inv.unwritten id new
    · obtain ⟨ascending, known, front⟩ := inv.gated id
      refine ⟨?_, fun hold isIn => ?_, fun c reached => ?_⟩
      · rw [holds, List.map_append, List.pairwise_append]
        refine ⟨ascending, by split <;> simp, fun c before d last => ?_⟩
        obtain ⟨hold, isIn, rfl⟩ := List.mem_map.mp before
        split at last
        · rw [List.mem_singleton.mp last]
          exact known hold isIn
        · cases last
      · rw [holds] at isIn
        rw [List.length_append, List.length_singleton]
        rcases List.mem_append.mp isIn with before | new
        · exact Nat.lt_succ_of_lt (known hold before)
        · split at new
          · rw [List.mem_singleton.mp new]
            exact Nat.lt_succ_self _
          · cases new
      · rw [holds, List.mem_append] at reached
        rcases reached with before | new
        · obtain ⟨rest, chain⟩ := front c before
          dsimp only
          split
          · exact ⟨rest ++ [.hold s.captures.length false], by rw [IndexState.chained, chain, List.cons_append]⟩
          · exact ⟨rest, chain⟩
        · split at new
          · cases (Prod.mk.inj (List.mem_singleton.mp new)).2
          · cases new
    · rw [List.getElem?_append] at found
      split at found
      next below =>
        obtain ⟨distinct, listed, waiting, some_waits⟩ := inv.pending c capture found unseen
        refine ⟨distinct, fun id => ?_, ?_, some_waits⟩
        · rw [holds, ← listed id, List.map_append, List.mem_append, or_iff_left]
          intro new
          split at new
          · exact absurd (List.mem_singleton.mp new) (Nat.ne_of_lt below)
          · cases new
        · simp only [holds, old _ _ below]
          exact waiting
      next above =>
        obtain ⟨inside, rfl⟩ := List.getElem?_eq_some_iff.mp found
        rw [List.length_singleton] at inside
        obtain rfl : c = s.captures.length := by omega
        have unknown (id : Nat) (reached : Bool) : (s.captures.length, reached) ∉ holdsOf (s.partition id).chain :=
          fun isIn => Nat.lt_irrefl _ ((inv.gated id).known _ isIn)
        simp only [Nat.sub_self, List.getElem_cons_zero]
        refine ⟨inv.distinct, fun id => ?_, ?_, List.length_pos_iff.mpr some_registered⟩
        · rw [holds, List.map_append, List.mem_append]
          constructor
          · rintro (before | new)
            · obtain ⟨hold, isIn, same⟩ := List.mem_map.mp before
              exact absurd ((inv.gated id).known hold isIn) (by omega)
            · split at new
              next registered => exact registered
              next => cases new
          · intro registered
            rw [if_pos registered]
            exact .inr (List.mem_singleton_self _)
        · rw [List.filter_eq_self.mpr]
          intro id registered
          rw [holds, if_pos registered]
          simp
    · rw [holds, List.mem_append] at waits
      rcases waits with before | new
      · obtain ⟨capture, found, unseen⟩ := inv.awaited id c before
        exact ⟨capture, by rw [List.getElem?_append_left (List.getElem?_eq_some_iff.mp found).1]; exact found, unseen⟩
      · split at new
        · obtain rfl := (Prod.mk.inj (List.mem_singleton.mp new)).1
          exact ⟨_, List.getElem?_concat_length, rfl⟩
        · cases new
    · rcases List.mem_append.mp isIn with before | new
      · exact inv.seen capture before seen at_seen id listed
      · rw [List.mem_singleton.mp new] at at_seen
        cases at_seen

/-! ### Holds are reached and let go -/

theorem rechain_inv {p : ChainedPartition μ} (inv : p.Inv deps) (idle : p.phase = none) (chain : List (ChainJob μ)) :
    ({ p with chain } : ChainedPartition μ).Inv deps := by
  have same : ({ p with chain } : ChainedPartition μ) = p.settle chain := by rw [ChainedPartition.settle, ← idle]
  rw [same]
  exact inv.settle chain (ChainedPartition.inFlight_idle idle)

theorem Gated.only {count c : Nat} {reached : Bool} {p : ChainedPartition μ} {rest : List (ChainJob μ)}
    (gated : Gated count p) (chain : p.chain = .hold c reached :: rest) (other : Bool) : (c, other) ∉ holdsOf rest := by
  intro again
  have ascending := gated.ascending
  rw [chain, holdsOf_cons_hold, List.map_cons, List.pairwise_cons] at ascending
  exact Nat.lt_irrefl c (ascending.1 c (List.mem_map.mpr ⟨_, again, rfl⟩))

theorem Gated.reach {count c : Nat} {p : ChainedPartition μ} {rest : List (ChainJob μ)} (gated : Gated count p)
    (chain : p.chain = .hold c false :: rest) : Gated count { p with chain := .hold c true :: rest } := by
  obtain ⟨ascending, known, front⟩ := gated
  rw [chain] at ascending known front
  refine ⟨ascending, fun hold isIn => ?_, fun d reached => ?_⟩
  · rcases List.mem_cons.mp isIn with first | later
    · rw [first]
      exact known (c, false) List.mem_cons_self
    · exact known hold (List.mem_cons_of_mem _ later)
  · rcases List.mem_cons.mp reached with first | later
    · cases first
      exact ⟨rest, rfl⟩
    · obtain ⟨others, at_front⟩ := front d (List.mem_cons_of_mem _ later)
      cases at_front

/-- What a hold that is reached changes on the chains: only that it is reached. -/
structure ReachedAt (before after : Nat → ChainedPartition μ) (id c : Nat) : Prop where
  names : ∀ other, (holdsOf (after other).chain).map Prod.fst = (holdsOf (before other).chain).map Prod.fst
  others : ∀ other d, d ≠ c → ((d, false) ∈ holdsOf (after other).chain ↔ (d, false) ∈ holdsOf (before other).chain)
  elsewhere : ∀ other, other ≠ id →
    ((c, false) ∈ holdsOf (after other).chain ↔ (c, false) ∈ holdsOf (before other).chain)
  was : (c, false) ∈ holdsOf (before id).chain
  now : (c, false) ∉ holdsOf (after id).chain

theorem reachedAt {c : Nat} {rest : List (ChainJob μ)} (gated : Gated s.captures.length (s.partition id))
    (chain : (s.partition id).chain = .hold c false :: rest) :
    ReachedAt s.partition (s.setPartition id { s.partition id with chain := .hold c true :: rest }).partition id c := by
  refine ⟨fun other => ?_, fun other d different => ?_, fun other different => ?_, ?_, ?_⟩
  · by_cases here : other = id
    · subst here
      rw [setPartition_same, chain]
      rfl
    · rw [setPartition_other here]
  · by_cases here : other = id
    · subst here
      rw [setPartition_same, chain]
      simp [different]
    · rw [setPartition_other here]
  · rw [setPartition_other different]
  · rw [chain]
    exact List.mem_cons_self
  · rw [setPartition_same]
    rintro (_ | ⟨_, again⟩)
    exact gated.only chain false again

theorem ReachedAt.waiting {before after : Nat → ChainedPartition μ} {c : Nat} {capture : Capture μ}
    (reached : ReachedAt before after id c) (pending : Pending before c capture) :
    capture.waiting = (capture.listed.filter fun id => (c, false) ∈ holdsOf (after id).chain).length + 1 := by
  rw [pending.waiting]
  have listed : id ∈ capture.listed := (pending.listed id).mp (List.mem_map.mpr ⟨_, reached.was, rfl⟩)
  refine length_filter_flip pending.distinct listed (decide_eq_true reached.was) (decide_eq_false reached.now) ?_
  exact fun other different => decide_eq_decide.mpr (reached.elsewhere other different)

theorem ReachedAt.other {before after : Nat → ChainedPartition μ} {c d : Nat} {capture : Capture μ}
    (reached : ReachedAt before after id c) (different : d ≠ c) (pending : Pending before d capture) :
    Pending after d capture := by
  refine ⟨pending.distinct, fun other => ?_, ?_, pending.some_waits⟩
  · rw [reached.names]
    exact pending.listed other
  · simp only [reached.others _ d different]
    exact pending.waiting

theorem Inv.reachHold (inv : s.Inv deps) {c : Nat} {rest : List (ChainJob μ)} {capture : Capture μ}
    (chain : (s.partition id).chain = .hold c false :: rest) (found : s.captures[c]? = some capture) (throws : Bool) :
    (s.reachHold id c rest capture throws).Inv deps := by
  have reached := reachedAt (inv.gated id) chain
  have below : c < s.captures.length := (List.getElem?_eq_some_iff.mp found).1
  have unseen : capture.seen = none := by
    obtain ⟨same, found', unseen⟩ := inv.awaited id c reached.was
    rw [found] at found'
    exact Option.some.inj found' ▸ unseen
  have pending := inv.pending c capture found unseen
  have waiting := reached.waiting pending
  -- The chains with the hold reached keep what every chain has to keep.
  have partition (other : Nat) : ((s.setPartition id
      { s.partition id with chain := .hold c true :: rest }).partition other).Inv deps := by
    by_cases here : other = id
    · rw [here, setPartition_same]
      exact rechain_inv (inv.partition id) (hold_idle (inv.partition id) chain) _
    · rw [setPartition_other here]
      exact inv.partition other
  have gated (other : Nat) : Gated s.captures.length ((s.setPartition id
      { s.partition id with chain := .hold c true :: rest }).partition other) := by
    by_cases here : other = id
    · rw [here, setPartition_same]
      exact (inv.gated id).reach chain
    · rw [setPartition_other here]
      exact inv.gated other
  rw [IndexState.reachHold]
  refine ⟨inv.turns, inv.distinct, partition, fun other new => ?_, fun other => ?_, fun d capture' found' unseen' => ?_,
    fun other d waits => ?_, fun capture' isIn seen at_seen other listed => ?_⟩
  · by_cases here : other = id
    · subst here
      rw [inv.unwritten other new] at chain
      cases chain
    · rw [show _ = _ from setPartition_other here _]
      exact inv.unwritten other new
  · rw [List.length_set]
    exact gated other
  · change (s.captures.set c _)[d]? = some capture' at found'
    by_cases same : d = c
    · subst same
      rw [List.getElem?_set_self below] at found'
      cases found'
      have more : capture.waiting - 1 ≠ 0 := fun ends => by simp [ends] at unseen'
      refine ⟨pending.distinct, fun other => ?_, ?_, Nat.pos_of_ne_zero more⟩
      · rw [← pending.listed other, reached.names]
      · exact (congrArg (· - 1) waiting).trans (Nat.add_sub_cancel ..)
    · rw [List.getElem?_set_ne (Ne.symm same)] at found'
      exact reached.other same (inv.pending d capture' found' unseen')
  · change (d, false) ∈ holdsOf ((s.setPartition id
      { s.partition id with chain := .hold c true :: rest }).partition other).chain at waits
    by_cases same : d = c
    · subst same
      have elsewhere : other ≠ id := by
        rintro rfl
        exact reached.now waits
      have before := (reached.elsewhere other elsewhere).mp waits
      have listed := (pending.listed other).mp (List.mem_map.mpr ⟨_, before, rfl⟩)
      have more : capture.waiting - 1 ≠ 0 := by
        rw [waiting, Nat.add_sub_cancel]
        refine Nat.ne_of_gt (List.length_pos_of_mem (a := other) (List.mem_filter.mpr ⟨listed, ?_⟩))
        exact decide_eq_true waits
      exact ⟨_, List.getElem?_set_self below, if_neg more⟩
    · obtain ⟨capture', found', unseen'⟩ := inv.awaited other d ((reached.others other d same).mp waits)
      exact ⟨capture', by rw [List.getElem?_set_ne (Ne.symm same)]; exact found', unseen'⟩
  · rcases List.mem_or_eq_of_mem_set isIn with old | new
    · exact inv.seen capture' old seen at_seen other listed
    · -- The last hold was reached: every chain that the capture lists has its hold in front.
      subst new
      dsimp only at at_seen listed
      split at at_seen
      next last =>
        cases at_seen
        have nobody := List.filter_eq_nil_iff.mp (List.length_eq_zero_iff.mp
          (show _ = 0 by rw [waiting, Nat.add_sub_cancel] at last; exact last)) other listed
        have held : c ∈ (holdsOf _).map Prod.fst :=
          (reached.names other).symm ▸ (pending.listed other).mpr listed
        obtain ⟨⟨d, flag⟩, isHold, rfl⟩ := List.mem_map.mp held
        cases flag with
        | false => exact absurd (decide_eq_true isHold) nobody
        | true =>
          obtain ⟨others, front⟩ := (gated other).front _ isHold
          exact ⟨⟨hold_idle (partition other) front, _, others, front⟩, partition other⟩
      next => cases at_seen

theorem Inv.leave (inv : s.Inv deps) {c : Nat} {rest : List (ChainJob μ)} {capture : Capture μ}
    (chain : (s.partition id).chain = .hold c true :: rest) (found : s.captures[c]? = some capture)
    (ran : capture.seen.isSome) : (s.setPartition id ((s.partition id).settle rest)).Inv deps := by
  have gated := inv.gated id
  have only := gated.only chain
  obtain ⟨ascending, known, front⟩ := gated
  rw [chain, holdsOf_cons_hold] at ascending known
  have nothing_reached : ∀ d, (d, true) ∉ holdsOf rest := by
    intro d reached
    obtain ⟨others, at_front⟩ := front d (by rw [chain]; exact List.mem_cons_of_mem _ reached)
    rw [chain] at at_front
    cases at_front
    exact only true reached
  have waits (other d : Nat) : (d, false) ∈ holdsOf ((s.setPartition id
      ((s.partition id).settle rest)).partition other).chain ↔ (d, false) ∈ holdsOf (s.partition other).chain := by
    by_cases here : other = id
    · subst here
      rw [setPartition_same, chain]
      simp [ChainedPartition.settle]
    · rw [setPartition_other here]
  refine ⟨inv.turns, inv.distinct, fun other => ?_, fun other new => ?_, fun other => ?_,
    fun d capture' found' unseen => ?_, fun other d isIn => inv.awaited other d ((waits other d).mp isIn), inv.seen⟩
  · by_cases here : other = id
    · rw [here, setPartition_same]
      exact (inv.partition id).settle rest (ChainedPartition.inFlight_idle (hold_idle (inv.partition id) chain))
    · rw [setPartition_other here]
      exact inv.partition other
  · by_cases here : other = id
    · subst here
      rw [inv.unwritten other new] at chain
      cases chain
    · rw [setPartition_other here]
      exact inv.unwritten other new
  · by_cases here : other = id
    · rw [here, setPartition_same]
      exact ⟨(List.pairwise_cons.mp ascending).2, fun hold isIn => known hold (List.mem_cons_of_mem _ isIn),
        fun d reached => absurd reached (nothing_reached d)⟩
    · rw [setPartition_other here]
      exact inv.gated other
  · obtain ⟨distinct, listed, waiting, some_waits⟩ := inv.pending d capture' found' unseen
    have different : d ≠ c := by
      rintro rfl
      cases found.symm.trans found'
      rw [unseen] at ran
      cases ran
    refine ⟨distinct, fun other => ?_, ?_, some_waits⟩
    · rw [← listed other]
      by_cases here : other = id
      · subst here
        rw [setPartition_same, chain]
        simp [ChainedPartition.settle, different]
      · rw [setPartition_other here]
    · simp only [waits]
      exact waiting

/-! ### Every step keeps it -/

theorem Inv.fatal (inv : s.Inv deps) (fatalError : Option NarsilError) : ({ s with fatalError } : IndexState μ).Inv deps :=
  ⟨inv.turns, inv.distinct, inv.partition, inv.unwritten, inv.gated, inv.pending, inv.awaited, inv.seen⟩

theorem commit_inv {p : ChainedPartition μ} (inv : p.Inv deps) (committed : Nat) :
    ({ p with partition := { p.partition with committed } } : ChainedPartition μ).Inv deps := by
  refine ⟨inv.front, fun unfailed => ?_⟩
  have sound := inv.sound unfailed
  refine ⟨sound.memory, sound.entries, sound.upTo, sound.owner, sound.made, ?_, ?_⟩
  · exact fun rest numbering numbered phase =>
      have numbers := sound.numbering rest numbering numbered phase
      ⟨numbers.entries, numbers.upTo, numbers.grows, numbers.owner, numbers.seqOwner, numbers.made⟩
  · exact fun numbering numbered phase =>
      have numbers := sound.appending numbering numbered phase
      ⟨numbers.entries, numbers.upTo, numbers.grows, numbers.owner, numbers.seqOwner, numbers.made⟩

theorem failed_inv {p : ChainedPartition μ} (inv : p.Inv deps) (fatal : Option NarsilError) (error : NarsilError) :
    ({ p with partition := (failPartition deps ⟨p.partition, fatal, p.memory⟩ error).1.partition } :
      ChainedPartition μ).Inv deps := by
  refine ⟨inv.front, fun unfailed => ?_⟩
  rw [failPartition] at unfailed
  cases failed : p.partition.failed with
  | none => simp [failed] at unfailed
  | some first => simp [failed] at unfailed

theorem rollBack_inv {p : ChainedPartition μ} (inv : p.Inv deps)
    (refused : p.history.any fun application => application.entry.isNone) (memory : μ) :
    ({ p with memory } : ChainedPartition μ).Inv deps := by
  refine ⟨inv.front, fun unfailed => ?_⟩
  have sound := inv.sound unfailed
  refine ⟨fun whole => ?_, sound.entries, sound.upTo, sound.owner, sound.made, ?_, ?_⟩
  · obtain ⟨application, isIn, none⟩ := List.any_eq_true.mp refused
    have given := whole application isIn
    rw [Option.isNone_iff_eq_none.mp none] at given
    cases given
  · exact fun rest numbering numbered phase =>
      have numbers := sound.numbering rest numbering numbered phase
      ⟨numbers.entries, numbers.upTo, numbers.grows, numbers.owner, numbers.seqOwner, numbers.made⟩
  · exact fun numbering numbered phase =>
      have numbers := sound.appending numbering numbered phase
      ⟨numbers.entries, numbers.upTo, numbers.grows, numbers.owner, numbers.seqOwner, numbers.made⟩

theorem next_inv {s' : IndexState μ} {a : Label μ} (inv : s.Inv deps) (step : s.next deps a = some s') : s'.Inv deps := by
  cases a with
  | register id seqNo primaryTerm =>
    rw [next] at step
    split at step
    · cases step
    next new =>
      cases step
      have nothing : ((s.getOrCreate id).partition id).chain = [] := by
        rw [getOrCreate_partition, inv.unwritten id new]
      exact (inv.getOrCreate id).touched (ChainedPartition.fresh_inv deps ..) nothing.symm
  | mutate id events records =>
    cases step
    have same := getOrCreate_partition s id id
    rw [← same]
    exact (inv.getOrCreate id).chained (getOrCreate_registered s id) rfl
  | roll id fails =>
    rw [next] at step
    split at step
    next registered =>
      cases step
      exact inv.chained registered rfl
    next => cases step
  | advance id =>
    obtain ⟨⟨p, fatal⟩, advances, rfl⟩ := Option.map_eq_some_iff.mp step
    exact (inv.advance advances).fatal fatal
  | commit id =>
    cases step
    exact inv.touched (commit_inv (inv.partition id) _) rfl
  | fail id error =>
    cases step
    exact (inv.touched (failed_inv (inv.partition id) s.fatalError error) rfl).fatal _
  | rollBack id memory =>
    rw [next] at step
    split at step
    next refused =>
      cases step
      exact inv.touched (rollBack_inv (inv.partition id) refused memory) rfl
    next => cases step
  | capture turn throws =>
    rw [next] at step
    split at step
    · cases step
      exact inv.requestCapture throws
    · cases step
  | reach id throws =>
    rw [next] at step
    split at step
    next c rest chain =>
      obtain ⟨capture, found, rfl⟩ := Option.map_eq_some_iff.mp step
      exact inv.reachHold chain found throws
    next => cases step
  | leave id =>
    rw [next] at step
    split at step
    next c rest chain =>
      split at step
      next ran =>
        cases step
        cases found : s.captures[c]? with
        | none => simp [found] at ran
        | some capture => exact inv.leave chain found (by simpa [found] using ran)
      next => cases step
    next => cases step
  | turn label =>
    obtain ⟨turns, turned, rfl⟩ := Option.map_eq_some_iff.mp step
    exact ⟨Turns.next_inv inv.turns turned, inv.distinct, inv.partition, inv.unwritten, inv.gated, inv.pending,
      inv.awaited, inv.seen⟩

end IndexState

end Narsil.Durability.CaptureGate
