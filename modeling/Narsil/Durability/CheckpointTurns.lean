import Mathlib.Tactic.Common

/-!
# Turns of an index

`checkpointInTurn`: a turn waits while another is in flight, and starts in the same breath
in which it finds that none is. The turns that wait are woken one after the other, and each
looks again.
-/
namespace Narsil.Durability

/-- Where one call of `checkpointInTurn` is. -/
inductive TurnPhase where
  | waiting (on : Nat)
  | joined (on : Nat)
  | performing
  /-- What it performs has ended, and its `finally` has not run yet. -/
  | settled (ok : Bool)
  | ended (ok : Bool)
  | declined
  deriving DecidableEq

/-- What a turn meets when it finds none in flight: whether it may start, and whether
`perform` gives a promise or throws at once. -/
structure TurnStart where
  mayStart : Bool
  performs : Bool

/-- The calls are numbered in their order; `checkpointInFlight` is the number of one. -/
structure Turns where
  count : Nat
  phase : Nat → TurnPhase
  checkpointInFlight : Option Nat

inductive TurnLabel where
  | call (joinsInFlight : Bool) (start : TurnStart)
  | wake (turn : Nat) (start : TurnStart)
  | settle (turn : Nat) (ok : Bool)
  | finish (turn : Nat)

namespace Turns

def initial : Turns := { count := 0, phase := fun _ => .declined, checkpointInFlight := none }

def setPhase (s : Turns) (turn : Nat) (phase : TurnPhase) : Turns :=
  { s with phase := Function.update s.phase turn phase }

/-- The loop of `checkpointInTurn` up to its next await, and what follows it. -/
def enter (s : Turns) (turn : Nat) (start : TurnStart) : Turns :=
  match s.checkpointInFlight with
  | some run => s.setPhase turn (.waiting run)
  | none =>
    if start.mayStart && start.performs then { s.setPhase turn .performing with checkpointInFlight := some turn }
    else s.setPhase turn .declined

def next (s : Turns) : TurnLabel → Option Turns
  | .call joinsInFlight start =>
    let called := { s with count := s.count + 1 }
    match joinsInFlight, s.checkpointInFlight with
    | true, some run => some (called.setPhase s.count (.joined run))
    | _, _ => some (called.enter s.count start)
  | .wake turn start =>
    match s.phase turn with
    | .waiting run =>
      match s.phase run with
      | .ended _ => some (s.enter turn start)
      | _ => none
    | _ => none
  | .settle turn ok =>
    match s.phase turn with
    | .performing => some (s.setPhase turn (.settled ok))
    | _ => none
  | .finish turn =>
    match s.phase turn with
    | .settled ok => some { s.setPhase turn (.ended ok) with checkpointInFlight := none }
    | _ => none

def UnderWay (s : Turns) (turn : Nat) : Prop := s.phase turn = .performing ∨ ∃ ok, s.phase turn = .settled ok

structure Inv (s : Turns) : Prop where
  inFlight : ∀ turn, s.UnderWay turn ↔ s.checkpointInFlight = some turn
  fresh : ∀ turn, s.count ≤ turn → s.phase turn = .declined
  waits : ∀ turn run, s.phase turn = .waiting run → s.checkpointInFlight = some run ∨ ∃ ok, s.phase run = .ended ok

theorem initial_inv : initial.Inv where
  inFlight turn := by simp [initial, UnderWay]
  fresh _ _ := rfl
  waits _ _ phase := nomatch phase

variable {s : Turns} {turn : Nat}

@[simp] theorem setPhase_same (phase : TurnPhase) : (s.setPhase turn phase).phase turn = phase := by
  simp [setPhase]

theorem setPhase_other {other : Nat} (different : other ≠ turn) (phase : TurnPhase) :
    (s.setPhase turn phase).phase other = s.phase other := by
  simp [setPhase, different]

/-- A turn whose run is over. -/
def Ended (s : Turns) (turn : Nat) : Prop := ∃ ok, s.phase turn = .ended ok

theorem Ended.set {other : Nat} (ended : s.Ended other) (kept : ¬ s.Ended turn) (phase : TurnPhase) :
    (s.setPhase turn phase).Ended other := by
  have different : other ≠ turn := by
    rintro rfl
    exact kept ended
  obtain ⟨ok, at_other⟩ := ended
  exact ⟨ok, (setPhase_other different phase).trans at_other⟩

theorem Inv.setQuiet (inv : s.Inv) (idle : ¬ s.UnderWay turn) (unended : ¬ s.Ended turn) (called : turn < s.count)
    {phase : TurnPhase} (quiet : phase ≠ .performing ∧ ∀ ok, phase ≠ .settled ok)
    (waits : ∀ run, phase = .waiting run → s.checkpointInFlight = some run) : (s.setPhase turn phase).Inv where
  inFlight other := by
    by_cases same : other = turn
    · subst same
      have not_in_flight : s.checkpointInFlight ≠ some other := fun flying => idle ((inv.inFlight other).mpr flying)
      constructor
      · rintro (performing | ⟨ok, settled⟩)
        · exact absurd ((setPhase_same phase).symm.trans performing) quiet.1
        · exact absurd ((setPhase_same phase).symm.trans settled) (quiet.2 ok)
      · exact fun flying => absurd flying not_in_flight
    · rw [UnderWay, setPhase_other same]
      exact inv.inFlight other
  fresh later above := by
    rw [setPhase_other (Nat.ne_of_gt (Nat.lt_of_lt_of_le called above))]
    exact inv.fresh later above
  waits other on at_other := by
    by_cases same : other = turn
    · subst same
      exact .inl (waits on ((setPhase_same phase).symm.trans at_other))
    · rw [setPhase_other same] at at_other
      exact (inv.waits other on at_other).imp_right fun ended => Ended.set ended unended phase

theorem Inv.enter (inv : s.Inv) (idle : ¬ s.UnderWay turn) (unended : ¬ s.Ended turn) (called : turn < s.count)
    (start : TurnStart) : (s.enter turn start).Inv := by
  rw [Turns.enter]
  cases inFlight : s.checkpointInFlight with
  | some run => exact inv.setQuiet idle unended called (by simp) fun on same => by cases same; exact inFlight
  | none =>
    dsimp only
    split
    · -- Nobody is under way, and the turn takes the place before anyone else looks.
      refine ⟨fun other => ?_, fun later above => ?_, fun other on at_other => ?_⟩
      · by_cases same : other = turn
        · subst same
          simp [UnderWay]
        · have nobody : ¬ s.UnderWay other := fun under => by
            rw [inv.inFlight, inFlight] at under
            cases under
          have different : some turn ≠ some other := fun equal => same (Option.some.inj equal).symm
          simp only [UnderWay, setPhase_other same] at nobody ⊢
          exact iff_of_false nobody different
      · have different : later ≠ turn := Nat.ne_of_gt (Nat.lt_of_lt_of_le called above)
        simp only [setPhase_other different]
        exact inv.fresh later above
      · by_cases same : other = turn
        · subst same
          simp at at_other
        · simp only [setPhase_other same] at at_other
          rcases inv.waits other on at_other with flying | ended
          · rw [inFlight] at flying
            cases flying
          · exact .inr (Ended.set ended unended _)
    · exact inv.setQuiet idle unended called (by simp) fun on same => by cases same

theorem next_inv {s' : Turns} (inv : s.Inv) {a : TurnLabel} (step : s.next a = some s') : s'.Inv := by
  cases a with
  | call joinsInFlight start =>
    have called : ({ s with count := s.count + 1 } : Turns).Inv :=
      ⟨inv.inFlight, fun turn above => inv.fresh turn (Nat.le_of_succ_le above), inv.waits⟩
    have declined := inv.fresh s.count (Nat.le_refl _)
    have idle : ¬ Turns.UnderWay { s with count := s.count + 1 } s.count := by simp [UnderWay, declined]
    have unended : ¬ Turns.Ended { s with count := s.count + 1 } s.count := by simp [Ended, declined]
    unfold Turns.next at step
    dsimp only at step
    split at step
    · cases step
      exact called.setQuiet idle unended (Nat.lt_succ_self _) (by simp) fun on same => by cases same
    · cases step
      exact called.enter idle unended (Nat.lt_succ_self _) start
  | wake turn start =>
    simp only [Turns.next] at step
    split at step
    next run waiting =>
      split at step
      · cases step
        have called : turn < s.count := by
          by_contra beyond
          rw [inv.fresh turn (Nat.le_of_not_lt beyond)] at waiting
          cases waiting
        exact inv.enter (by simp [UnderWay, waiting]) (by simp [Ended, waiting]) called start
      · cases step
    · cases step
  | settle turn ok =>
    simp only [Turns.next] at step
    split at step
    next performing =>
      cases step
      have flying := (inv.inFlight turn).mp (.inl performing)
      refine ⟨fun other => ?_, fun later above => ?_, fun other on at_other => ?_⟩
      · by_cases same : other = turn
        · subst same
          exact ⟨fun _ => flying, fun _ => .inr ⟨ok, setPhase_same _⟩⟩
        · rw [UnderWay, setPhase_other same]
          exact inv.inFlight other
      · by_cases same : later = turn
        · subst same
          rw [inv.fresh later above] at performing
          cases performing
        · rw [setPhase_other same]
          exact inv.fresh later above
      · by_cases same : other = turn
        · subst same
          rw [setPhase_same] at at_other
          cases at_other
        · rw [setPhase_other same] at at_other
          exact (inv.waits other on at_other).imp_right fun ended => Ended.set ended (by simp [Ended, performing]) _
    · cases step
  | finish turn =>
    simp only [Turns.next] at step
    split at step
    next ok settled =>
      cases step
      have flying := (inv.inFlight turn).mp (.inr ⟨ok, settled⟩)
      refine ⟨fun other => ?_, fun later above => ?_, fun other on at_other => ?_⟩
      · by_cases same : other = turn
        · subst same
          simp [UnderWay]
        · have nobody : ¬ s.UnderWay other := fun under => by
            rw [inv.inFlight, flying] at under
            exact same (Option.some.inj under).symm
          simp only [UnderWay, setPhase_other same] at nobody ⊢
          exact iff_of_false nobody (by simp)
      · by_cases same : later = turn
        · subst same
          rw [inv.fresh later above] at settled
          cases settled
        · simp only [setPhase_other same]
          exact inv.fresh later above
      · by_cases same : other = turn
        · subst same
          simp at at_other
        · simp only [setPhase_other same] at at_other
          right
          rcases inv.waits other on at_other with on_flight | ended
          · rw [flying] at on_flight
            cases on_flight
            exact ⟨ok, by simp⟩
          · exact Ended.set ended (by simp [Ended, settled]) _
    · cases step

theorem Inv.one (inv : s.Inv) {turn other : Nat} (under : s.UnderWay turn) (too : s.UnderWay other) : turn = other := by
  rw [inv.inFlight] at under too
  exact Option.some.inj (under.symm.trans too)

theorem Inv.waiter (inv : s.Inv) {turn run : Nat} (waiting : s.phase turn = .waiting run) (start : TurnStart) :
    s.UnderWay run ∨ ∃ s', s.next (.wake turn start) = some s' := by
  rcases inv.waits turn run waiting with flying | ⟨ok, ended⟩
  · exact .inl ((inv.inFlight run).mpr flying)
  · exact .inr ⟨s.enter turn start, by simp [Turns.next, waiting, ended]⟩

end Turns

end Narsil.Durability
