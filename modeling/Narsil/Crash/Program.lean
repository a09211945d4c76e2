import Mathlib.Data.List.Basic

/-!
# Programs that a crash can stop

A program changes a state in atomic steps. It runs with the number of steps it
has left before a crash, so that every crash point is a number of steps. A
triple bounds the state after the program ends and the state that a crash leaves;
a program that errs meets no triple. From a triple of a recovery program whose
crash states are again its start states follows what it recovers after any
number of crashes.
-/
namespace Crash

variable {σ ε α β : Type}

structure World (σ : Type) where
  state : σ
  /-- The steps before the crash; `none` where it does not crash. -/
  stepsLeft : Option Nat

inductive Outcome (σ ε α : Type) where
  | done (result : α) (world : World σ)
  | crashed (state : σ)
  | failed (error : ε)

def Program (σ ε α : Type) : Type := World σ → Outcome σ ε α

namespace Program

def pure (a : α) : Program σ ε α := fun w => .done a w

def bind (p : Program σ ε α) (f : α → Program σ ε β) : Program σ ε β := fun w =>
  match p w with
  | .done a w' => f a w'
  | .crashed s => .crashed s
  | .failed e => .failed e

instance : Monad (Program σ ε) where
  pure := pure
  bind := bind

def throw (e : ε) : Program σ ε α := fun _ => .failed e

/-- Look at the state; nothing is changed by it, so no crash is added. -/
def reads (f : σ → α) : Program σ ε α := fun w => .done (f w.state) w

/-- One atomic change. -/
def step (f : σ → σ) : Program σ ε Unit := fun w =>
  match w.stepsLeft with
  | none => .done () ⟨f w.state, none⟩
  | some 0 => .crashed w.state
  | some (n + 1) => .done () ⟨f w.state, some n⟩

/-- The state that is left when the program has ended or crashed. -/
def haltedState (p : Program σ ε α) (stepsLeft : Option Nat) (s : σ) : Option σ :=
  match p ⟨s, stepsLeft⟩ with
  | .done _ w => some w.state
  | .crashed s' => some s'
  | .failed _ => none

/-- Run a recovery program once for each crash, the last time to its end. -/
def reboot (recovery : Program σ ε Unit) : List Nat → σ → Option σ
  | [], s => recovery.haltedState none s
  | crash :: crashes, s => (recovery.haltedState (some crash) s).bind (reboot recovery crashes)

end Program

/-- The program ended in a state that meets `after`, or crashed in one that meets
`torn`; it crashes only where it has a number of steps. -/
def Outcome.Meets (after : α → σ → Prop) (torn : σ → Prop) (stepsLeft : Option Nat) :
    Outcome σ ε α → Prop
  | .done a w => after a w.state ∧ (stepsLeft = none → w.stepsLeft = none)
  | .crashed s => torn s ∧ stepsLeft ≠ none
  | .failed _ => False

/-- From a state that meets `before`, the program ends in one that meets `after`,
and a crash leaves one that meets `torn`. -/
def Triple (before : σ → Prop) (p : Program σ ε α) (after : α → σ → Prop) (torn : σ → Prop) : Prop :=
  ∀ w : World σ, before w.state → (p w).Meets after torn w.stepsLeft

namespace Triple

variable {before before' torn torn' : σ → Prop} {p : Program σ ε α} {after after' : α → σ → Prop}

theorem pure {a : α} (h : ∀ s, before s → after a s) :
    Triple before (Pure.pure a : Program σ ε α) after torn :=
  fun w start => ⟨h w.state start, id⟩

theorem bind {f : α → Program σ ε β} {final : β → σ → Prop} (after : α → σ → Prop)
    (first : Triple before p after torn) (rest : ∀ a, Triple (after a) (f a) final torn) :
    Triple before (p >>= f) final torn := by
  intro w start
  have ran := first w start
  have unfolded : (p >>= f) w = Program.bind p f w := rfl
  rw [unfolded, Program.bind]
  cases same : p w with
  | done a w' =>
    rw [same] at ran
    have ran' := rest a w' ran.1
    simp only
    cases same' : f a w' with
    | done b w'' =>
      rw [same'] at ran'
      exact ⟨ran'.1, fun never => ran'.2 (ran.2 never)⟩
    | crashed s =>
      rw [same'] at ran'
      exact ⟨ran'.1, fun never => ran'.2 (ran.2 never)⟩
    | failed e =>
      rw [same'] at ran'
      exact ran'
  | crashed s =>
    rw [same] at ran
    exact ran
  | failed e =>
    rw [same] at ran
    exact ran

theorem step {f : σ → σ} {after : Unit → σ → Prop} (h : ∀ s, before s → after () (f s))
    (crash : ∀ s, before s → torn s) : Triple before (Program.step f : Program σ ε Unit) after torn := by
  intro w start
  obtain ⟨state, left⟩ := w
  match left with
  | none => exact ⟨h _ start, id⟩
  | some 0 => exact ⟨crash _ start, Option.some_ne_none _⟩
  | some (n + 1) => exact ⟨h _ start, fun never => by cases never⟩

theorem reads_bind {f : σ → α} {g : α → Program σ ε β} {final : β → σ → Prop}
    (h : ∀ s, before s → Triple (fun s' => s' = s) (g (f s)) final torn) :
    Triple before (Program.reads f >>= g) final torn :=
  fun w start => h w.state start w rfl

theorem consequence (h : Triple before p after torn) (weaker : ∀ s, before' s → before s)
    (stronger : ∀ a s, after a s → after' a s) (tears : ∀ s, torn s → torn' s) :
    Triple before' p after' torn' := by
  intro w start
  have ran := h w (weaker _ start)
  cases same : p w with
  | done a w' =>
    rw [same] at ran
    exact ⟨stronger _ _ ran.1, ran.2⟩
  | crashed s =>
    rw [same] at ran
    exact ⟨tears _ ran.1, ran.2⟩
  | failed e =>
    rw [same] at ran
    exact ran

theorem weaken (h : Triple before p after torn) (weaker : ∀ s, before' s → before s) :
    Triple before' p after torn :=
  h.consequence weaker (fun _ _ => id) fun _ => id

theorem of_states (h : ∀ s, before s → Triple (fun s' => s' = s) p after torn) :
    Triple before p after torn :=
  fun w start => h w.state start w rfl

theorem forM {f : α → Program σ ε PUnit} (inv : List α → σ → Prop)
    (body : ∀ x rest, Triple (inv (x :: rest)) (f x) (fun _ => inv rest) torn) (xs : List α) :
    Triple (inv xs) (xs.forM f) (fun _ => inv []) torn := by
  induction xs with
  | nil => exact Triple.pure fun _ => id
  | cons x rest ih => exact (body x rest).bind _ fun _ => ih

theorem haltedState (h : Triple before p after torn) {s : σ} (start : before s) (left : Option Nat) :
    ∃ s', p.haltedState left s = some s' ∧ ((∃ a, after a s') ∨ torn s') := by
  have ran := h ⟨s, left⟩ start
  unfold Program.haltedState
  cases same : p ⟨s, left⟩ with
  | done a w' =>
    rw [same] at ran
    exact ⟨w'.state, rfl, Or.inl ⟨a, ran.1⟩⟩
  | crashed s' =>
    rw [same] at ran
    exact ⟨s', rfl, Or.inr ran.1⟩
  | failed e =>
    rw [same] at ran
    exact ran.elim

theorem ends (h : Triple before p after torn) {s : σ} (start : before s) :
    ∃ s', p.haltedState none s = some s' ∧ ∃ a, after a s' := by
  have ran := h ⟨s, none⟩ start
  unfold Program.haltedState
  cases same : p ⟨s, none⟩ with
  | done a w' =>
    rw [same] at ran
    exact ⟨w'.state, rfl, a, ran.1⟩
  | crashed s' =>
    rw [same] at ran
    exact absurd rfl ran.2
  | failed e =>
    rw [same] at ran
    exact ran.elim

theorem reboot {recovery : Program σ ε Unit} {safe recovered : σ → Prop}
    (h : Triple safe recovery (fun _ => recovered) safe) (again : ∀ s, recovered s → safe s)
    (crashes : List Nat) {s : σ} (start : safe s) :
    ∃ s', recovery.reboot crashes s = some s' ∧ recovered s' := by
  induction crashes generalizing s with
  | nil =>
    obtain ⟨s', ran, -, done⟩ := h.ends start
    exact ⟨s', ran, done⟩
  | cons crash crashes ih =>
    obtain ⟨mid, ran, stopped⟩ := h.haltedState start (some crash)
    have safeMid : safe mid := by
      rcases stopped with ⟨-, done⟩ | torn
      · exact again mid done
      · exact torn
    obtain ⟨s', rest, done⟩ := ih safeMid
    exact ⟨s', by rw [Program.reboot, ran]; exact rest, done⟩

end Triple

end Crash
