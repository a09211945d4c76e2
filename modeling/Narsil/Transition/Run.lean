import Mathlib.Data.List.Basic

/-!
# Runs of an executable transition system

A system is a partial step function `next : σ → ι → Option σ`. The label of a
step carries every choice its environment makes, so that a run is a list of
labels and can be replayed. Invariants are proved for one step and lifted to
runs here.
-/
namespace Transition

variable {σ ι : Type}

/-- Replay a list of labels from a state; `none` when a step is not enabled. -/
def run (next : σ → ι → Option σ) : σ → List ι → Option σ
  | s, [] => some s
  | s, a :: rest => (next s a).bind fun s' => run next s' rest

/-- Every step of the run, seen from the state it starts in, meets `ok`. -/
def AllSteps (next : σ → ι → Option σ) (ok : σ → ι → Prop) : σ → List ι → Prop
  | _, [] => True
  | s, a :: rest => ok s a ∧ ∀ s', next s a = some s' → AllSteps next ok s' rest

instance decidableAllSteps (next : σ → ι → Option σ) (ok : σ → ι → Prop)
    [∀ s a, Decidable (ok s a)] : ∀ s acts, Decidable (AllSteps next ok s acts)
  | _, [] => isTrue trivial
  | s, a :: rest =>
    match h : next s a with
    | none => decidable_of_iff (ok s a) (by simp [AllSteps, h])
    | some s' =>
      have : Decidable (AllSteps next ok s' rest) := decidableAllSteps next ok s' rest
      decidable_of_iff (ok s a ∧ AllSteps next ok s' rest) (by simp [AllSteps, h])

@[simp] theorem run_nil (next : σ → ι → Option σ) (s : σ) : run next s [] = some s := rfl

theorem run_cons (next : σ → ι → Option σ) (s : σ) (a : ι) (rest : List ι) :
    run next s (a :: rest) = (next s a).bind fun s' => run next s' rest := rfl

theorem AllSteps.and {next : σ → ι → Option σ} {ok ok' : σ → ι → Prop} {s : σ} {acts : List ι}
    (h : AllSteps next ok s acts) (h' : AllSteps next ok' s acts) :
    AllSteps next (fun s a => ok s a ∧ ok' s a) s acts := by
  induction acts generalizing s with
  | nil => trivial
  | cons a rest ih => exact ⟨⟨h.1, h'.1⟩, fun s' step => ih (h.2 s' step) (h'.2 s' step)⟩

theorem AllSteps.of_forall {next : σ → ι → Option σ} {ok : σ → ι → Prop} {acts : List ι}
    (h : ∀ a ∈ acts, ∀ s, ok s a) (s : σ) : AllSteps next ok s acts := by
  induction acts generalizing s with
  | nil => trivial
  | cons a rest ih =>
    exact ⟨h a (by simp) s, fun s' _ => ih (fun b hb => h b (by simp [hb])) s'⟩

theorem run_invariant_of (next : σ → ι → Option σ) (ok : σ → ι → Prop) (inv : σ → Prop)
    (step : ∀ s a s', inv s → ok s a → next s a = some s' → inv s')
    (acts : List ι) (s s' : σ) (initial : inv s) (meets : AllSteps next ok s acts)
    (reached : run next s acts = some s') : inv s' := by
  induction acts generalizing s with
  | nil =>
    cases reached
    exact initial
  | cons a rest ih =>
    rw [run_cons] at reached
    cases h : next s a with
    | none => rw [h] at reached; simp at reached
    | some mid =>
      rw [h] at reached
      exact ih mid (step s a mid initial meets.1 h) (meets.2 mid h) reached

theorem run_invariant (next : σ → ι → Option σ) (inv : σ → Prop)
    (step : ∀ s a s', inv s → next s a = some s' → inv s')
    (acts : List ι) (s s' : σ) (initial : inv s) (reached : run next s acts = some s') :
    inv s' := by
  induction acts generalizing s with
  | nil =>
    cases reached
    exact initial
  | cons a rest ih =>
    rw [run_cons] at reached
    cases h : next s a with
    | none => rw [h] at reached; simp at reached
    | some mid =>
      rw [h] at reached
      exact ih mid (step s a mid initial h) reached

end Transition
