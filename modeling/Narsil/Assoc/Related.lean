import Mathlib.Data.List.Forall2
import Narsil.Assoc.Entries

/-!
# Maps rewritten entry by entry

Two maps are related when they hold the same keys in the same order and their
values are related one by one. A loop that visits every entry of a map, and may
look at the whole map while it rewrites the entry, keeps such a relation as
soon as one visit does.
-/
namespace Assoc

variable {κ α β σ : Type} {R R' : α → β → Prop}

def Related (R : α → β → Prop) : List (κ × α) → List (κ × β) → Prop :=
  List.Forall₂ fun x y => x.1 = y.1 ∧ R x.2 y.2

theorem Related.of_values {R : α → α → Prop} {xs : List (κ × α)}
    (h : ∀ x ∈ xs, R x.2 x.2) : Related R xs xs := by
  induction xs with
  | nil => exact .nil
  | cons x rest ih =>
    exact .cons ⟨rfl, h x (by simp)⟩ (ih fun y hy => h y (by simp [hy]))

theorem Related.imp {xs : List (κ × α)} {ys : List (κ × β)} (h : Related R xs ys)
    (weaker : ∀ a b, R a b → R' a b) : Related R' xs ys :=
  List.Forall₂.imp (fun _ _ p => ⟨p.1, weaker _ _ p.2⟩) h

theorem Related.append {xs xs' : List (κ × α)} {ys ys' : List (κ × β)}
    (h : Related R xs ys) (h' : Related R xs' ys') : Related R (xs ++ xs') (ys ++ ys') :=
  List.rel_append h h'

theorem Related.keys {xs : List (κ × α)} {ys : List (κ × β)} (h : Related R xs ys) :
    xs.map Prod.fst = ys.map Prod.fst := by
  induction h with
  | nil => rfl
  | cons pair _ ih => simp [pair.1, ih]

theorem Related.length {xs : List (κ × α)} {ys : List (κ × β)} (h : Related R xs ys) :
    xs.length = ys.length := List.Forall₂.length_eq h

theorem Related.getElem? {xs : List (κ × α)} {ys : List (κ × β)} (h : Related R xs ys)
    {i : Nat} {y : κ × β} (at_y : ys[i]? = some y) :
    ∃ x, xs[i]? = some x ∧ x.1 = y.1 ∧ R x.2 y.2 := by
  induction h generalizing i with
  | nil => simp at at_y
  | cons pair _ ih =>
    cases i with
    | zero =>
      simp only [List.getElem?_cons_zero, Option.some.injEq] at at_y
      subst at_y
      exact ⟨_, rfl, pair⟩
    | succ i => simpa using ih (by simpa using at_y)

theorem Related.value {xs : List (κ × α)} {ys : List (κ × β)} (h : Related R xs ys)
    {y : κ × β} (member : y ∈ ys) : ∃ x ∈ xs, x.1 = y.1 ∧ R x.2 y.2 := by
  obtain ⟨i, at_y⟩ := List.mem_iff_getElem?.mp member
  obtain ⟨x, at_x, pair⟩ := h.getElem? at_y
  exact ⟨x, List.mem_of_getElem? at_x, pair⟩

theorem Related.modify {xs : List (κ × α)} {ys : List (κ × β)} (h : Related R xs ys)
    (i : Nat) (f : β → β)
    (kept : ∀ x y, xs[i]? = some x → ys[i]? = some y → R x.2 y.2 → R x.2 (f y.2)) :
    Related R xs (ys.modify i fun y => (y.1, f y.2)) := by
  induction h generalizing i with
  | nil =>
    rw [List.modify_nil]
    exact .nil
  | cons pair rest ih =>
    cases i with
    | zero =>
      rw [List.modify_zero_cons]
      exact .cons ⟨pair.1, kept _ _ rfl rfl pair.2⟩ rest
    | succ i =>
      rw [List.modify_succ_cons]
      exact .cons pair (ih i fun x y at_x at_y => kept x y (by simpa using at_x) (by simpa using at_y))

section Lookup
variable [DecidableEq κ]

theorem Related.lookup {xs : List (κ × α)} {ys : List (κ × β)} (h : Related R xs ys)
    {k : κ} {a : α} (found : lookup xs k = some a) : ∃ b, lookup ys k = some b ∧ R a b := by
  induction h with
  | nil => simp [Assoc.lookup] at found
  | @cons x y _ _ pair _ ih =>
    by_cases here : x.1 = k
    · have first : x.2 = a := by simpa [Assoc.lookup, here] using found
      subst first
      exact ⟨y.2, by simp [Assoc.lookup, ← pair.1, here], pair.2⟩
    · obtain ⟨b, found', related⟩ := ih (by simpa [Assoc.lookup, here] using found)
      exact ⟨b, by simpa [Assoc.lookup, ← pair.1, here] using found', related⟩

theorem Related.set {R : α → α → Prop} {xs : List (κ × α)} (same : ∀ x ∈ xs, R x.2 x.2)
    {k : κ} {a a' : α} (found : Assoc.lookup xs k = some a) (changed : R a a') :
    Related R xs (set xs k a') := by
  induction xs with
  | nil => simp [Assoc.lookup] at found
  | cons x rest ih =>
    rw [Assoc.set_cons]
    have later := Related.of_values fun y (hy : y ∈ rest) => same y (by simp [hy])
    by_cases here : x.1 = k
    · have first : x.2 = a := by simpa [Assoc.lookup, here] using found
      rw [if_pos here]
      exact .cons ⟨here, first ▸ changed⟩ later
    · rw [if_neg here]
      refine .cons ⟨rfl, same x (by simp)⟩ (ih (fun y hy => same y (by simp [hy])) ?_)
      simpa [Assoc.lookup, here] using found

end Lookup

/-- Rewrite the entries in order. The visitor is given the map as a function of
the value at this entry, the entries before it already rewritten, and carries a
state along. -/
def visit (f : (α → List (κ × α)) → σ → κ → α → α × σ) :
    List (κ × α) → List (κ × α) → σ → List (κ × α) × σ
  | done, [], st => (done, st)
  | done, (k, a) :: rest, st =>
    let r := f (fun value => done ++ (k, value) :: rest) st k a
    visit f (done ++ [(k, r.1)]) rest r.2

theorem Related.visit {β : Type} {R R' : β → α → Prop}
    {f : (α → List (κ × α)) → σ → κ → α → α × σ} {xs₀ ys₀ : List (κ × β)}
    {done rest : List (κ × α)} (before : Related R' ys₀ done) (after : Related R xs₀ rest)
    (step : ∀ whole st k a₀ a, R a₀ a → R' a₀ (f whole st k a).1) (st : σ) :
    Related R' (ys₀ ++ xs₀) (visit f done rest st).1 := by
  induction after generalizing ys₀ done st with
  | nil => simpa [Assoc.visit] using before
  | @cons x y xs₀ rest pair _ ih =>
    rw [List.append_cons]
    apply ih
    exact before.append (.cons ⟨pair.1, step _ _ _ _ _ pair.2⟩ .nil)

/-- A pass over a whole map. -/
def visitAll (f : (α → List (κ × α)) → σ → κ → α → α × σ) (entries : List (κ × α)) (st : σ) :
    List (κ × α) :=
  (visit f [] entries st).1

theorem Related.visitAll {β : Type} {R R' : β → α → Prop}
    {f : (α → List (κ × α)) → σ → κ → α → α × σ} {xs₀ : List (κ × β)} {entries : List (κ × α)}
    (related : Related R xs₀ entries)
    (step : ∀ whole st k a₀ a, R a₀ a → R' a₀ (f whole st k a).1) (st : σ) :
    Related R' xs₀ (visitAll f entries st) :=
  Related.visit (.nil : Related R' [] []) related step st

end Assoc
