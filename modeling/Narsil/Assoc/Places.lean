import Mathlib.Algebra.GroupWithZero.Nat
import Mathlib.Algebra.BigOperators.Group.List.Basic
import Narsil.Assoc.Groups

/-!
# Places of entries

The place of a key among the entries. Whoever remembers it can change the entry where it
stands, which is the same as setting the key.
-/
namespace Assoc

variable {κ ν : Type} [DecidableEq κ] {entries : List (κ × ν)} {k : κ} {v : ν} {i : Nat}

def placeOf (entries : List (κ × ν)) (k : κ) : Option Nat := entries.findIdx? fun entry => entry.1 = k

@[simp] theorem placeOf_nil : placeOf ([] : List (κ × ν)) k = none := rfl

theorem placeOf_cons (entry : κ × ν) (entries : List (κ × ν)) (k : κ) :
    placeOf (entry :: entries) k = if entry.1 = k then some 0 else (placeOf entries k).map (· + 1) := by
  simp [placeOf, List.findIdx?_cons]

theorem map_modify {α β : Type} (f : α → β) (before : α → α) (after : β → β) (list : List α) {i : Nat}
    (commutes : ∀ x, after (f x) = f (before x)) : (list.map f).modify i after = (list.modify i before).map f := by
  induction list generalizing i with
  | nil => cases i <;> rfl
  | cons first rest ih =>
    cases i with
    | zero => simp [commutes]
    | succ i => simp [ih]

theorem placeOf_eq_none : placeOf entries k = none ↔ k ∉ entries.map Prod.fst := by
  rw [placeOf, List.findIdx?_eq_none_iff, List.mem_map]
  exact ⟨fun absent ⟨entry, isIn, same⟩ => by simpa [same] using absent entry isIn,
    fun missing entry isIn => by simpa using fun same => missing ⟨entry, isIn, same⟩⟩

theorem lookup_cons (entry : κ × ν) (entries : List (κ × ν)) (k : κ) :
    lookup (entry :: entries) k = if entry.1 = k then some entry.2 else lookup entries k := by
  by_cases here : entry.1 = k <;> simp [lookup, here]

theorem lookup_of_place (found : placeOf entries k = some i) : ∃ v, lookup entries k = some v := by
  cases value : lookup entries k with
  | some v => exact ⟨v, rfl⟩
  | none =>
    rw [placeOf_eq_none.mpr (lookup_eq_none.mp value)] at found
    cases found

theorem modify_place (found : placeOf entries k = some i) (value : lookup entries k = some v) (change : ν → ν) :
    (entries.modify i fun entry => (entry.1, change entry.2)) = set entries k (change v) := by
  induction entries generalizing i with
  | nil => cases found
  | cons entry rest ih =>
    rw [placeOf_cons] at found
    by_cases here : entry.1 = k
    · rw [if_pos here] at found
      obtain rfl := Option.some.inj found
      rw [lookup_cons, if_pos here] at value
      rw [List.modify_zero_cons, set_cons, if_pos here, here, Option.some.inj value]
    · rw [if_neg here] at found
      obtain ⟨place, later, rfl⟩ := Option.map_eq_some_iff.mp found
      rw [lookup_cons, if_neg here] at value
      rw [List.modify_succ_cons, set_cons, if_neg here, ih later value]

theorem placeOf_set_old (found : placeOf entries k = some i) (v : ν) (other : κ) :
    placeOf (set entries k v) other = placeOf entries other := by
  induction entries generalizing i with
  | nil => cases found
  | cons entry rest ih =>
    rw [placeOf_cons] at found
    by_cases here : entry.1 = k
    · rw [set_cons, if_pos here, placeOf_cons, placeOf_cons, here]
    · rw [if_neg here] at found
      obtain ⟨place, later, -⟩ := Option.map_eq_some_iff.mp found
      rw [set_cons, if_neg here, placeOf_cons, placeOf_cons, ih later]

theorem set_keys (found : k ∈ entries.map Prod.fst) (v : ν) : (set entries k v).map Prod.fst = entries.map Prod.fst := by
  induction entries with
  | nil => cases found
  | cons entry rest ih =>
    rw [set_cons]
    by_cases here : entry.1 = k
    · rw [if_pos here, List.map_cons, List.map_cons, here]
    · rw [if_neg here, List.map_cons, List.map_cons]
      rw [List.map_cons, List.mem_cons] at found
      rw [ih (found.resolve_left (Ne.symm here))]

theorem placeOf_set_new (missing : placeOf entries k = none) (v : ν) (other : κ) :
    placeOf (set entries k v) other = if other = k then some entries.length else placeOf entries other := by
  rw [set_new v (placeOf_eq_none.mp missing), placeOf, List.findIdx?_append, ← placeOf]
  by_cases same : other = k
  · subst same
    simp [missing]
  · have apart : ¬ k = other := fun equal => same equal.symm
    rw [if_neg same]
    simp [apart]

theorem sum_set {entries : List (κ × Nat)} {sum more : Nat} (found : lookup entries k = some sum) :
    ((set entries k (sum + more)).map Prod.snd).sum = (entries.map Prod.snd).sum + more := by
  induction entries with
  | nil => cases found
  | cons entry rest ih =>
    rw [lookup_cons] at found
    rw [set_cons]
    by_cases here : entry.1 = k
    · rw [if_pos here] at found
      rw [if_pos here, List.map_cons, List.sum_cons, List.map_cons, List.sum_cons, Option.some.inj found]
      omega
    · rw [if_neg here] at found
      rw [if_neg here, List.map_cons, List.sum_cons, List.map_cons, List.sum_cons, ih found]
      omega

variable {α μ : Type} (key : α → κ) (start : α → μ) (add : μ → α → μ)

theorem mem_keys_collect {items : List α} :
    k ∈ (items.foldl (collect key start add) []).map Prod.fst ↔ ∃ item ∈ items, key item = k := by
  rw [← lookup_isSome, lookup_collect]
  cases chosen : items.filter fun item => decide (key item = k) with
  | nil =>
    have nothing := List.filter_eq_nil_iff.mp chosen
    exact iff_of_false (by simp [collected]) fun ⟨item, isIn, same⟩ => nothing item isIn (decide_eq_true same)
  | cons first rest =>
    have isFirst : first ∈ items.filter fun item => decide (key item = k) := chosen ▸ List.mem_cons_self
    have first_spec := List.mem_filter.mp isFirst
    exact iff_of_true rfl ⟨first, first_spec.1, of_decide_eq_true first_spec.2⟩

theorem collect_keys_sublist (items : List α) :
    ((items.foldl (collect key start add) []).map Prod.fst).Sublist (items.map key) := by
  induction items using List.reverseRecOn with
  | nil => exact List.Sublist.refl _
  | append_singleton items item ih =>
    rw [List.foldl_append, List.foldl_cons, List.foldl_nil, List.map_append, collect]
    cases found : lookup (items.foldl (collect key start add) []) (key item) with
    | none =>
      simp only
      rw [set_new _ (lookup_eq_none.mp found), List.map_append]
      exact ih.append (List.Sublist.refl _)
    | some entry =>
      simp only
      rw [set_keys (lookup_isSome.mp (by rw [found]; rfl))]
      exact ih.trans (List.sublist_append_left _ _)

end Assoc
