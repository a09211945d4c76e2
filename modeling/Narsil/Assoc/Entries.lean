import Mathlib.Data.List.Basic

/-!
# Lists of entries

A map as a list of keys with their values; the first entry of a key counts.
-/
namespace Assoc

variable {κ ν : Type} {entries : List (κ × ν)} {k : κ} {v : ν}

variable [DecidableEq κ]

/-- The first entry of a key. -/
def lookup (entries : List (κ × ν)) (k : κ) : Option ν :=
  (entries.find? fun e => e.1 = k).map Prod.snd

theorem lookup_append (xs ys : List (κ × ν)) (k : κ) :
    lookup (xs ++ ys) k = (lookup xs k).or (lookup ys k) := by
  rw [lookup, List.find?_append]
  cases h : xs.find? fun e => e.1 = k <;> simp [lookup, h]

theorem lookup_eq_none : lookup entries k = none ↔ k ∉ entries.map Prod.fst := by
  simp only [lookup, Option.map_eq_none_iff, List.find?_eq_none, List.mem_map, decide_eq_true_eq,
    not_exists, not_and]

theorem lookup_isSome : (lookup entries k).isSome = true ↔ k ∈ entries.map Prod.fst := by
  rw [← not_iff_not, ← lookup_eq_none, Bool.not_eq_true, Option.isSome_eq_false_iff,
    Option.isNone_iff_eq_none]

theorem mem_of_lookup (h : lookup entries k = some v) : (k, v) ∈ entries := by
  obtain ⟨e, found, rfl⟩ := Option.map_eq_some_iff.mp h
  have same : e.1 = k := by simpa using List.find?_some found
  subst same
  exact List.mem_of_find?_eq_some found

theorem lookup_of_mem (distinct : (entries.map Prod.fst).Nodup) (member : (k, v) ∈ entries) :
    lookup entries k = some v := by
  induction entries with
  | nil => exact absurd member List.not_mem_nil
  | cons e rest ih =>
    rw [List.map_cons, List.nodup_cons] at distinct
    rcases List.mem_cons.mp member with rfl | later
    · simp [lookup]
    · have other : e.1 ≠ k := fun same => distinct.1 (same ▸ List.mem_map_of_mem later)
      rw [← ih distinct.2 later]
      simp [lookup, other]

theorem lookup_perm {others : List (κ × ν)} (distinct : (entries.map Prod.fst).Nodup)
    (same : entries.Perm others) (k : κ) : lookup entries k = lookup others k := by
  have others_distinct : (others.map Prod.fst).Nodup := (same.map Prod.fst).nodup_iff.mp distinct
  cases found : lookup others k with
  | none =>
    rw [lookup_eq_none] at found ⊢
    exact fun member => found ((same.map Prod.fst).mem_iff.mp member)
  | some v => exact lookup_of_mem distinct (same.mem_iff.mpr (mem_of_lookup found))

theorem mem_iff_lookup (distinct : (entries.map Prod.fst).Nodup) :
    (k, v) ∈ entries ↔ lookup entries k = some v :=
  ⟨lookup_of_mem distinct, mem_of_lookup⟩

theorem lookup_filter (keep : κ → Prop) [DecidablePred keep] (entries : List (κ × ν)) (k : κ) :
    lookup (entries.filter fun e => keep e.1) k = if keep k then lookup entries k else none := by
  induction entries with
  | nil => simp [lookup]
  | cons e rest ih =>
    by_cases same : e.1 = k
    · subst same
      by_cases kept : keep e.1
      · simp [kept, lookup]
      · rw [List.filter_cons_of_neg (by simpa using kept), ih, if_neg kept, if_neg kept]
    · have skip : lookup (e :: rest) k = lookup rest k := by
        simp [lookup, same]
      rw [skip, ← ih]
      by_cases kept : keep e.1
      · rw [List.filter_cons_of_pos (by simpa using kept)]
        simp [lookup, same]
      · rw [List.filter_cons_of_neg (by simpa using kept)]

theorem lookup_map_values {μ : Type} (f : ν → μ) (entries : List (κ × ν)) (k : κ) :
    lookup (entries.map fun e => (e.1, f e.2)) k = (lookup entries k).map f := by
  induction entries with
  | nil => rfl
  | cons e rest ih =>
    by_cases same : e.1 = k
    · simp [lookup, same]
    · simpa [lookup, same] using ih

def erase (entries : List (κ × ν)) (k : κ) : List (κ × ν) := entries.filter fun e => e.1 ≠ k

def insert (entries : List (κ × ν)) (k : κ) (v : ν) : List (κ × ν) := (k, v) :: erase entries k

theorem erase_append (xs ys : List (κ × ν)) (k : κ) : erase (xs ++ ys) k = erase xs k ++ erase ys k :=
  List.filter_append ..

theorem erase_of_not_mem (missing : k ∉ entries.map Prod.fst) : erase entries k = entries := by
  apply List.filter_eq_self.mpr
  intro e member
  have other : e.1 ≠ k := fun same => missing (same ▸ List.mem_map_of_mem member)
  simpa using other

theorem mem_erase {e : κ × ν} : e ∈ erase entries k ↔ e ∈ entries ∧ e.1 ≠ k := by
  simp [erase, List.mem_filter]

theorem erase_sublist (entries : List (κ × ν)) (k : κ) : (erase entries k).Sublist entries :=
  List.filter_sublist

theorem not_mem_keys_erase : k ∉ (erase entries k).map Prod.fst := by
  rintro member
  obtain ⟨e, kept, same⟩ := List.mem_map.mp member
  exact (mem_erase.mp kept).2 same

theorem lookup_erase (entries : List (κ × ν)) (k other : κ) :
    lookup (erase entries k) other = if other = k then none else lookup entries other := by
  rw [erase, lookup_filter fun key => key ≠ k]
  by_cases same : other = k <;> simp [same]

theorem lookup_insert (entries : List (κ × ν)) (k : κ) (v : ν) (other : κ) :
    lookup (insert entries k v) other = if other = k then some v else lookup entries other := by
  by_cases same : other = k
  · simp [insert, lookup, same]
  · have skip : lookup (insert entries k v) other = lookup (erase entries k) other := by
      simp [insert, lookup, Ne.symm same]
    rw [skip, lookup_erase, if_neg same, if_neg same]

/-- Set a key where it stands, or at the end where it is new. -/
def set : List (κ × ν) → κ → ν → List (κ × ν)
  | [], k, v => [(k, v)]
  | e :: rest, k, v => if e.1 = k then (k, v) :: rest else e :: set rest k v

@[simp] theorem set_nil (k : κ) (v : ν) : set ([] : List (κ × ν)) k v = [(k, v)] := rfl

theorem set_cons (e : κ × ν) (rest : List (κ × ν)) (k : κ) (v : ν) :
    set (e :: rest) k v = if e.1 = k then (k, v) :: rest else e :: set rest k v := rfl

theorem lookup_set (entries : List (κ × ν)) (k : κ) (v : ν) (other : κ) :
    lookup (set entries k v) other = if other = k then some v else lookup entries other := by
  induction entries with
  | nil =>
    by_cases same : other = k
    · simp [lookup, same]
    · simp [lookup, same, Ne.symm same]
  | cons e rest ih =>
    by_cases here : e.1 = k
    · by_cases same : other = k
      · simp [set_cons, lookup, here, same]
      · simp [set_cons, lookup, here, same, Ne.symm same]
    · rw [set_cons, if_neg here]
      by_cases first : e.1 = other
      · have apart : other ≠ k := fun h => here (first.trans h)
        simp [lookup, first, apart]
      · simpa [lookup, first] using ih

theorem mem_keys_set {entries : List (κ × ν)} {k other : κ} {v : ν} :
    other ∈ (set entries k v).map Prod.fst ↔ other = k ∨ other ∈ entries.map Prod.fst := by
  rw [← lookup_isSome, ← lookup_isSome, lookup_set]
  split
  · next same => simp [same]
  · next different => simp [different]

theorem mem_set {entries : List (κ × ν)} {k : κ} {v : ν} {e : κ × ν} (member : e ∈ set entries k v) :
    e = (k, v) ∨ e ∈ entries := by
  induction entries with
  | nil => simpa using member
  | cons first rest ih =>
    rw [set_cons] at member
    split at member
    · rcases List.mem_cons.mp member with same | later
      · exact .inl same
      · exact .inr (List.mem_cons_of_mem _ later)
    · rcases List.mem_cons.mp member with rfl | later
      · exact .inr List.mem_cons_self
      · exact (ih later).imp_right (List.mem_cons_of_mem _)

theorem set_distinct {entries : List (κ × ν)} (distinct : (entries.map Prod.fst).Nodup) (k : κ) (v : ν) :
    ((set entries k v).map Prod.fst).Nodup := by
  induction entries with
  | nil => simp
  | cons e rest ih =>
    rw [List.map_cons, List.nodup_cons] at distinct
    rw [set_cons]
    split
    · next same =>
      rw [List.map_cons, List.nodup_cons]
      exact ⟨same ▸ distinct.1, distinct.2⟩
    · next different =>
      rw [List.map_cons, List.nodup_cons, mem_keys_set]
      refine ⟨?_, ih distinct.2⟩
      rintro (same | member)
      · exact different same
      · exact distinct.1 member

theorem set_new {entries : List (κ × ν)} {k : κ} (v : ν) (new : k ∉ entries.map Prod.fst) :
    set entries k v = entries ++ [(k, v)] := by
  induction entries with
  | nil => rfl
  | cons entry rest ih =>
    obtain ⟨other, later⟩ := List.ne_and_not_mem_of_not_mem_cons new
    rw [set_cons, if_neg (Ne.symm other), ih later, List.cons_append]

end Assoc
