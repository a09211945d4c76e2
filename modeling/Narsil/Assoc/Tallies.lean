import Mathlib.Algebra.GroupWithZero.Nat
import Mathlib.Algebra.BigOperators.Group.List.Basic
import Narsil.Assoc.Groups

/-!
# Tallies

Counts of keys that are added up, and how far they may fall short of what is counted: by no
more than a bound for every key, listed or not.
-/
namespace Assoc

variable {κ : Type} [DecidableEq κ] {entries others : List (κ × Nat)} {k : κ}

/-- How much the entries of a key make together. -/
def total (entries : List (κ × Nat)) (k : κ) : Nat := ((entries.filter fun e => e.1 = k).map Prod.snd).sum

def add (counts : List (κ × Nat)) (entry : κ × Nat) : List (κ × Nat) :=
  set counts entry.1 ((lookup counts entry.1).getD 0 + entry.2)

theorem total_append (entries others : List (κ × Nat)) (k : κ) :
    total (entries ++ others) k = total entries k + total others k := by
  rw [total, List.filter_append, List.map_append, List.sum_append]
  rfl

theorem total_cons (entry : κ × Nat) (entries : List (κ × Nat)) (k : κ) :
    total (entry :: entries) k = (if entry.1 = k then entry.2 else 0) + total entries k := by
  rw [total, List.filter_cons]
  split
  · next same => rw [if_pos (by simpa using same), List.map_cons, List.sum_cons]; rfl
  · next other => rw [if_neg (by simpa using other), Nat.zero_add]; rfl

theorem total_perm (same : entries.Perm others) (k : κ) : total entries k = total others k :=
  ((same.filter _).map Prod.snd).sum_eq

theorem total_of_distinct (distinct : (entries.map Prod.fst).Nodup) (k : κ) :
    total entries k = (lookup entries k).getD 0 := by
  rw [total, filter_key distinct]
  cases lookup entries k with
  | none => rfl
  | some count => exact Nat.add_zero _

theorem total_of_not_mem (missing : k ∉ entries.map Prod.fst) : total entries k = 0 := by
  have none_of_key : (entries.filter fun e => e.1 = k) = [] := by
    rw [List.filter_eq_nil_iff]
    intro e member same
    exact missing (List.mem_map.mpr ⟨e, member, by simpa using same⟩)
  rw [total, none_of_key]
  rfl

theorem add_distinct {counts : List (κ × Nat)} (distinct : (counts.map Prod.fst).Nodup)
    (entries : List (κ × Nat)) : ((entries.foldl add counts).map Prod.fst).Nodup := by
  induction entries generalizing counts with
  | nil => exact distinct
  | cons entry rest ih => exact ih (set_distinct distinct _ _)

theorem lookup_add (counts entries : List (κ × Nat)) (k : κ) :
    (lookup (entries.foldl add counts) k).getD 0 = (lookup counts k).getD 0 + total entries k := by
  induction entries generalizing counts with
  | nil => rfl
  | cons entry rest ih =>
    rw [List.foldl_cons, ih, add, lookup_set, total_cons, ← Nat.add_assoc]
    by_cases same : k = entry.1
    · rw [if_pos same, if_pos same.symm, Option.getD_some, same]
    · rw [if_neg same, if_neg fun eq => same eq.symm, Nat.add_zero]

theorem total_add (entries : List (κ × Nat)) (k : κ) : total (entries.foldl add []) k = total entries k := by
  have distinct : ((entries.foldl add []).map Prod.fst).Nodup := add_distinct (by simp) entries
  rw [total_of_distinct distinct, lookup_add]
  exact Nat.zero_add _

theorem lookup_map_entries {ν μ : Type} (f : κ → ν → μ) (entries : List (κ × ν)) (k : κ) :
    lookup (entries.map fun e => (e.1, f e.1 e.2)) k = (lookup entries k).map (f k) := by
  induction entries with
  | nil => rfl
  | cons e rest ih =>
    by_cases same : e.1 = k
    · simp [lookup, same]
    · simpa [lookup, same] using ih

/-- Of every key the entries count no more than there is, and at most so much less. -/
def Within (truth : κ → Nat) (entries : List (κ × Nat)) (short : Nat) : Prop :=
  ∀ k, total entries k ≤ truth k ∧ truth k ≤ total entries k + short

theorem Within.sum {α : Type} {parts : List α} {truth : α → κ → Nat} {listed : α → List (κ × Nat)}
    {short : α → Nat} (each : ∀ part ∈ parts, Within (truth part) (listed part) (short part)) :
    Within (fun k => (parts.map fun part => truth part k).sum) (parts.flatMap listed) (parts.map short).sum := by
  induction parts with
  | nil => exact fun k => ⟨Nat.le_refl _, Nat.le_refl _⟩
  | cons part rest ih =>
    intro k
    have first := each part List.mem_cons_self k
    have later := ih (fun other member => each other (List.mem_cons_of_mem _ member)) k
    dsimp only at later ⊢
    rw [List.flatMap_cons, total_append, List.map_cons, List.sum_cons, List.map_cons, List.sum_cons]
    omega

theorem Within.congr {truth : κ → Nat} {short : Nat} (within : Within truth entries short)
    (same : ∀ k, total others k = total entries k) : Within truth others short := by
  intro k
  rw [same]
  exact within k

def largestCount (entries : List (κ × Nat)) : Nat := entries.foldl (fun largest entry => max largest entry.2) 0

omit [DecidableEq κ] in
theorem le_foldl_max (entries : List (κ × Nat)) (start : Nat) :
    start ≤ entries.foldl (fun largest entry => max largest entry.2) start ∧
      ∀ entry ∈ entries, entry.2 ≤ entries.foldl (fun largest entry => max largest entry.2) start := by
  induction entries generalizing start with
  | nil => exact ⟨Nat.le_refl _, nofun⟩
  | cons entry rest ih =>
    obtain ⟨above, others⟩ := ih (max start entry.2)
    refine ⟨Nat.le_trans (Nat.le_max_left _ _) above, fun other member => ?_⟩
    rcases List.mem_cons.mp member with rfl | later
    · exact Nat.le_trans (Nat.le_max_right _ _) above
    · exact others other later

theorem total_le_largestCount (distinct : (entries.map Prod.fst).Nodup) (k : κ) :
    total entries k ≤ largestCount entries := by
  rw [total_of_distinct distinct]
  cases found : lookup entries k with
  | none => exact Nat.zero_le _
  | some count => exact (le_foldl_max entries 0).2 (k, count) (mem_of_lookup found)

theorem Within.cut {truth : κ → Nat} {short : Nat} (within : Within truth entries short)
    (distinct : (entries.map Prod.fst).Nodup) (kept : Nat) :
    Within truth (entries.take kept) (short + largestCount (entries.drop kept)) := by
  intro k
  have whole := within k
  have left_out : total (entries.drop kept) k ≤ largestCount (entries.drop kept) :=
    total_le_largestCount (distinct.sublist ((List.drop_sublist _ _).map _)) k
  rw [← List.take_append_drop kept entries, total_append] at whole
  omega

end Assoc
