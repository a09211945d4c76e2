import Mathlib.Data.List.Induction
import Mathlib.Data.List.Nodup
import Mathlib.Data.List.Perm.Basic
import Narsil.Assoc.Entries

/-!
# Groups

A map from keys to lists, each item put at the end of its group. Groups keep the order in
which their keys came up, and together they hold each item as often as it was put in.
-/
namespace Assoc

variable {κ ν : Type} [DecidableEq κ] {groups : List (κ × List ν)} {k : κ} {item : ν}

/-- An item into the group of a key, which it opens where it is the first. -/
def push (groups : List (κ × List ν)) (k : κ) (item : ν) : List (κ × List ν) :=
  set groups k ((lookup groups k).getD [] ++ [item])

theorem push_ne_nil (filled : ∀ group ∈ groups, group.2 ≠ []) : ∀ group ∈ push groups k item, group.2 ≠ [] := by
  intro group member
  rcases mem_set member with rfl | before
  · simp
  · exact filled group before

theorem mem_push {group : κ × List ν} {x : ν} (member : group ∈ push groups k item) (inside : x ∈ group.2) :
    (group.1 = k ∧ x = item) ∨ ∃ items, (group.1, items) ∈ groups ∧ x ∈ items := by
  rcases mem_set member with rfl | before
  · rcases List.mem_append.mp inside with earlier | last
    · right
      cases found : lookup groups k with
      | none => simp [found] at earlier
      | some items =>
        rw [found] at earlier
        exact ⟨items, mem_of_lookup found, earlier⟩
    · exact .inl ⟨rfl, List.mem_singleton.mp last⟩
  · exact .inr ⟨group.2, before, inside⟩

theorem push_perm (groups : List (κ × List ν)) (k : κ) (item : ν) :
    ((push groups k item).flatMap Prod.snd).Perm (item :: groups.flatMap Prod.snd) := by
  induction groups with
  | nil => simp [push, lookup]
  | cons group rest ih =>
    by_cases here : group.1 = k
    · have pushed : push (group :: rest) k item = (k, group.2 ++ [item]) :: rest := by
        simp [push, set_cons, lookup, here]
      rw [pushed, List.flatMap_cons, List.flatMap_cons, List.append_assoc]
      exact List.perm_middle
    · have pushed : push (group :: rest) k item = group :: push rest k item := by
        simp [push, set_cons, lookup, here]
      rw [pushed, List.flatMap_cons, List.flatMap_cons]
      exact (ih.append_left group.2).trans List.perm_middle

section Collect
variable {α μ : Type} (key : α → κ) (start : α → μ) (add : μ → α → μ)

/-- An item into the entry of its key, which it starts where it is the first. -/
def collect (entries : List (κ × μ)) (item : α) : List (κ × μ) :=
  match lookup entries (key item) with
  | none => set entries (key item) (start item)
  | some entry => set entries (key item) (add entry item)

/-- What the items of one key make. -/
def collected : List α → Option μ
  | [] => none
  | first :: rest => some (rest.foldl add (start first))

theorem collected_concat (items : List α) (item : α) :
    collected start add (items ++ [item]) =
      some ((collected start add items).elim (start item) fun entry => add entry item) := by
  cases items with
  | nil => rfl
  | cons first rest => simp [collected]

theorem collect_distinct (items : List α) : ((items.foldl (collect key start add) []).map Prod.fst).Nodup := by
  suffices run : ∀ entries : List (κ × μ), (entries.map Prod.fst).Nodup →
      ((items.foldl (collect key start add) entries).map Prod.fst).Nodup from run [] List.nodup_nil
  induction items with
  | nil => exact fun entries distinct => distinct
  | cons item rest ih =>
    intro entries distinct
    apply ih
    rw [collect]
    split <;> exact set_distinct distinct _ _

theorem lookup_collect (items : List α) (k : κ) :
    lookup (items.foldl (collect key start add) []) k =
      collected start add (items.filter fun item => key item = k) := by
  induction items using List.reverseRecOn with
  | nil => rfl
  | append_singleton items item ih =>
    rw [List.foldl_append, List.foldl_cons, List.foldl_nil, List.filter_append, collect]
    by_cases same : key item = k
    · subst same
      rw [List.filter_cons_of_pos (by simp), List.filter_nil, collected_concat, ← ih]
      cases found : lookup (items.foldl (collect key start add) []) (key item) with
      | none => simp [lookup_set]
      | some entry => simp [lookup_set]
    · rw [List.filter_cons_of_neg (by simpa using same), List.filter_nil, List.append_nil, ← ih]
      split <;> rw [lookup_set, if_neg (Ne.symm same)]

theorem filter_set (keep : κ → Prop) [DecidablePred keep] (entries : List (κ × μ)) (k : κ) (v : μ) :
    (set entries k v).filter (fun entry => keep entry.1) =
      if keep k then set (entries.filter fun entry => keep entry.1) k v else entries.filter fun entry => keep entry.1 := by
  induction entries with
  | nil => by_cases kept : keep k <;> simp [kept]
  | cons entry rest ih =>
    rw [set_cons]
    by_cases here : entry.1 = k
    · by_cases kept : keep k <;> simp [set_cons, here, kept]
    · rw [if_neg here]
      by_cases first : keep entry.1
      · rw [List.filter_cons_of_pos (by simpa using first), List.filter_cons_of_pos (by simpa using first), ih]
        split
        · rw [set_cons, if_neg here]
        · rfl
      · rw [List.filter_cons_of_neg (by simpa using first), List.filter_cons_of_neg (by simpa using first), ih]

theorem filter_collect (keep : κ → Prop) [DecidablePred keep] (items : List α) (entries : List (κ × μ)) :
    (items.foldl (collect key start add) entries).filter (fun entry => keep entry.1) =
      (items.filter fun item => keep (key item)).foldl (collect key start add)
        (entries.filter fun entry => keep entry.1) := by
  induction items generalizing entries with
  | nil => rfl
  | cons item rest ih =>
    rw [List.foldl_cons, ih]
    have found := lookup_filter keep entries (key item)
    by_cases kept : keep (key item)
    · rw [List.filter_cons_of_pos (by simpa using kept), List.foldl_cons]
      congr 1
      rw [if_pos kept] at found
      rw [collect, collect, found]
      split <;> rw [filter_set, if_pos kept]
    · rw [List.filter_cons_of_neg (by simpa using kept)]
      congr 1
      rw [collect]
      split <;> rw [filter_set, if_neg kept]

end Collect

theorem filter_key {entries : List (κ × ν)} (distinct : (entries.map Prod.fst).Nodup) (k : κ) :
    entries.filter (fun entry => entry.1 = k) = (lookup entries k).toList.map (Prod.mk k) := by
  induction entries with
  | nil => rfl
  | cons entry rest ih =>
    obtain ⟨new, rest_distinct⟩ := List.nodup_cons.mp distinct
    by_cases same : entry.1 = k
    · subst same
      have none_later : rest.filter (fun other => other.1 = entry.1) = [] := by
        rw [ih rest_distinct, lookup_eq_none.mpr new]
        rfl
      rw [List.filter_cons_of_pos (by simp), none_later]
      simp [lookup]
    · rw [List.filter_cons_of_neg (by simpa using same), ih rest_distinct]
      simp [lookup, same]

theorem perm_of_lookup {entries others : List (κ × ν)} (distinct : (entries.map Prod.fst).Nodup)
    (others_distinct : (others.map Prod.fst).Nodup) (same : ∀ k, lookup entries k = lookup others k) :
    entries.Perm others := by
  apply (List.perm_ext_iff_of_nodup (List.Nodup.of_map Prod.fst distinct)
    (List.Nodup.of_map Prod.fst others_distinct)).mpr
  intro entry
  rw [show entry = (entry.1, entry.2) from rfl, mem_iff_lookup distinct, mem_iff_lookup others_distinct, same]

end Assoc
