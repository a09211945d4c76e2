import Mathlib.Data.List.Nodup
import Narsil.Assoc.Entries

/-!
# Maps kept in layers

A map is kept as a list of layers, the newest last. A layer holds entries and
removes keys from the layers before it. Reading asks the newest layer that
mentions a key. Loading goes through the layers in order, takes away what each
removes and adds what it holds; it agrees with reading when no key is held twice
without a removal in between. Merging a run of neighbouring layers keeps both.
-/
namespace Layered

open Assoc

variable {κ ν : Type}

structure Layer (κ ν : Type) where
  entries : List (κ × ν)
  removes : List κ

def Layer.keys (l : Layer κ ν) : List κ := l.entries.map Prod.fst

variable {entries held : List (κ × ν)} {k : κ} {v : ν} {l : Layer κ ν}
  {layers pre window merged post xs ys : List (Layer κ ν)} {removes : List κ}

/-- Some layer removes the key. -/
def Removed (layers : List (Layer κ ν)) (k : κ) : Prop := ∃ l ∈ layers, k ∈ l.removes

theorem removed_cons : Removed (l :: layers) k ↔ k ∈ l.removes ∨ Removed layers k := by
  simp [Removed]

theorem removed_append : Removed (xs ++ ys) k ↔ Removed xs k ∨ Removed ys k := by
  simp [Removed, or_and_right, exists_or]

/-- The layers remove the key before one of them holds it, or none holds it. -/
def Cleared : List (Layer κ ν) → κ → Prop
  | [], _ => True
  | l :: newer, k => k ∈ l.removes ∨ (k ∉ l.keys ∧ Cleared newer k)

/-- Loading the layers leaves the key in. -/
def Lives : List (Layer κ ν) → κ → Prop
  | [], _ => False
  | l :: newer, k => (k ∈ l.keys ∧ ¬ Removed newer k) ∨ Lives newer k

/-- A key is removed before it is held again. -/
def Exclusive : List (Layer κ ν) → Prop
  | [] => True
  | l :: newer => (∀ k ∈ l.keys, Cleared newer k) ∧ Exclusive newer

theorem cleared_append :
    Cleared (xs ++ ys) k ↔ Cleared xs k ∧ (Removed xs k ∨ Cleared ys k) := by
  induction xs with
  | nil => simp [Cleared, Removed]
  | cons l rest ih =>
    simp only [List.cons_append, Cleared, ih, removed_cons]
    tauto

theorem lives_append : Lives (xs ++ ys) k ↔ Lives ys k ∨ (Lives xs k ∧ ¬ Removed ys k) := by
  induction xs with
  | nil => simp [Lives]
  | cons l rest ih =>
    simp only [List.cons_append, Lives, ih, removed_append]
    tauto

theorem exclusive_append :
    Exclusive (xs ++ ys) ↔ Exclusive xs ∧ Exclusive ys ∧ ∀ k, Lives xs k → Cleared ys k := by
  induction xs with
  | nil => simp [Exclusive, Lives]
  | cons l rest ih =>
    simp only [List.cons_append, Exclusive, ih, cleared_append, Lives]
    constructor
    · rintro ⟨first, exclusive, exclusive', cross⟩
      refine ⟨⟨fun k hk => (first k hk).1, exclusive⟩, exclusive', ?_⟩
      rintro k (⟨held, kept⟩ | later)
      · exact (first k held).2.resolve_left kept
      · exact cross k later
    · rintro ⟨⟨first, exclusive⟩, exclusive', cross⟩
      refine ⟨fun k hk => ⟨first k hk, ?_⟩, exclusive, exclusive', fun k later => cross k (Or.inr later)⟩
      by_cases removed : Removed rest k
      · exact Or.inl removed
      · exact Or.inr (cross k (Or.inl ⟨hk, removed⟩))

theorem Cleared.of_not_held (h : ∀ l ∈ layers, k ∉ l.keys) : Cleared layers k := by
  induction layers with
  | nil => trivial
  | cons l rest ih =>
    exact Or.inr ⟨h l (by simp), ih fun m hm => h m (List.mem_cons_of_mem _ hm)⟩

theorem Cleared.not_held (h : Cleared layers k) (kept : ¬ Removed layers k) :
    ∀ l ∈ layers, k ∉ l.keys := by
  induction layers with
  | nil => simp
  | cons l rest ih =>
    rw [removed_cons, not_or] at kept
    obtain ⟨notHere, later⟩ := h.resolve_left kept.1
    exact List.forall_mem_cons.mpr ⟨notHere, ih later kept.2⟩

theorem lives_held (h : Lives layers k) : ∃ l ∈ layers, k ∈ l.keys := by
  induction layers with
  | nil => exact h.elim
  | cons l rest ih =>
    rcases h with ⟨held, -⟩ | later
    · exact ⟨l, by simp, held⟩
    · obtain ⟨m, hm, held⟩ := ih later
      exact ⟨m, List.mem_cons_of_mem _ hm, held⟩

variable [DecidableEq κ]

instance (layers : List (Layer κ ν)) (k : κ) : Decidable (Removed layers k) :=
  inferInstanceAs (Decidable (∃ l ∈ layers, k ∈ l.removes))

/-- What a layer tells of a key: the value it holds, that the key is gone, or nothing. -/
def Layer.tells (l : Layer κ ν) (k : κ) : Option (Option ν) :=
  ((lookup l.entries k).map some).or (if k ∈ l.removes then some none else none)

/-- The newest layer that mentions the key decides. -/
def tells : List (Layer κ ν) → κ → Option (Option ν)
  | [], _ => none
  | l :: newer, k => (tells newer k).or (l.tells k)

def read (layers : List (Layer κ ν)) (k : κ) : Option ν := (tells layers k).join

/-- Load a layer on top of what is there. -/
def attach (held : List (κ × ν)) (l : Layer κ ν) : List (κ × ν) :=
  held.filter (fun e => e.1 ∉ l.removes) ++ l.entries

def load (layers : List (Layer κ ν)) : List (κ × ν) := layers.foldl attach []

theorem Layer.tells_congr {removes removes' : List κ}
    (same : k ∉ entries.map Prod.fst → (k ∈ removes ↔ k ∈ removes')) :
    (Layer.mk entries removes).tells k = (Layer.mk entries removes').tells k := by
  unfold Layer.tells
  by_cases held : k ∈ entries.map Prod.fst
  · obtain ⟨v, found⟩ := Option.isSome_iff_exists.mp (lookup_isSome.mpr held)
    rw [found]
    rfl
  · simp only [same held]

theorem tells_append (xs ys : List (Layer κ ν)) (k : κ) :
    tells (xs ++ ys) k = (tells ys k).or (tells xs k) := by
  induction xs with
  | nil => simp [tells]
  | cons l rest ih => rw [List.cons_append, tells, tells, ih, Option.or_assoc]

theorem Layer.tells_of_keys (h : k ∈ l.keys) : ∃ v, lookup l.entries k = some v ∧ l.tells k = some (some v) := by
  obtain ⟨v, found⟩ := Option.isSome_iff_exists.mp (lookup_isSome.mpr h)
  exact ⟨v, found, by simp [Layer.tells, found]⟩

theorem Layer.tells_of_not_keys (h : k ∉ l.keys) :
    l.tells k = if k ∈ l.removes then some none else none := by
  rw [Layer.tells, lookup_eq_none.mpr h]
  rfl

theorem tells_of_removed (h : Removed layers k) : (tells layers k).isSome = true := by
  induction layers with
  | nil => simp [Removed] at h
  | cons l rest ih =>
    rw [tells, Option.isSome_or]
    rcases removed_cons.mp h with here | later
    · simp [Layer.tells, here]
    · simp [ih later]

theorem removes_of_gone (h : tells layers k = some none) : ∃ l ∈ layers, k ∈ l.removes ∧ k ∉ l.keys := by
  induction layers with
  | nil => cases h
  | cons l rest ih =>
    rw [tells] at h
    rcases Option.or_eq_some_iff.mp h with later | ⟨-, here⟩
    · obtain ⟨m, hm, removed⟩ := ih later
      exact ⟨m, List.mem_cons_of_mem _ hm, removed⟩
    · refine ⟨l, by simp, ?_⟩
      by_cases held : k ∈ l.keys
      · obtain ⟨v, -, tells⟩ := Layer.tells_of_keys held
        rw [tells] at here
        cases here
      · rw [Layer.tells_of_not_keys held] at here
        split at here
        next removed => exact ⟨removed, held⟩
        next => cases here

theorem tells_eq_none (held : ∀ l ∈ layers, k ∉ l.keys) (kept : ¬ Removed layers k) :
    tells layers k = none := by
  induction layers with
  | nil => rfl
  | cons l rest ih =>
    rw [removed_cons, not_or] at kept
    obtain ⟨here, later⟩ := List.forall_mem_cons.mp held
    rw [tells, ih later kept.2, Layer.tells_of_not_keys here, if_neg kept.1]
    rfl

theorem not_held_of_tells (h : tells layers k = none) : ¬ Removed layers k ∧ ∀ l ∈ layers, k ∉ l.keys := by
  refine ⟨fun removed => ?_, ?_⟩
  · have := tells_of_removed removed
    rw [h] at this
    cases this
  · induction layers with
    | nil => simp
    | cons l rest ih =>
      rw [tells, Option.or_eq_none_iff] at h
      refine List.forall_mem_cons.mpr ⟨fun held => ?_, ih h.1⟩
      obtain ⟨v, -, tells⟩ := Layer.tells_of_keys held
      rw [tells] at h
      cases h.2

private theorem lookup_foldl_attach (layers : List (Layer κ ν)) (held : List (κ × ν))
    (exclusive : Exclusive layers) (clear : ∀ k ∈ held.map Prod.fst, Cleared layers k) (k : κ) :
    lookup (layers.foldl attach held) k = ((tells layers k).or ((lookup held k).map some)).join := by
  induction layers generalizing held with
  | nil => cases h : lookup held k <;> simp [tells, h]
  | cons l rest ih =>
    obtain ⟨first, exclusive'⟩ := exclusive
    have clear' : ∀ k ∈ (attach held l).map Prod.fst, Cleared rest k := by
      intro k hk
      rw [attach, List.map_append, List.mem_append] at hk
      rcases hk with old | new
      · obtain ⟨e, he, rfl⟩ := List.mem_map.mp old
        obtain ⟨inHeld, kept⟩ := List.mem_filter.mp he
        exact ((clear e.1 (List.mem_map_of_mem inHeld)).resolve_left (by simpa using kept)).2
      · exact first k new
    have here : lookup (attach held l) k = ((l.tells k).or ((lookup held k).map some)).join := by
      rw [attach, lookup_append, lookup_filter fun key => key ∉ l.removes]
      by_cases inLayer : k ∈ l.keys
      · obtain ⟨v, found, tells⟩ := Layer.tells_of_keys inLayer
        rw [tells, found]
        by_cases removed : k ∈ l.removes
        · simp [removed]
        · -- An older layer that still held the key would have to be cleared first.
          have absent : lookup held k = none := by
            refine lookup_eq_none.mpr fun old => ?_
            exact ((clear k old).resolve_left removed).1 inLayer
          simp [absent]
      · rw [Layer.tells_of_not_keys inLayer, lookup_eq_none.mpr inLayer]
        by_cases removed : k ∈ l.removes
        · simp [removed]
        · cases h : lookup held k <;> simp [removed]
    rw [List.foldl_cons, ih (attach held l) exclusive' clear', tells, here, Option.or_assoc]
    cases tells rest k with
    | some told => rfl
    | none =>
      rw [Option.none_or, Option.none_or]
      generalize (l.tells k).or ((lookup held k).map some) = told
      rcases told with - | - | v <;> rfl

theorem lookup_load (exclusive : Exclusive layers) (k : κ) :
    lookup (load layers) k = read layers k := by
  have loaded := lookup_foldl_attach layers [] exclusive (by simp) k
  rw [load, loaded, read]
  simp [lookup]

end Layered

/-!
## Writing and merging layers

A batch of changes becomes one or several new layers, and a run of neighbouring
layers may be merged into fewer. Both are judged by what they spread over their
layers: which entries, and which removed keys.
-/
namespace Layered

open Assoc

variable {κ ν : Type} {entries : List (κ × ν)} {k : κ} {v : ν} {removes : List κ}
  {layers pre window merged post : List (Layer κ ν)}

/-- The layers hold just these entries, each key once; the first one removes
these keys, and apart from that each removes at most what it holds. -/
structure Spreads (layers : List (Layer κ ν)) (entries : List (κ × ν)) (removes : List κ) : Prop where
  holds : layers.flatMap Layer.entries = entries
  nodup : (entries.map Prod.fst).Nodup
  first : ∀ k ∈ removes, ∃ l rest, layers = l :: rest ∧ k ∈ l.removes
  own : ∀ l ∈ layers, ∀ k ∈ l.removes, k ∈ removes ∨ k ∈ l.keys
  later : ∀ l ∈ layers.tail, ∀ k ∈ l.removes, k ∈ l.keys

theorem flatMap_keys (layers : List (Layer κ ν)) :
    (layers.flatMap Layer.entries).map Prod.fst = layers.flatMap Layer.keys := by
  rw [List.map_flatMap]
  rfl

theorem Spreads.held (h : Spreads layers entries removes) :
    (∃ l ∈ layers, k ∈ l.keys) ↔ k ∈ entries.map Prod.fst := by
  rw [← h.holds, flatMap_keys, List.mem_flatMap]

theorem Spreads.removed (h : Spreads layers entries removes) (removed : Removed layers k) :
    k ∈ removes ∨ k ∈ entries.map Prod.fst := by
  obtain ⟨l, hl, gone⟩ := removed
  rcases h.own l hl k gone with listed | own
  · exact Or.inl listed
  · exact Or.inr (h.held.mp ⟨l, hl, own⟩)

theorem Spreads.removed_of_mem (h : Spreads layers entries removes) (listed : k ∈ removes) :
    Removed layers k := by
  obtain ⟨l, rest, rfl, gone⟩ := h.first k listed
  exact ⟨l, by simp, gone⟩

theorem Spreads.single (h : Spreads layers entries removes) : ∀ l ∈ layers, l.keys.Nodup := by
  have nodup := h.nodup
  rw [← h.holds, flatMap_keys] at nodup
  exact fun l hl => (List.nodup_flatMap.mp nodup).1 l hl

private theorem exclusive_of_nodup (nodup : (layers.flatMap Layer.keys).Nodup) : Exclusive layers := by
  induction layers with
  | nil => trivial
  | cons l rest ih =>
    rw [List.flatMap_cons, List.nodup_append] at nodup
    obtain ⟨-, later, apart⟩ := nodup
    refine ⟨fun k hk => .of_not_held fun m hm held => ?_, ih later⟩
    exact apart k hk k (List.mem_flatMap.mpr ⟨m, hm, held⟩) rfl

theorem Spreads.exclusive (h : Spreads layers entries removes) : Exclusive layers := by
  refine exclusive_of_nodup ?_
  rw [← flatMap_keys, h.holds]
  exact h.nodup

private theorem cleared_of_nodup (nodup : (layers.flatMap Layer.keys).Nodup) {l : Layer κ ν}
    (member : l ∈ layers) (held : k ∈ l.keys) (gone : k ∈ l.removes) : Cleared layers k := by
  induction layers with
  | nil => cases member
  | cons first rest ih =>
    rw [List.flatMap_cons, List.nodup_append] at nodup
    obtain ⟨-, later, apart⟩ := nodup
    rcases List.mem_cons.mp member with rfl | inRest
    · exact Or.inl gone
    · refine Or.inr ⟨fun here => ?_, ih later inRest⟩
      exact apart k here k (List.mem_flatMap.mpr ⟨l, inRest, held⟩) rfl

theorem Spreads.cleared (h : Spreads layers entries removes) (removed : Removed layers k) :
    Cleared layers k := by
  obtain ⟨l, hl, gone⟩ := removed
  rcases h.own l hl k gone with listed | own
  · obtain ⟨first, rest, rfl, gone'⟩ := h.first k listed
    exact Or.inl gone'
  · refine cleared_of_nodup ?_ hl own gone
    rw [← flatMap_keys, h.holds]
    exact h.nodup

variable [DecidableEq κ]

private theorem tells_own (nodup : (layers.flatMap Layer.keys).Nodup)
    (own : ∀ l ∈ layers, ∀ k ∈ l.removes, k ∈ l.keys) (k : κ) :
    tells layers k = (lookup (layers.flatMap Layer.entries) k).map some := by
  induction layers with
  | nil => rfl
  | cons l rest ih =>
    rw [List.flatMap_cons, List.nodup_append] at nodup
    obtain ⟨-, later, apart⟩ := nodup
    rw [tells, ih later fun m hm => own m (List.mem_cons_of_mem _ hm), List.flatMap_cons,
      lookup_append]
    by_cases held : k ∈ l.keys
    · have absent : lookup (rest.flatMap Layer.entries) k = none := by
        rw [lookup_eq_none, flatMap_keys]
        exact fun other => apart k held k other rfl
      obtain ⟨v, found, told⟩ := Layer.tells_of_keys held
      simp [absent, found, told]
    · have kept : k ∉ l.removes := fun gone => held (own l (by simp) k gone)
      rw [Layer.tells_of_not_keys held, if_neg kept, lookup_eq_none.mpr held]
      simp

theorem tells_spread (h : Spreads layers entries removes) (k : κ) :
    tells layers k = (Layer.mk entries removes).tells k := by
  have nodup := h.nodup
  rw [← h.holds, flatMap_keys] at nodup
  rw [Layer.tells, ← h.holds]
  cases layers with
  | nil =>
    have none : k ∉ removes := fun listed => by
      obtain ⟨l, rest, missing, -⟩ := h.first k listed
      cases missing
    simp [tells, lookup, none]
  | cons l rest =>
    rw [List.flatMap_cons, List.nodup_append] at nodup
    obtain ⟨-, later, apart⟩ := nodup
    rw [tells, tells_own later h.later, List.flatMap_cons, lookup_append]
    by_cases held : k ∈ l.keys
    · have absent : lookup (rest.flatMap Layer.entries) k = none := by
        rw [lookup_eq_none, flatMap_keys]
        exact fun other => apart k held k other rfl
      obtain ⟨v, found, told⟩ := Layer.tells_of_keys held
      simp [absent, found, told]
    · have same : k ∈ l.removes ↔ k ∈ removes := by
        constructor
        · exact fun gone => (h.own l (by simp) k gone).resolve_right held
        · intro listed
          obtain ⟨m, more, split, gone⟩ := h.first k listed
          cases split
          exact gone
      rw [Layer.tells_of_not_keys held, lookup_eq_none.mpr held, Option.none_or]
      simp only [same]

theorem read_append_spread (h : Spreads merged entries removes) (k : κ) :
    read (layers ++ merged) k
      = (((Layer.mk entries removes).tells k).or (tells layers k)).join := by
  rw [read, tells_append, tells_spread h]

theorem exclusive_append_spread (exclusive : Exclusive layers) (h : Spreads merged entries removes)
    (clears : ∀ l ∈ layers, ∀ k ∈ l.keys, k ∈ entries.map Prod.fst → Removed merged k) :
    Exclusive (layers ++ merged) := by
  refine exclusive_append.mpr ⟨exclusive, h.exclusive, fun k lives => ?_⟩
  obtain ⟨l, hl, held⟩ := lives_held lives
  by_cases inNew : k ∈ entries.map Prod.fst
  · exact h.cleared (clears l hl k held inNew)
  · exact .of_not_held fun m hm other => inNew (h.held.mp ⟨m, hm, other⟩)

/-- The entries of a window that no newer layer of the window removes. -/
def survivors : List (Layer κ ν) → List (κ × ν)
  | [] => []
  | l :: newer => l.entries.filter (fun e => ¬ Removed newer e.1) ++ survivors newer

@[simp] theorem survivors_nil : survivors ([] : List (Layer κ ν)) = [] := rfl

theorem survivors_cons (l : Layer κ ν) (newer : List (Layer κ ν)) :
    survivors (l :: newer) = l.entries.filter (fun e => ¬ Removed newer e.1) ++ survivors newer := rfl

theorem mem_survivors (h : k ∈ (survivors window).map Prod.fst) : Lives window k := by
  induction window with
  | nil => cases h
  | cons l rest ih =>
    rw [survivors_cons, List.map_append, List.mem_append] at h
    rcases h with here | later
    · obtain ⟨e, he, rfl⟩ := List.mem_map.mp here
      obtain ⟨member, kept⟩ := List.mem_filter.mp he
      exact Or.inl ⟨List.mem_map_of_mem member, by simpa using kept⟩
    · exact Or.inr (ih later)

theorem survivors_of_lives (h : Lives window k) : k ∈ (survivors window).map Prod.fst := by
  induction window with
  | nil => exact h.elim
  | cons l rest ih =>
    rw [survivors_cons, List.map_append, List.mem_append]
    rcases h with ⟨held, kept⟩ | later
    · obtain ⟨e, member, rfl⟩ := List.mem_map.mp held
      exact Or.inl (List.mem_map_of_mem (List.mem_filter.mpr ⟨member, by simpa using kept⟩))
    · exact Or.inr (ih later)

theorem load_eq_survivors (layers : List (Layer κ ν)) : load layers = survivors layers := by
  have onto : ∀ held : List (κ × ν), layers.foldl attach held
      = held.filter (fun e => ¬ Removed layers e.1) ++ survivors layers := by
    induction layers with
    | nil => simp [Removed]
    | cons l rest ih =>
      intro held
      rw [List.foldl_cons, ih, attach, List.filter_append, List.filter_filter, survivors_cons,
        ← List.append_assoc]
      congr 2
      apply List.filter_congr
      intro e _
      simp [removed_cons, and_comm]
  rw [load, onto, List.filter_nil, List.nil_append]

theorem lookup_survivors (exclusive : Exclusive window) (k : κ) :
    lookup (survivors window) k = (tells window k).join := by
  induction window with
  | nil => rfl
  | cons l rest ih =>
    obtain ⟨first, exclusive'⟩ := exclusive
    rw [survivors_cons, lookup_append, lookup_filter fun key => ¬ Removed rest key, ih exclusive', tells]
    by_cases removed : Removed rest k
    · obtain ⟨told, known⟩ := Option.isSome_iff_exists.mp (tells_of_removed removed)
      simp [removed, known]
    · by_cases held : k ∈ l.keys
      · have silent := tells_eq_none ((first k held).not_held removed) removed
        obtain ⟨v, found, told⟩ := Layer.tells_of_keys held
        simp [removed, silent, found, told]
      · rw [Layer.tells_of_not_keys held, lookup_eq_none.mpr held]
        cases tells rest k with
        | some told => simp
        | none =>
          by_cases gone : k ∈ l.removes <;> simp [gone]

theorem nodup_survivors (exclusive : Exclusive window)
    (single : ∀ l ∈ window, l.keys.Nodup) : ((survivors window).map Prod.fst).Nodup := by
  induction window with
  | nil => exact List.nodup_nil
  | cons l rest ih =>
    obtain ⟨first, exclusive'⟩ := exclusive
    rw [survivors_cons, List.map_append, List.nodup_append]
    have here : ((l.entries.filter fun e => ¬ Removed rest e.1).map Prod.fst).Sublist l.keys :=
      List.filter_sublist.map _
    refine ⟨(single l (by simp)).sublist here,
      ih exclusive' fun m hm => single m (List.mem_cons_of_mem _ hm), ?_⟩
    rintro k hk k' hk' rfl
    obtain ⟨e, he, rfl⟩ := List.mem_map.mp hk
    obtain ⟨member, kept⟩ := List.mem_filter.mp he
    have kept : ¬ Removed rest e.1 := by simpa using kept
    obtain ⟨m, hm, held⟩ := lives_held (mem_survivors hk')
    exact (first e.1 (List.mem_map_of_mem member)).not_held kept m hm held

/-- A window is merged: the survivors are spread over new layers, which remove
what the window removed, unless nothing lies below. -/
structure Merges (pre window merged : List (Layer κ ν)) (removes : List κ) : Prop where
  spreads : Spreads merged (survivors window) removes
  fresh : ∀ k ∈ removes, Removed window k
  keeps : pre ≠ [] → ∀ k, Removed window k → Removed merged k

theorem tells_merge (h : Merges pre window merged removes) (exclusive : Exclusive window) (k : κ) :
    ((tells merged k).or (tells pre k)).join = ((tells window k).or (tells pre k)).join := by
  have held := lookup_survivors exclusive k
  rw [tells_spread h.spreads, Layer.tells, held]
  cases told : tells window k with
  | none =>
    have kept : k ∉ removes := fun listed => (not_held_of_tells told).1 (h.fresh k listed)
    simp [kept]
  | some answer =>
    cases answer with
    | some v => simp
    | none =>
      by_cases below : pre = []
      · subst below
        by_cases listed : k ∈ removes <;> simp [tells, listed]
      · -- The window took the key away from older layers, and so must what replaces it.
        obtain ⟨l, hl, gone, -⟩ := removes_of_gone told
        have listed : k ∈ removes := by
          refine (h.spreads.removed (h.keeps below k ⟨l, hl, gone⟩)).resolve_right fun survives => ?_
          have found := lookup_isSome.mpr survives
          rw [held, told] at found
          cases found
        simp [listed]

theorem read_merge (h : Merges pre window merged removes) (exclusive : Exclusive window) (k : κ) :
    read (pre ++ merged ++ post) k = read (pre ++ window ++ post) k := by
  rw [read, read, tells_append, tells_append, tells_append (pre ++ window), tells_append pre]
  cases tells post k with
  | some told => rfl
  | none => exact tells_merge h exclusive k

theorem Merges.lives_of_merged (h : Merges pre window merged removes) (lives : Lives merged k) :
    Lives window k :=
  mem_survivors (h.spreads.held.mp (lives_held lives))

omit [DecidableEq κ] in
theorem nonempty_of_lives (lives : Lives layers k) : layers ≠ [] := by
  rintro rfl
  exact lives

theorem Merges.lives (h : Merges pre window merged removes) (lives : Lives (pre ++ merged) k) :
    Lives (pre ++ window) k := by
  rw [lives_append] at lives ⊢
  rcases lives with inMerged | ⟨inPre, kept⟩
  · exact Or.inl (h.lives_of_merged inMerged)
  · exact Or.inr ⟨inPre, fun removed => kept (h.keeps (nonempty_of_lives inPre) k removed)⟩

theorem exclusive_merge (h : Merges pre window merged removes)
    (exclusive : Exclusive (pre ++ window ++ post)) : Exclusive (pre ++ merged ++ post) := by
  obtain ⟨both, exclusivePost, cross⟩ := exclusive_append.mp exclusive
  obtain ⟨exclusivePre, -, crossPre⟩ := exclusive_append.mp both
  refine exclusive_append.mpr ⟨exclusive_append.mpr ⟨exclusivePre, h.spreads.exclusive, ?_⟩,
    exclusivePost, fun k lives => cross k (h.lives lives)⟩
  intro k lives
  by_cases removed : Removed window k
  · exact h.spreads.cleared (h.keeps (nonempty_of_lives lives) k removed)
  · refine .of_not_held fun l hl held => ?_
    obtain ⟨m, hm, held'⟩ := lives_held (mem_survivors (h.spreads.held.mp ⟨l, hl, held⟩))
    exact (crossPre k lives).not_held removed m hm held'

end Layered
