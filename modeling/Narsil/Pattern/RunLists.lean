import Mathlib.Data.List.Dedup
import Narsil.Pattern.RunArrays

/-!
# Lists of the ordinals that hold a run

A list keeps the ordinals removed from it for some time, and is put in order when it is
read. The lists of an index are kept by their run.
-/
namespace Narsil.Pattern

structure RunList where
  ids : List Nat
  removed : Option (List Nat)
  ordered : Bool
  deriving DecidableEq, Repr

def createRunList : RunList := ⟨[], none, true⟩

namespace RunList

def compactRemoved (list : RunList) : RunList :=
  match list.removed with
  | none => list
  | some removed => { list with ids := list.ids.filter fun ordinal => ordinal ∉ removed, removed := none }

def sorted (list : RunList) : RunList :=
  if list.ordered then list else { list with ids := Ascending.sort list.ids, ordered := true }

def compactAndSort (list : RunList) : RunList := list.compactRemoved.sorted

def push (list : RunList) (ordinal : Nat) : RunList :=
  { list with
    ids := list.ids ++ [ordinal]
    ordered :=
      match list.ids.getLast? with
      | some last => if last > ordinal then false else list.ordered
      | none => list.ordered }

def append (list : RunList) (ordinal : Nat) : RunList :=
  match list.removed with
  | some removed =>
    if ordinal ∈ removed then { list with removed := some (removed.filter fun id => id ≠ ordinal) }
    else list.push ordinal
  | none => list.push ordinal

/-- The list with an ordinal noted as removed, and compacted once half of it is removed. -/
def withRemoved (list : RunList) (ordinal : Nat) : RunList :=
  let removed := (list.removed.getD []).insert ordinal
  let marked := { list with removed := some removed }
  if 2 * removed.length < list.ids.length then marked else marked.compactRemoved

end RunList

/-- The lists of an index. -/
abbrev RunLists : Type := List (Run × RunList)

namespace RunLists

def listFor (runs : RunLists) (run : Run) : RunList := (Assoc.lookup runs run).getD createRunList

def dropIfEmpty (runs : RunLists) (run : Run) (list : RunList) : RunLists :=
  if list.ids.length > 0 then runs else Assoc.erase runs run

def append (ordinal : Nat) (runs : RunLists) (run : Run) : RunLists :=
  Assoc.set runs run ((runs.listFor run).append ordinal)

def markRemoved (ordinal : Nat) (runs : RunLists) (run : Run) : RunLists :=
  match Assoc.lookup runs run with
  | none => runs
  | some list =>
    dropIfEmpty (Assoc.set runs run (list.withRemoved ordinal)) run (list.withRemoved ordinal)

/-- A run's postings, with the lists as reading them leaves them. -/
def settledPostings (runs : RunLists) (run : Run) : RunLists × List Nat :=
  match Assoc.lookup runs run with
  | none => (runs, [])
  | some list =>
    (dropIfEmpty (Assoc.set runs run list.compactAndSort) run list.compactAndSort,
      list.compactAndSort.ids)

end RunLists

namespace RunList
variable {list : RunList} {holds : Nat → Prop} {ordinal : Nat}

/-- The ordinals noted as removed. -/
def gone (list : RunList) : List Nat := list.removed.getD []

/-- The list is of the ordinals that hold. -/
structure Lists (list : RunList) (holds : Nat → Prop) : Prop where
  distinct : list.ids.Nodup
  known : ∀ id ∈ list.gone, id ∈ list.ids
  ascending : list.ordered = true → list.ids.Pairwise (· ≤ ·)
  exact : ∀ id, (id ∈ list.ids ∧ id ∉ list.gone) ↔ holds id

theorem Lists.congr {holds' : Nat → Prop} (h : list.Lists holds) (same : ∀ id, holds id ↔ holds' id) :
    list.Lists holds' where
  distinct := h.distinct
  known := h.known
  ascending := h.ascending
  exact id := (h.exact id).trans (same id)

theorem createRunList_lists : createRunList.Lists fun _ => False where
  distinct := List.nodup_nil
  known _ member := absurd member List.not_mem_nil
  ascending _ := List.Pairwise.nil
  exact id := by simp [createRunList]

theorem push_lists (h : list.Lists holds) (absent : ordinal ∉ list.ids) :
    (list.push ordinal).Lists fun id => holds id ∨ id = ordinal where
  distinct := List.nodup_append.mpr ⟨h.distinct, List.nodup_singleton _, by
    rintro id member other is_other rfl
    exact absent (List.mem_singleton.mp is_other ▸ member)⟩
  known id member := List.mem_append_left _ (h.known id member)
  ascending still := by
    rw [push] at still ⊢
    dsimp only at still ⊢
    rw [List.pairwise_append]
    cases last_is : list.ids.getLast? with
    | none =>
      rw [List.getLast?_eq_none_iff.mp last_is]
      exact ⟨List.Pairwise.nil, List.pairwise_singleton _ _, by simp⟩
    | some last =>
      rw [last_is] at still
      dsimp only at still
      split at still
      · exact absurd still (by simp)
      · next below =>
        have sorted := h.ascending still
        refine ⟨sorted, List.pairwise_singleton _ _, ?_⟩
        intro id member other is_other
        rw [List.mem_singleton.mp is_other]
        -- the last id is the largest
        obtain ⟨front, split_list⟩ := List.getLast?_eq_some_iff.mp last_is
        rw [split_list] at sorted member
        have at_most : id ≤ last := by
          rcases List.mem_append.mp member with early | late
          · exact (List.pairwise_append.mp sorted).2.2 id early last (by simp)
          · exact Nat.le_of_eq (List.mem_singleton.mp late)
        omega
  exact id := by
    have unknown : ordinal ∉ list.gone := fun member => absent (h.known ordinal member)
    rw [← h.exact id]
    show (id ∈ list.ids ++ [ordinal] ∧ id ∉ list.gone) ↔ _
    rw [List.mem_append, List.mem_singleton]
    constructor
    · rintro ⟨member | same, kept⟩
      · exact Or.inl ⟨member, kept⟩
      · exact Or.inr same
    · rintro (⟨member, kept⟩ | same)
      · exact ⟨Or.inl member, kept⟩
      · exact ⟨Or.inr same, same ▸ unknown⟩

theorem append_lists (h : list.Lists holds) (fresh : ¬ holds ordinal) :
    (list.append ordinal).Lists fun id => holds id ∨ id = ordinal := by
  have unlisted : ordinal ∉ list.gone → ordinal ∉ list.ids := fun kept member =>
    fresh ((h.exact ordinal).mp ⟨member, kept⟩)
  cases removed_is : list.removed with
  | none =>
    have kept : ordinal ∉ list.gone := by simp [gone, removed_is]
    rw [append, removed_is]
    exact push_lists h (unlisted kept)
  | some removed =>
    have gone_is : list.gone = removed := by simp [gone, removed_is]
    rw [append, removed_is]
    dsimp only
    split
    · next listed =>
      -- it is in the list still
      constructor
      · exact h.distinct
      · intro id member
        have still : id ∈ removed := (List.mem_filter.mp member).1
        exact h.known id (gone_is ▸ still)
      · exact h.ascending
      · intro id
        rw [← h.exact id, gone_is]
        show (id ∈ list.ids ∧ id ∉ removed.filter fun other => other ≠ ordinal) ↔ _
        have there : ordinal ∈ list.ids := h.known ordinal (gone_is ▸ listed)
        simp only [List.mem_filter, decide_eq_true_eq, not_and, not_not]
        constructor
        · rintro ⟨member, only⟩
          by_cases taken : id ∈ removed
          · exact Or.inr (only taken)
          · exact Or.inl ⟨member, taken⟩
        · rintro (⟨member, kept⟩ | rfl)
          · exact ⟨member, fun taken => absurd taken kept⟩
          · exact ⟨there, fun _ => rfl⟩
    · next kept => exact push_lists h (unlisted (gone_is ▸ kept))

theorem compactRemoved_lists (h : list.Lists holds) : list.compactRemoved.Lists holds := by
  cases removed_is : list.removed with
  | none =>
    rw [compactRemoved, removed_is]
    exact h
  | some removed =>
    have gone_is : list.gone = removed := by simp [gone, removed_is]
    rw [compactRemoved, removed_is]
    constructor
    · exact h.distinct.filter _
    · exact fun id member => absurd member List.not_mem_nil
    · exact fun ordered => (h.ascending ordered).filter _
    · intro id
      rw [← h.exact id, gone_is]
      simp [gone]

theorem compactRemoved_removed (list : RunList) : list.compactRemoved.removed = none := by
  rw [compactRemoved]
  split
  · next nothing => exact nothing
  · rfl

theorem sorted_lists (h : list.Lists holds) : list.sorted.Lists holds := by
  rw [sorted]
  split
  · exact h
  · constructor
    · exact (Ascending.sort_perm _).nodup_iff.mpr h.distinct
    · exact fun id member => Ascending.mem_sort.mpr (h.known id member)
    · exact fun _ => Ascending.sort_sorted _
    · intro id
      rw [Ascending.mem_sort]
      exact h.exact id

theorem compactAndSort_lists (h : list.Lists holds) : list.compactAndSort.Lists holds :=
  sorted_lists (compactRemoved_lists h)

theorem compactAndSort_ids (h : list.Lists holds) :
    Ascending.Strict list.compactAndSort.ids ∧ ∀ id, id ∈ list.compactAndSort.ids ↔ holds id := by
  have settled := compactAndSort_lists h
  have nothing_gone : list.compactAndSort.gone = [] := by
    rw [gone, compactAndSort, sorted]
    split <;> simp [compactRemoved_removed]
  have in_order : list.compactAndSort.ordered = true := by
    rw [compactAndSort, sorted]
    split
    · next ordered => exact ordered
    · rfl
  constructor
  · have apart : list.compactAndSort.ids.Pairwise fun a b => a ≤ b ∧ a ≠ b :=
      (settled.ascending in_order).and settled.distinct
    exact apart.imp fun both => Nat.lt_of_le_of_ne both.1 both.2
  · intro id
    rw [← settled.exact id, nothing_gone]
    simp

theorem withRemoved_lists (h : list.Lists holds) (held : holds ordinal) :
    (list.withRemoved ordinal).Lists fun id => holds id ∧ id ≠ ordinal := by
  have marked : ({ list with removed := some (list.gone.insert ordinal) } : RunList).Lists
      fun id => holds id ∧ id ≠ ordinal := by
    constructor
    · exact h.distinct
    · intro id member
      rcases List.mem_insert_iff.mp member with rfl | before
      · exact ((h.exact id).mpr held).1
      · exact h.known id before
    · exact h.ascending
    · intro id
      rw [← h.exact id]
      show (id ∈ list.ids ∧ id ∉ list.gone.insert ordinal) ↔ _
      rw [List.mem_insert_iff]
      tauto
  rw [withRemoved]
  split
  · exact marked
  · exact compactRemoved_lists marked

end RunList

namespace RunLists
variable {runs : RunLists} {holds : Run → Nat → Prop} {run : Run} {ordinal : Nat}

/-- Each list is of the ordinals that hold its run. -/
structure Hold (runs : RunLists) (holds : Run → Nat → Prop) : Prop where
  distinct : (runs.map Prod.fst).Nodup
  lists : ∀ run, (runs.listFor run).Lists (holds run)

theorem Hold.congr {holds' : Run → Nat → Prop} (h : runs.Hold holds)
    (same : ∀ run id, holds run id ↔ holds' run id) : runs.Hold holds' where
  distinct := h.distinct
  lists run := (h.lists run).congr (same run)

theorem nil_hold : Hold [] fun _ _ => False where
  distinct := List.nodup_nil
  lists _ := RunList.createRunList_lists

theorem set_hold {list : RunList} {held : Nat → Prop} (h : runs.Hold holds) (lists : list.Lists held) :
    Hold (Assoc.set runs run list) fun other id => if other = run then held id else holds other id where
  distinct := Assoc.set_distinct h.distinct run list
  lists other := by
    rw [listFor, Assoc.lookup_set]
    by_cases same : other = run
    · rw [if_pos same]
      exact lists.congr fun id => by rw [if_pos same]
    · rw [if_neg same]
      exact (h.lists other).congr fun id => by rw [if_neg same]

theorem dropIfEmpty_hold (h : runs.Hold holds) (run : Run) :
    (runs.dropIfEmpty run (runs.listFor run)).Hold holds := by
  rw [dropIfEmpty]
  split
  · exact h
  · next none_left =>
    have empty : (runs.listFor run).ids = [] := List.length_eq_zero_iff.mp (by omega)
    constructor
    · exact h.distinct.sublist (List.filter_sublist.map Prod.fst)
    · intro other
      rw [listFor, Assoc.lookup_erase]
      split
      · next same =>
        apply RunList.createRunList_lists.congr
        intro id
        rw [same, ← (h.lists run).exact id, empty]
        simp
      · exact h.lists other

theorem listFor_set (runs : RunLists) (run : Run) (list : RunList) :
    listFor (Assoc.set runs run list) run = list := by
  rw [listFor, Assoc.lookup_set, if_pos rfl, Option.getD_some]

theorem dropIfEmpty_set_hold {list : RunList} {held : Nat → Prop} (h : runs.Hold holds)
    (lists : list.Lists held) :
    (dropIfEmpty (Assoc.set runs run list) run list).Hold
      fun other id => if other = run then held id else holds other id := by
  have written : Hold (Assoc.set runs run list) fun other id =>
      if other = run then held id else holds other id := set_hold h lists
  have dropped := dropIfEmpty_hold written run
  rwa [listFor_set] at dropped

theorem append_hold (h : runs.Hold holds) (fresh : ¬ holds run ordinal) :
    (runs.append ordinal run).Hold fun other id => holds other id ∨ (id = ordinal ∧ other = run) := by
  apply (set_hold h (RunList.append_lists (h.lists run) fresh)).congr
  intro other id
  split
  · next same => simp [same]
  · next different => simp [different]

theorem markRemoved_hold (h : runs.Hold holds) (held : holds run ordinal) :
    (runs.markRemoved ordinal run).Hold fun other id => holds other id ∧ ¬ (id = ordinal ∧ other = run) := by
  have lists := h.lists run
  rw [markRemoved]
  cases found : Assoc.lookup runs run with
  | none =>
    rw [listFor, found] at lists
    have nothing := (lists.exact ordinal).mpr held
    exact absurd nothing.1 List.not_mem_nil
  | some list =>
    rw [listFor, found] at lists
    apply (dropIfEmpty_set_hold h (RunList.withRemoved_lists lists held)).congr
    intro other id
    split
    · next same => simp [same]
    · next different => simp [different]

theorem settledPostings_hold (h : runs.Hold holds) (run : Run) :
    (runs.settledPostings run).1.Hold holds := by
  rw [settledPostings]
  have lists := h.lists run
  cases found : Assoc.lookup runs run with
  | none => exact h
  | some list =>
    rw [listFor, found] at lists
    apply (dropIfEmpty_set_hold h (RunList.compactAndSort_lists lists)).congr
    intro other id
    split
    · next same => rw [same]
    · rfl

theorem settledPostings_spec (h : runs.Hold holds) (run : Run) :
    Ascending.Strict (runs.settledPostings run).2 ∧
      ∀ id, id ∈ (runs.settledPostings run).2 ↔ holds run id := by
  rw [settledPostings]
  have lists := h.lists run
  cases found : Assoc.lookup runs run with
  | none =>
    rw [listFor, found] at lists
    refine ⟨List.Pairwise.nil, ?_⟩
    intro id
    rw [← lists.exact id]
    simp [createRunList]
  | some list =>
    rw [listFor, found] at lists
    exact RunList.compactAndSort_ids lists

theorem appendAll_hold {keys : List Run} (h : runs.Hold holds) (distinct : keys.Nodup)
    (fresh : ∀ run ∈ keys, ¬ holds run ordinal) :
    (keys.foldl (append ordinal) runs).Hold fun run id => holds run id ∨ (id = ordinal ∧ run ∈ keys) := by
  induction keys generalizing runs holds with
  | nil => exact h.congr (by simp)
  | cons key rest ih =>
    rw [List.nodup_cons] at distinct
    have first := append_hold h (fresh key (by simp))
    have later : ∀ run ∈ rest, ¬ (holds run ordinal ∨ (ordinal = ordinal ∧ run = key)) := by
      rintro run member (before | ⟨_, rfl⟩)
      · exact fresh run (by simp [member]) before
      · exact distinct.1 member
    apply (ih first distinct.2 later).congr
    intro run id
    rw [List.mem_cons]
    tauto

theorem markAll_hold {keys : List Run} (h : runs.Hold holds) (distinct : keys.Nodup)
    (held : ∀ run ∈ keys, holds run ordinal) :
    (keys.foldl (markRemoved ordinal) runs).Hold
      fun run id => holds run id ∧ ¬ (id = ordinal ∧ run ∈ keys) := by
  induction keys generalizing runs holds with
  | nil => exact h.congr (by simp)
  | cons key rest ih =>
    rw [List.nodup_cons] at distinct
    have first := markRemoved_hold h (held key (by simp))
    have later : ∀ run ∈ rest, holds run ordinal ∧ ¬ (ordinal = ordinal ∧ run = key) := by
      intro run member
      refine ⟨held run (by simp [member]), ?_⟩
      rintro ⟨_, rfl⟩
      exact distinct.1 member
    apply (ih first distinct.2 later).congr
    intro run id
    rw [List.mem_cons]
    tauto

end RunLists

end Narsil.Pattern
