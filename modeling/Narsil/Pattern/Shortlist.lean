import Narsil.Pattern.BuiltIndexes
import Narsil.Pattern.RequiredRuns

/-!
# The documents a query of runs leaves

The postings of the required runs are intersected, the shortest first, and joined over
the branches.
-/
namespace Narsil.Pattern

def SHORTLIST_INTERSECT_RATIO : Nat := 8

/-- The candidates in a list, read along in order. -/
def intersect : List Nat → List Nat → List Nat
  | [], _ => []
  | candidate :: rest, list =>
    match list.dropWhile fun ordinal => ordinal < candidate with
    | [] => []
    | ordinal :: later =>
      if ordinal = candidate then candidate :: intersect rest (ordinal :: later)
      else intersect rest (ordinal :: later)

/-- The loop over the longer lists; one that is much longer ends it. -/
def intersectLists : List Nat → List (List Nat) → List Nat
  | candidates, [] => candidates
  | candidates, list :: rest =>
    if candidates.length > 0 then
      if list.length > candidates.length * SHORTLIST_INTERSECT_RATIO then candidates
      else intersectLists (intersect candidates list) rest
    else candidates

def shortlistAll (index : PatternIndexReader) (runs : List Run) : List Nat :=
  match (runs.map index.postings).insertionSort fun left right => left.length ≤ right.length with
  | [] => []
  | first :: rest => intersectLists first rest

def union (left right : List Nat) : List Nat :=
  match left, right with
  | [], right => right
  | left, [] => left
  | first :: left, second :: right =>
    if first = second then first :: union left right
    else if first < second then first :: union left (second :: right)
    else second :: union (first :: left) right
termination_by left.length + right.length

/-- The candidates; none where every document is to be tested. -/
def shortlist (index : PatternIndexReader) : RunQuery → Option (List Nat)
  | .all runs => if runs.length = 0 then none else some (shortlistAll index runs)
  | .any branches =>
    some (branches.foldl (fun candidates runs => union candidates (shortlistAll index runs)) [])

theorem intersect_subset (candidates list : List Nat) : ∀ ordinal ∈ intersect candidates list,
    ordinal ∈ candidates := by
  induction candidates generalizing list with
  | nil => exact fun ordinal member => member
  | cons candidate rest ih =>
    intro ordinal member
    rw [intersect] at member
    split at member
    · exact absurd member List.not_mem_nil
    · split at member
      · rcases List.mem_cons.mp member with rfl | later
        · exact List.mem_cons_self
        · exact List.mem_cons_of_mem _ (ih _ ordinal later)
      · exact List.mem_cons_of_mem _ (ih _ ordinal member)

theorem mem_dropWhile_less {candidate ordinal : Nat} {list : List Nat} (member : ordinal ∈ list)
    (least : candidate ≤ ordinal) : ordinal ∈ list.dropWhile fun value => value < candidate := by
  induction list with
  | nil => exact member
  | cons value rest ih =>
    rw [List.dropWhile_cons]
    split
    · next less =>
      rw [decide_eq_true_eq] at less
      rcases List.mem_cons.mp member with rfl | later
      · omega
      · exact ih later
    · exact member

theorem mem_intersect {candidates list : List Nat} (strict : Ascending.Strict candidates)
    (list_strict : Ascending.Strict list) {ordinal : Nat} (member : ordinal ∈ candidates)
    (listed : ordinal ∈ list) : ordinal ∈ intersect candidates list := by
  induction candidates generalizing list with
  | nil => exact absurd member List.not_mem_nil
  | cons candidate rest ih =>
    obtain ⟨later, rest_strict⟩ := List.pairwise_cons.mp strict
    have least : candidate ≤ ordinal := by
      rcases List.mem_cons.mp member with rfl | after
      · exact Nat.le_refl _
      · exact Nat.le_of_lt (later ordinal after)
    have still := mem_dropWhile_less listed least
    have still_strict : Ascending.Strict (list.dropWhile fun value => value < candidate) :=
      list_strict.sublist (List.dropWhile_sublist _)
    rw [intersect]
    split
    · next nothing =>
      rw [nothing] at still
      exact absurd still List.not_mem_nil
    · next value left split_list =>
      rw [split_list] at still still_strict
      split
      · next same =>
        rcases List.mem_cons.mp member with rfl | after
        · exact List.mem_cons_self
        · exact List.mem_cons_of_mem _ (ih rest_strict still_strict after still)
      · next different =>
        rcases List.mem_cons.mp member with rfl | after
        · -- the list goes on past the candidate, which it was to have
          have above : ordinal ≤ value := by
            have head := List.head?_dropWhile_not (fun value => decide (value < ordinal)) list
            rw [split_list] at head
            simpa using head
          rcases List.mem_cons.mp still with same | beyond
          · exact absurd same.symm different
          · have past := (List.pairwise_cons.mp still_strict).1 ordinal beyond
            omega
        · exact ih rest_strict still_strict after still

theorem intersect_strict {candidates : List Nat} (strict : Ascending.Strict candidates) (list : List Nat) :
    Ascending.Strict (intersect candidates list) := by
  induction candidates generalizing list with
  | nil => exact List.Pairwise.nil
  | cons candidate rest ih =>
    obtain ⟨later, rest_strict⟩ := List.pairwise_cons.mp strict
    rw [intersect]
    split
    · exact List.Pairwise.nil
    · split
      · refine List.pairwise_cons.mpr ⟨?_, ih rest_strict _⟩
        exact fun ordinal member => later ordinal (intersect_subset rest _ ordinal member)
      · exact ih rest_strict _

theorem intersectLists_spec {candidates : List Nat} {lists : List (List Nat)}
    (strict : Ascending.Strict candidates) (lists_strict : ∀ list ∈ lists, Ascending.Strict list) :
    (∀ ordinal ∈ intersectLists candidates lists, ordinal ∈ candidates) ∧
      ∀ ordinal ∈ candidates, (∀ list ∈ lists, ordinal ∈ list) →
        ordinal ∈ intersectLists candidates lists := by
  induction lists generalizing candidates with
  | nil => exact ⟨fun _ member => member, fun _ member _ => member⟩
  | cons list rest ih =>
    rw [intersectLists]
    split
    · split
      · exact ⟨fun _ member => member, fun _ member _ => member⟩
      · obtain ⟨subset, all⟩ := ih (intersect_strict strict list)
          fun other member => lists_strict other (by simp [member])
        constructor
        · exact fun ordinal member => intersect_subset candidates list ordinal (subset ordinal member)
        · intro ordinal member listed
          apply all ordinal
          · exact mem_intersect strict (lists_strict list (by simp)) member (listed list (by simp))
          · exact fun other later => listed other (by simp [later])
    · exact ⟨fun _ member => member, fun _ member _ => member⟩

theorem mem_union {left right : List Nat} {ordinal : Nat} :
    ordinal ∈ union left right ↔ ordinal ∈ left ∨ ordinal ∈ right := by
  induction left, right using union.induct with
  | case1 right => simp [union]
  | case2 left some_left => simp [union]
  | case3 first left right ih =>
    rw [union, if_pos rfl, List.mem_cons, ih, List.mem_cons, List.mem_cons]
    tauto
  | case4 first left second right different less ih =>
    rw [union, if_neg different, if_pos less, List.mem_cons, ih]
    simp only [List.mem_cons]
    tauto
  | case5 first left second right different not_less ih =>
    rw [union, if_neg different, if_neg not_less, List.mem_cons, ih]
    simp only [List.mem_cons]
    tauto

section Candidates
variable {host : PatternHost} {documents : Documents} {index : PatternIndexReader}

theorem shortlistAll_spec (indexes : Indexes host documents index) {runs : List Run}
    (some_runs : runs ≠ []) :
    (∀ ordinal ∈ shortlistAll index runs, ∃ value, documents ordinal value) ∧
      ∀ ordinal, (∀ run ∈ runs, ordinal ∈ index.postings run) → ordinal ∈ shortlistAll index runs := by
  have perm := List.perm_insertionSort (fun left right : List Nat => left.length ≤ right.length)
    (runs.map index.postings)
  rw [shortlistAll]
  generalize (runs.map index.postings).insertionSort
    (fun left right => left.length ≤ right.length) = sorted at perm
  have each : ∀ list ∈ sorted, ∃ run ∈ runs, index.postings run = list := fun list member =>
    List.mem_map.mp (perm.mem_iff.mp member)
  have strict : ∀ list ∈ sorted, Ascending.Strict list := by
    intro list member
    obtain ⟨run, _, rfl⟩ := each list member
    exact indexes.postings_strict run
  cases sorted with
  | nil =>
    have none_listed := perm.length_eq
    rw [List.length_nil, List.length_map] at none_listed
    exact absurd (List.length_eq_zero_iff.mp none_listed.symm) some_runs
  | cons first rest =>
    obtain ⟨subset, all⟩ := intersectLists_spec (strict first (by simp))
      fun list (member : list ∈ rest) => strict list (by simp [member])
    constructor
    · intro ordinal member
      obtain ⟨run, _, same⟩ := each first (by simp)
      have posted := subset ordinal member
      rw [← same, indexes.postings_exact] at posted
      obtain ⟨value, live, _⟩ := posted
      exact ⟨value, live⟩
    · intro ordinal posted
      have in_all : ∀ list ∈ first :: rest, ordinal ∈ list := by
        intro list member
        obtain ⟨run, listed, rfl⟩ := each list member
        exact posted run listed
      exact all ordinal (in_all first (by simp)) fun list member => in_all list (by simp [member])

theorem foldl_union_spec (indexes : Indexes host documents index) {branches : List (List Run)}
    (some_runs : ∀ runs ∈ branches, runs ≠ []) {candidates : List Nat}
    (live : ∀ ordinal ∈ candidates, ∃ value, documents ordinal value) :
    let all := branches.foldl (fun candidates runs => union candidates (shortlistAll index runs)) candidates
    (∀ ordinal ∈ all, ∃ value, documents ordinal value) ∧ (∀ ordinal ∈ candidates, ordinal ∈ all) ∧
      ∀ runs ∈ branches, ∀ ordinal, (∀ run ∈ runs, ordinal ∈ index.postings run) → ordinal ∈ all := by
  induction branches generalizing candidates with
  | nil => exact ⟨live, fun _ member => member, fun _ member => absurd member List.not_mem_nil⟩
  | cons runs rest ih =>
    obtain ⟨own_live, own⟩ := shortlistAll_spec indexes (some_runs runs (by simp))
    have joined_live : ∀ ordinal ∈ union candidates (shortlistAll index runs),
        ∃ value, documents ordinal value := by
      intro ordinal member
      rcases mem_union.mp member with before | new
      · exact live ordinal before
      · exact own_live ordinal new
    obtain ⟨all_live, kept, found⟩ :=
      ih (fun other member => some_runs other (by simp [member])) joined_live
    refine ⟨all_live, fun ordinal member => kept ordinal (mem_union.mpr (Or.inl member)), ?_⟩
    intro other member ordinal posted
    rcases List.mem_cons.mp member with rfl | later
    · exact kept ordinal (mem_union.mpr (Or.inr (own ordinal posted)))
    · exact found other later ordinal posted

theorem shortlist_spec (indexes : Indexes host documents index) {query : RunQuery}
    (some_runs : ∀ branches, query = .any branches → ∀ runs ∈ branches, runs ≠ [])
    {candidates : List Nat} (shortlisted : shortlist index query = some candidates) :
    (∀ ordinal ∈ candidates, ∃ value, documents ordinal value) ∧
      ∀ ordinal value text, documents ordinal value → text ∈ textsOf value →
        query.Held (foldedValue host true text) → ordinal ∈ candidates := by
  have posted : ∀ {ordinal value text run}, documents ordinal value → text ∈ textsOf value →
      run.codePoints <:+: foldedValue host true text → ordinal ∈ index.postings run := by
    intro ordinal value text run live listed within
    exact (indexes.postings_exact run ordinal).mpr ⟨value, live, text, listed, within⟩
  cases query with
  | all runs =>
    rw [shortlist] at shortlisted
    split at shortlisted
    · exact absurd shortlisted (by simp)
    · next some_length =>
      obtain rfl := Option.some.inj shortlisted
      obtain ⟨live, found⟩ := shortlistAll_spec indexes
        (fun empty => some_length (by rw [empty]; rfl) : runs ≠ [])
      refine ⟨live, ?_⟩
      intro ordinal value text there listed held
      exact found ordinal fun run member => posted there listed (held run member)
  | any branches =>
    obtain rfl := Option.some.inj shortlisted
    have nothing : ∀ ordinal ∈ ([] : List Nat), ∃ value, documents ordinal value :=
      fun _ member => absurd member List.not_mem_nil
    obtain ⟨live, _, found⟩ := foldl_union_spec indexes (some_runs branches rfl) nothing
    refine ⟨live, ?_⟩
    rintro ordinal value text there listed ⟨runs, member, held⟩
    exact found runs member ordinal fun run of_branch => posted there listed (held run of_branch)

end Candidates

end Narsil.Pattern
