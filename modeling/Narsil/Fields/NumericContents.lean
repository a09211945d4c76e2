import Mathlib.Data.List.TakeWhile
import Narsil.Fields.NumericIndex

/-!
# What a numeric index holds

An index holds its entries as often as they were inserted and not removed, whether the
removals have been applied or not.
-/
namespace Narsil.Fields

open Bits Search

variable {V : Type} [LinearOrder V]

/-- How many of the entries at these places are left, where each takes the first limit that is past it. -/
def pendingLeft : List Nat → List Nat → Nat
  | [], _ => 0
  | place :: places, limits =>
    match limits.dropWhile (· ≤ place) with
    | [] => pendingLeft places [] + 1
    | _ :: limits => pendingLeft places limits

/-- The places of an entry, counted on from a number. -/
def placesFrom (entry : NumericIndexEntry V) : Nat → List (NumericIndexEntry V) → List Nat
  | _, [] => []
  | read, first :: rest => if first = entry then read :: placesFrom entry (read + 1) rest else placesFrom entry (read + 1) rest

theorem pendingLeft_nil (places : List Nat) : pendingLeft places [] = places.length := by
  induction places with
  | nil => rfl
  | cons place places ih => exact congrArg (· + 1) ih

theorem pendingLeft_insert (places : List Nat) {limits : List Nat} {place : Nat} (passed : ∀ limit ∈ limits, limit ≤ place) :
    pendingLeft (places ++ [place]) limits = pendingLeft places limits + 1 := by
  induction places generalizing limits with
  | nil =>
    have none : limits.dropWhile (· ≤ place) = [] := List.dropWhile_eq_nil_iff.mpr fun limit member => by
      simpa using passed limit member
    show (match limits.dropWhile (· ≤ place) with
      | [] => pendingLeft [] [] + 1
      | _ :: limits => pendingLeft [] limits) = 1
    rw [none]
    rfl
  | cons first places ih =>
    rw [List.cons_append, pendingLeft, pendingLeft]
    cases dropped : limits.dropWhile (· ≤ first) with
    | nil => exact congrArg (· + 1) (ih nofun)
    | cons limit rest =>
      have sub : (limit :: rest).Sublist limits := dropped ▸ List.dropWhile_sublist _
      exact ih fun other member => passed other (sub.subset (List.mem_cons_of_mem _ member))

theorem pendingLeft_remove {places : List Nat} (limits : List Nat) {limit : Nat} (before : ∀ place ∈ places, place < limit) :
    pendingLeft places (limits ++ [limit]) = pendingLeft places limits - 1 := by
  induction places generalizing limits with
  | nil => rfl
  | cons place places ih =>
    obtain ⟨first, before⟩ := List.forall_mem_cons.mp before
    rw [pendingLeft, pendingLeft, List.dropWhile_append]
    cases dropped : limits.dropWhile (· ≤ place) with
    | nil =>
      have kept : ([limit] : List Nat).dropWhile (· ≤ place) = [limit] := by
        rw [List.dropWhile_cons_of_neg (by simpa using first)]
      simp [kept]
    | cons other rest =>
      simp only [List.isEmpty_cons, Bool.false_eq_true, if_false, List.cons_append]
      exact ih rest before

theorem placesFrom_concat (entry last : NumericIndexEntry V) (read : Nat) (pending : List (NumericIndexEntry V)) :
    placesFrom entry read (pending ++ [last]) =
      placesFrom entry read pending ++ if last = entry then [read + pending.length] else [] := by
  induction pending generalizing read with
  | nil => rw [List.nil_append, placesFrom, placesFrom, placesFrom]; rfl
  | cons first rest ih =>
    rw [List.cons_append, placesFrom, placesFrom, ih, List.length_cons, Nat.add_assoc, Nat.add_comm 1]
    split
    · rfl
    · rfl

theorem placesFrom_lt {entry : NumericIndexEntry V} {read place : Nat} {pending : List (NumericIndexEntry V)}
    (member : place ∈ placesFrom entry read pending) : place < read + pending.length := by
  induction pending generalizing read with
  | nil => exact absurd member List.not_mem_nil
  | cons first rest ih =>
    rw [placesFrom] at member
    rw [List.length_cons]
    split at member
    · rcases List.mem_cons.mp member with rfl | later
      · omega
      · have := ih later
        omega
    · have := ih member
      omega

theorem placesFrom_length (entry : NumericIndexEntry V) (read : Nat) (pending : List (NumericIndexEntry V)) :
    (placesFrom entry read pending).length = pending.count entry := by
  induction pending generalizing read with
  | nil => rfl
  | cons first rest ih =>
    rw [placesFrom]
    split
    · next same => rw [same, List.count_cons_self, List.length_cons, ih]
    · next other => rw [List.count_cons_of_ne other, ih]

namespace NumericIndex

/-- How often the index holds an entry, once every removal is applied. -/
def held (index : NumericIndex V) (entry : NumericIndexEntry V) : Nat :=
  (index.entries.count entry - (limitsOf index.removed entry).length) +
    pendingLeft (placesFrom entry 0 index.pending) ((limitsOf index.removed entry).drop (index.entries.count entry))

/-- The entries are sorted, and no removal was called with more entries pending than now. -/
structure Inv (index : NumericIndex V) : Prop where
  sorted : Sorted index.entries
  within : ∀ removal ∈ index.removed, removal.limit ≤ index.pending.length

theorem create_inv : (createNumericIndex : NumericIndex V).Inv := ⟨List.Pairwise.nil, nofun⟩

end NumericIndex

section Applying
variable {grouped : List (PendingRemovals V)} {marked : Nat → Bool}

theorem removeEachSorted_spec (entries : List (NumericIndexEntry V))
    (marks : ∀ entry, limitsLeft grouped entry ≠ [] → marked entry.docId = true) :
    (removeEachSorted marked grouped entries).1.Sublist entries ∧
      (∀ entry, (removeEachSorted marked grouped entries).1.count entry =
        entries.count entry - (limitsLeft grouped entry).length) ∧
      ∀ entry, limitsLeft (removeEachSorted marked grouped entries).2 entry =
        (limitsLeft grouped entry).drop (entries.count entry) := by
  induction entries generalizing grouped with
  | nil => exact ⟨List.Sublist.refl _, fun entry => by simp [removeEachSorted], fun entry => by simp [removeEachSorted]⟩
  | cons first rest ih =>
    obtain ⟨removes_iff, left⟩ := removesSorted_spec marks first
    rw [removeEachSorted]
    dsimp only
    generalize removesSorted marked grouped first = step at removes_iff left
    obtain ⟨removes, later⟩ := step
    dsimp only at removes_iff left ⊢
    have later_marks : ∀ entry, limitsLeft later entry ≠ [] → marked entry.docId = true := by
      intro entry some_left
      apply marks
      rw [left entry] at some_left
      split at some_left
      · next same =>
        subst same
        exact fun none => some_left (by rw [none, List.tail_nil])
      · exact some_left
    obtain ⟨sublist, counts, limits⟩ := ih later_marks
    refine ⟨?_, fun entry => ?_, fun entry => ?_⟩
    · cases removes with
      | true => exact sublist.cons _
      | false => exact sublist.cons_cons _
    · by_cases same : entry = first
      · subst same
        have own := counts entry
        rw [left entry, if_pos rfl] at own
        cases removes with
        | true =>
          have some_left := removes_iff.mp rfl
          rw [if_pos rfl, own, List.count_cons_self, List.length_tail]
          have : 0 < (limitsLeft grouped entry).length := List.length_pos_iff.mpr some_left
          omega
        | false =>
          have none_left : limitsLeft grouped entry = [] := by
            by_contra some_left
            exact absurd (removes_iff.mpr some_left) (by simp)
          rw [if_neg (by simp), List.count_cons_self, List.count_cons_self, own, none_left]
          simp
      · have own := counts entry
        rw [left entry, if_neg same] at own
        have other : first ≠ entry := fun eq => same eq.symm
        cases removes with
        | true => rw [if_pos rfl, own, List.count_cons_of_ne other]
        | false => rw [if_neg (by simp), List.count_cons_of_ne other, List.count_cons_of_ne other, own]
    · rw [limits entry, left entry]
      by_cases same : entry = first
      · subst same
        rw [if_pos rfl, List.count_cons_self, ← List.drop_one, List.drop_drop, Nat.add_comm 1]
      · rw [if_neg same, List.count_cons_of_ne fun eq => same eq.symm]

theorem removeFromPending_spec (pending : List (NumericIndexEntry V)) (read : Nat)
    (marks : ∀ entry, limitsLeft grouped entry ≠ [] → marked entry.docId = true) (entry : NumericIndexEntry V) :
    (removeFromPending marked read grouped pending).count entry =
      pendingLeft (placesFrom entry read pending) (limitsLeft grouped entry) := by
  induction pending generalizing grouped read with
  | nil => rfl
  | cons first rest ih =>
    obtain ⟨removes_iff, left⟩ := removesPending_spec marks read first
    rw [removeFromPending]
    dsimp only
    generalize removesPending marked grouped read first = step at removes_iff left
    obtain ⟨removes, later⟩ := step
    dsimp only at removes_iff left ⊢
    have later_marks : ∀ entry, limitsLeft later entry ≠ [] → marked entry.docId = true := by
      intro entry some_left
      apply marks
      rw [left entry] at some_left
      split at some_left
      · next same =>
        subst same
        exact fun none => some_left (by rw [none]; rfl)
      · exact some_left
    have own := ih (read + 1) later_marks
    rw [left entry] at own
    rw [placesFrom]
    by_cases same : first = entry
    · subst same
      rw [if_pos rfl] at own
      rw [if_pos rfl, pendingLeft]
      cases dropped : (limitsLeft grouped first).dropWhile (· ≤ read) with
      | nil =>
        have stays : removes = false := Bool.eq_false_iff.mpr fun removed => removes_iff.mp removed dropped
        rw [dropped] at own
        rw [stays, if_neg Bool.false_ne_true, List.count_cons_self, own]
        rfl
      | cons limit limits =>
        have goes : removes = true := removes_iff.mpr (by rw [dropped]; exact List.cons_ne_nil _ _)
        rw [dropped] at own
        rw [goes, if_pos rfl, own]
        rfl
    · rw [if_neg fun eq => same eq.symm] at own
      rw [if_neg same, ← own]
      cases removes with
      | true => rfl
      | false => rw [if_neg Bool.false_ne_true, List.count_cons_of_ne same]

end Applying

theorem sortEntries_perm (entries : List (NumericIndexEntry V)) : (sortEntries entries).Perm entries :=
  List.perm_insertionSort _ entries

instance : Std.Total (byValue (V := V)) := ⟨fun left right => le_total left.value right.value⟩

instance : IsTrans (NumericIndexEntry V) byValue := ⟨fun _ _ _ => le_trans⟩

theorem sortEntries_sorted (entries : List (NumericIndexEntry V)) : Sorted (sortEntries entries) :=
  List.pairwise_insertionSort _ entries

theorem mergeFromEnd_perm (pending left merged : List (NumericIndexEntry V)) :
    (mergeFromEnd pending left merged).Perm (pending ++ left ++ merged) := by
  induction pending generalizing left merged with
  | nil => exact (List.reverse_perm left).append_right merged
  | cons entry rest ih =>
    rw [mergeFromEnd]
    refine (ih _ _).trans ?_
    have split := List.takeWhile_append_dropWhile
      (p := fun other : NumericIndexEntry V => decide (entry.value < other.value)) (l := left)
    generalize left.takeWhile _ = bigger at split ⊢
    generalize left.dropWhile _ = others at split ⊢
    subst split
    rw [List.perm_iff_count]
    intro other
    simp only [List.count_append, List.count_cons, List.count_reverse]
    omega

theorem mergeFromEnd_sorted {pending left merged : List (NumericIndexEntry V)}
    (pending_sorted : pending.Pairwise fun later earlier => byValue earlier later)
    (left_sorted : left.Pairwise fun later earlier => byValue earlier later) (merged_sorted : Sorted merged)
    (below : ∀ entry ∈ pending ++ left, ∀ other ∈ merged, byValue entry other) :
    Sorted (mergeFromEnd pending left merged) := by
  induction pending generalizing left merged with
  | nil =>
    rw [mergeFromEnd, Sorted, List.pairwise_append]
    refine ⟨List.pairwise_reverse.mpr left_sorted, merged_sorted, fun entry member => ?_⟩
    exact below entry (List.mem_reverse.mp member)
  | cons entry rest ih =>
    obtain ⟨least, rest_sorted⟩ := List.pairwise_cons.mp pending_sorted
    have split := List.takeWhile_append_dropWhile
      (p := fun other : NumericIndexEntry V => decide (entry.value < other.value)) (l := left)
    have bigger_above : ∀ other ∈ left.takeWhile fun other => decide (entry.value < other.value),
        byValue entry other := by
      intro other member
      have := List.mem_takeWhile_imp member
      rw [decide_eq_true_eq] at this
      exact le_of_lt this
    have others_below : ∀ other ∈ left.dropWhile fun other => decide (entry.value < other.value),
        byValue other entry := by
      intro other member
      cases dropped : left.dropWhile fun other => decide (entry.value < other.value) with
      | nil =>
        rw [dropped] at member
        exact absurd member List.not_mem_nil
      | cons next more =>
        have first : ¬ entry.value < next.value := by
          have := List.head?_dropWhile_not (fun other : NumericIndexEntry V => decide (entry.value < other.value)) left
          rw [dropped] at this
          simpa using this
        rw [dropped] at member
        have descending := left_sorted.sublist (List.dropWhile_sublist
          (fun other : NumericIndexEntry V => decide (entry.value < other.value)))
        rw [dropped] at descending
        rcases List.mem_cons.mp member with rfl | later
        · exact not_lt.mp first
        · exact le_trans ((List.pairwise_cons.mp descending).1 other later) (not_lt.mp first)
    rw [mergeFromEnd]
    generalize left.takeWhile _ = bigger at split bigger_above ⊢
    generalize left.dropWhile _ = others at split others_below ⊢
    subst split
    obtain ⟨bigger_sorted, others_sorted, apart⟩ := List.pairwise_append.mp left_sorted
    apply ih rest_sorted others_sorted
    · rw [Sorted, List.pairwise_cons]
      refine ⟨fun other member => ?_, ?_⟩
      · rcases List.mem_append.mp member with above | written
        · exact bigger_above other (List.mem_reverse.mp above)
        · exact below entry (by simp) other written
      · rw [List.pairwise_append]
        refine ⟨List.pairwise_reverse.mpr bigger_sorted, merged_sorted, fun other member => ?_⟩
        exact below other (by simp [List.mem_reverse.mp member])
    · intro earlier member other later
      rcases List.mem_append.mp member with pending_left | left_left
      · have order : byValue earlier entry := least earlier pending_left
        rcases List.mem_cons.mp later with rfl | later
        · exact order
        · rcases List.mem_append.mp later with above | written
          · exact le_trans order (bigger_above other (List.mem_reverse.mp above))
          · exact below earlier (by simp [pending_left]) other written
      · rcases List.mem_cons.mp later with rfl | later
        · exact others_below earlier left_left
        · rcases List.mem_append.mp later with above | written
          · exact apart other (List.mem_reverse.mp above) earlier left_left
          · exact below earlier (by simp [left_left]) other written

theorem mergeSortedPending_perm (entries pending : List (NumericIndexEntry V)) :
    (mergeSortedPending entries pending).Perm (entries ++ pending) := by
  rw [mergeSortedPending]
  refine (mergeFromEnd_perm _ _ _).trans ?_
  rw [List.append_nil]
  refine List.Perm.trans ?_ List.perm_append_comm
  exact ((List.reverse_perm _).trans (sortEntries_perm pending)).append (List.reverse_perm entries)

theorem mergeSortedPending_sorted {entries pending : List (NumericIndexEntry V)} (sorted : Sorted entries) :
    Sorted (mergeSortedPending entries pending) := by
  apply mergeFromEnd_sorted (List.pairwise_reverse.mpr (sortEntries_sorted pending))
    (List.pairwise_reverse.mpr sorted) List.Pairwise.nil
  exact fun _ _ other none => absurd none List.not_mem_nil

namespace NumericIndex

variable {index : NumericIndex V}

theorem mem_of_limitsOf {removed : List (Removal V)} {entry : NumericIndexEntry V} (some_left : limitsOf removed entry ≠ []) :
    ∃ removal ∈ removed, removal.entry = entry := by
  by_contra none
  push Not at none
  apply some_left
  rw [limitsOf, List.filter_eq_nil_iff.mpr (fun removal member => by simpa using none removal member)]
  rfl

theorem lowestRemoved_le {first : Removal V} {removed : List (Removal V)} {removal : Removal V} (member : removal ∈ removed) :
    lowestRemoved first removed ≤ removal.value := by
  have general : ∀ (removals : List (Removal V)) (start : V),
      (removals.foldl (fun lowest removal => if removal.value < lowest then removal.value else lowest) start) ≤ start ∧
        ∀ removal ∈ removals,
          (removals.foldl (fun lowest removal => if removal.value < lowest then removal.value else lowest) start) ≤
            removal.value := by
    intro removals
    induction removals with
    | nil => exact fun start => ⟨le_refl start, nofun⟩
    | cons first rest ih =>
      intro start
      rw [List.foldl_cons]
      obtain ⟨below, rest_below⟩ := ih (if first.value < start then first.value else start)
      have least : (if first.value < start then first.value else start) ≤ first.value ∧
          (if first.value < start then first.value else start) ≤ start := by
        split
        · next lower => exact ⟨le_refl _, le_of_lt lower⟩
        · next above => exact ⟨not_lt.mp above, le_refl _⟩
      refine ⟨below.trans least.2, fun removal member => ?_⟩
      rcases List.mem_cons.mp member with rfl | later
      · exact below.trans least.1
      · exact rest_below removal later
  exact (general removed first.value).2 removal member

theorem marks_removed (removed : List (Removal V)) {entry : NumericIndexEntry V} (some_left : limitsOf removed entry ≠ []) :
    markedDocuments removed entry.docId = true := by
  obtain ⟨removal, member, rfl⟩ := mem_of_limitsOf some_left
  exact List.any_eq_true.mpr ⟨removal, member, by simp [Removal.entry]⟩

theorem removeFromSorted_spec (inv : index.Inv) {first : Removal V} {removes : List (NumericIndexEntry V) × List (PendingRemovals V)}
    (made : removeFromSorted index.entries (lowerBound index.entries (lowestRemoved first index.removed))
      (markedDocuments index.removed) (groupRemovals index.removed) = removes) :
    removes.1.Sublist index.entries ∧
      (∀ entry, removes.1.count entry = index.entries.count entry - (limitsOf index.removed entry).length) ∧
      ∀ entry, limitsLeft removes.2 entry = (limitsOf index.removed entry).drop (index.entries.count entry) := by
  have marks : ∀ entry, limitsLeft (groupRemovals index.removed) entry ≠ [] →
      markedDocuments index.removed entry.docId = true := by
    intro entry some_left
    rw [limitsLeft_groupRemovals] at some_left
    exact marks_removed _ some_left
  subst made
  rw [removeFromSorted]
  dsimp only
  generalize from_is : lowerBound index.entries (lowestRemoved first index.removed) = start
  obtain ⟨sublist, counts, limits⟩ := removeEachSorted_spec (index.entries.drop start) marks
  have parts := List.take_append_drop start index.entries
  have untouched : ∀ entry, limitsOf index.removed entry ≠ [] → (index.entries.take start).count entry = 0 := by
    intro entry some_left
    obtain ⟨removal, member, rfl⟩ := mem_of_limitsOf some_left
    rw [List.count_eq_zero]
    intro early
    have early' : removal.entry ∈ (index.entries.take start).drop 0 := early
    rw [← from_is, lowerBound, mem_until (inv.sorted.leading_lt _), decide_eq_true_eq] at early'
    exact absurd early'.2 (not_lt.mpr (lowestRemoved_le member))
  have drop_count : ∀ entry, index.entries.count entry =
      (index.entries.take start).count entry + (index.entries.drop start).count entry := fun entry => by
    rw [← List.count_append, parts]
  refine ⟨?_, fun entry => ?_, fun entry => ?_⟩
  · have whole := sublist.append_left (index.entries.take start)
    rwa [parts] at whole
  · rw [List.count_append, counts, limitsLeft_groupRemovals, drop_count entry]
    by_cases some_left : limitsOf index.removed entry = []
    · simp [some_left]
    · rw [untouched entry some_left]
      omega
  · rw [limits, limitsLeft_groupRemovals, drop_count entry]
    by_cases some_left : limitsOf index.removed entry = []
    · simp [some_left]
    · rw [untouched entry some_left, Nat.zero_add]

theorem applyRemovals_spec (inv : index.Inv) (first : Removal V) :
    Sorted (index.applyRemovals first).entries ∧ (index.applyRemovals first).removed = [] ∧
      ∀ entry, (index.applyRemovals first).entries.count entry + (index.applyRemovals first).pending.count entry =
        index.held entry := by
  rw [applyRemovals]
  dsimp only
  generalize made : removeFromSorted index.entries (lowerBound index.entries (lowestRemoved first index.removed))
    (markedDocuments index.removed) (groupRemovals index.removed) = step
  obtain ⟨sublist, counts, limits⟩ := removeFromSorted_spec inv made
  obtain ⟨kept, later⟩ := step
  dsimp only at sublist counts limits ⊢
  refine ⟨inv.sorted.sublist sublist, rfl, fun entry => ?_⟩
  have marks : ∀ entry, limitsLeft later entry ≠ [] → markedDocuments index.removed entry.docId = true := by
    intro entry some_left
    rw [limits] at some_left
    exact marks_removed _ fun none => some_left (by rw [none, List.drop_nil])
  rw [counts, removeFromPending_spec index.pending 0 marks entry, limits, held]

theorem held_of_none_removed (none : index.removed = []) (entry : NumericIndexEntry V) :
    index.held entry = index.entries.count entry + index.pending.count entry := by
  have no_limits : limitsOf index.removed entry = [] := by rw [none]; rfl
  rw [held, no_limits, List.drop_nil, pendingLeft_nil, placesFrom_length]
  rfl

theorem ensureSorted_spec (inv : index.Inv) :
    Sorted index.ensureSorted.entries ∧ index.ensureSorted.pending = [] ∧ index.ensureSorted.removed = [] ∧
      ∀ entry, index.ensureSorted.entries.count entry = index.held entry := by
  have applied : Sorted index.applyHeldBack.entries ∧ index.applyHeldBack.removed = [] ∧
      ∀ entry, index.applyHeldBack.entries.count entry + index.applyHeldBack.pending.count entry =
        index.held entry := by
    rw [applyHeldBack]
    cases removed : index.removed with
    | nil => exact ⟨inv.sorted, removed, fun entry => (held_of_none_removed removed entry).symm⟩
    | cons first rest => exact applyRemovals_spec inv first
  rw [ensureSorted]
  generalize index.applyHeldBack = later at applied
  obtain ⟨sorted, none_removed, counts⟩ := applied
  by_cases none_pending : later.pending = []
  · rw [if_pos none_pending]
    refine ⟨sorted, none_pending, none_removed, fun entry => ?_⟩
    have := counts entry
    rw [none_pending] at this
    simpa using this
  · rw [if_neg none_pending]
    by_cases none_sorted : later.entries = []
    · rw [if_pos none_sorted]
      refine ⟨sortEntries_sorted _, rfl, none_removed, fun entry => ?_⟩
      have := counts entry
      rw [none_sorted] at this
      rw [(sortEntries_perm later.pending).count_eq]
      simpa using this
    · rw [if_neg none_sorted]
      refine ⟨mergeSortedPending_sorted sorted, rfl, none_removed, fun entry => ?_⟩
      rw [(mergeSortedPending_perm later.entries later.pending).count_eq, List.count_append]
      exact counts entry

theorem limitsOf_concat (removed : List (Removal V)) (removal : Removal V) (entry : NumericIndexEntry V) :
    limitsOf (removed ++ [removal]) entry =
      limitsOf removed entry ++ if removal.entry = entry then [removal.limit] else [] := by
  rw [limitsOf, limitsOf, List.filter_append, List.map_append]
  by_cases same : removal.entry = entry
  · simp [same]
  · simp [same]

theorem limits_within (inv : index.Inv) (entry : NumericIndexEntry V) :
    ∀ limit ∈ limitsOf index.removed entry, limit ≤ index.pending.length := by
  intro limit member
  obtain ⟨removal, isRemoval, rfl⟩ := List.mem_map.mp member
  exact inv.within removal (List.mem_of_mem_filter isRemoval)

/-- The index holds the entries of a multiset, each as often. -/
structure Holds (index : NumericIndex V) (contents : Multiset (NumericIndexEntry V)) : Prop where
  inv : index.Inv
  count : ∀ entry, index.held entry = contents.count entry

variable {contents : Multiset (NumericIndexEntry V)}

theorem Holds.create : (createNumericIndex : NumericIndex V).Holds 0 := ⟨create_inv, fun _ => (Multiset.count_zero _).symm⟩

theorem Holds.settled (holds : index.Holds contents) : Sorted index.ensureSorted.entries ∧
    (index.ensureSorted.entries : Multiset (NumericIndexEntry V)) = contents ∧ index.ensureSorted.Holds contents := by
  obtain ⟨sorted, none_pending, none_removed, counts⟩ := ensureSorted_spec holds.inv
  refine ⟨sorted, Multiset.ext.mpr fun entry => ?_, ⟨sorted, by rw [none_removed]; exact nofun⟩, fun entry => ?_⟩
  · rw [Multiset.coe_count, counts, holds.count]
  · rw [held_of_none_removed none_removed, none_pending, counts, holds.count]
    rfl

theorem Holds.insert (holds : index.Holds contents) (docId : Nat) (value : V) :
    (index.insert docId value).Holds (⟨value, docId⟩ ::ₘ contents) := by
  refine ⟨⟨holds.inv.sorted, fun removal member => ?_⟩, fun entry => ?_⟩
  · have within := holds.inv.within removal member
    rw [NumericIndex.insert, List.length_append]
    exact Nat.le_add_right_of_le within
  · rw [Multiset.count_cons, ← holds.count, held, held, NumericIndex.insert]
    dsimp only
    rw [placesFrom_concat, Nat.zero_add]
    by_cases same : entry = ⟨value, docId⟩
    · rw [if_pos same.symm, if_pos same, pendingLeft_insert]
      · rfl
      · exact fun limit member => limits_within holds.inv entry limit (List.mem_of_mem_drop member)
    · rw [if_neg fun eq => same eq.symm, if_neg same, List.append_nil]
      rfl

theorem Holds.remove (holds : index.Holds contents) (docId : Nat) (value : V) :
    (index.remove docId value).Holds (contents.erase ⟨value, docId⟩) := by
  have later : Holds { index with removed := index.removed ++ [⟨docId, value, index.pending.length⟩] }
      (contents.erase ⟨value, docId⟩) := by
    refine ⟨⟨holds.inv.sorted, fun removal member => ?_⟩, fun entry => ?_⟩
    · rcases List.mem_append.mp member with old | new
      · exact holds.inv.within removal old
      · rw [List.mem_singleton.mp new]
    · have before := holds.count entry
      rw [held] at before ⊢
      dsimp only
      rw [limitsOf_concat]
      by_cases same : entry = ⟨value, docId⟩
      · have own : (⟨docId, value, index.pending.length⟩ : Removal V).entry = entry := by rw [same]; rfl
        rw [if_pos own, same, Multiset.count_erase_self, ← same, ← before, List.length_append, List.length_singleton]
        by_cases fits : (limitsOf index.removed entry).length < index.entries.count entry
        · -- A sorted entry is left for it.
          rw [List.drop_of_length_le (by rw [List.length_append, List.length_singleton]; omega), List.drop_of_length_le (by omega),
            pendingLeft_nil]
          omega
        · rw [List.drop_append_of_le_length (by omega), pendingLeft_remove]
          · omega
          · intro place member
            exact (placesFrom_lt member).trans_eq (Nat.zero_add _)
      · have other : ¬ (⟨docId, value, index.pending.length⟩ : Removal V).entry = entry := fun eq => same (by rw [← eq]; rfl)
        rw [if_neg other, List.append_nil, Multiset.count_erase_of_ne same, ← before]
  rw [NumericIndex.remove]
  split
  · exact later.settled.2.2
  · exact later

end NumericIndex

end Narsil.Fields
