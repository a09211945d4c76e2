import Mathlib.Data.List.Sort
import Mathlib.Data.List.TakeWhile

/-!
# Sorting by buckets

A list whose keys ascend is the list of its buckets, key after key. A sort that keeps what
stands in one bucket in its order is told apart by that alone.
-/
namespace Buckets

variable {κ α : Type*} [LinearOrder κ] (key : α → κ)

/-- The members with each of the keys in turn. -/
def inTurn (keys : List κ) (list : List α) : List α := keys.flatMap fun k => list.filter fun x => key x = k

variable {key} {keys : List κ} {list other : List α}

theorem filter_inTurn (distinct : keys.Nodup) {k : κ} (listed : k ∈ keys) (list : List α) :
    (inTurn key keys list).filter (fun x => key x = k) = list.filter fun x => key x = k := by
  have absent {rest : List κ} (missing : k ∉ rest) : (inTurn key rest list).filter (fun x => key x = k) = [] := by
    rw [List.filter_eq_nil_iff]
    intro x isIn
    obtain ⟨other, isOther, isX⟩ := List.mem_flatMap.mp isIn
    have same : key x = other := by simpa using (List.mem_filter.mp isX).2
    rw [same, decide_eq_true_eq]
    rintro rfl
    exact missing isOther
  induction keys with
  | nil => cases listed
  | cons first rest ih =>
    obtain ⟨new, distinct⟩ := List.nodup_cons.mp distinct
    rw [inTurn, List.flatMap_cons, List.filter_append, List.filter_filter]
    by_cases here : first = k
    · subst here
      have later := absent new
      rw [inTurn] at later
      simp [later]
    · have others := ih distinct ((List.mem_cons.mp listed).resolve_left (Ne.symm here))
      have nothing : list.filter (fun x => decide (key x = k) && decide (key x = first)) = [] := by
        rw [List.filter_eq_nil_iff]
        rintro x - both
        rw [Bool.and_eq_true, decide_eq_true_eq, decide_eq_true_eq] at both
        exact here (both.2.symm.trans both.1)
      rw [nothing, List.nil_append]
      exact others

theorem eq_inTurn (ascending : keys.Pairwise (· < ·)) (sorted : list.Pairwise fun x y => key x ≤ key y)
    (covered : ∀ x ∈ list, key x ∈ keys) : list = inTurn key keys list := by
  induction keys generalizing list with
  | nil =>
    cases list with
    | nil => rfl
    | cons first rest => exact absurd (covered first List.mem_cons_self) List.not_mem_nil
  | cons k keys ih =>
    obtain ⟨below, ascending⟩ := List.pairwise_cons.mp ascending
    -- What has the first key stands in front.
    have split : list = list.takeWhile (fun x => key x = k) ++ list.dropWhile fun x => key x = k :=
      (List.takeWhile_append_dropWhile).symm
    have front : ∀ x ∈ list.takeWhile (fun x => key x = k), key x = k := fun x isIn => by
      simpa using List.mem_takeWhile_imp isIn
    have back : ∀ x ∈ list.dropWhile (fun x => key x = k), key x ∈ keys := by
      cases rest : list.dropWhile fun x => key x = k with
      | nil => exact fun _ isIn => nomatch isIn
      | cons first others =>
        have sub : (first :: others).Sublist list := rest ▸ List.dropWhile_sublist _
        have other : ¬ key first = k := by
          have stops := List.head?_dropWhile_not (fun x => decide (key x = k)) list
          rw [rest] at stops
          simpa using stops
        have first_key := (List.mem_cons.mp (covered first (sub.subset List.mem_cons_self))).resolve_left other
        intro x isIn
        rcases List.mem_cons.mp (covered x (sub.subset isIn)) with same | listed
        · have first_le : key first ≤ key x := by
            rcases List.mem_cons.mp isIn with rfl | later
            · exact le_refl _
            · exact (List.pairwise_cons.mp (sorted.sublist sub)).1 x later
          exact absurd (below _ first_key) (not_lt.mpr (same ▸ first_le))
        · exact listed
    have bucket : list.filter (fun x => key x = k) = list.takeWhile fun x => key x = k := by
      conv_lhs => rw [split]
      rw [List.filter_append, List.filter_eq_self.mpr fun x isIn => decide_eq_true (front x isIn),
        List.filter_eq_nil_iff.mpr, List.append_nil]
      intro x isIn same
      exact absurd (below _ (back x isIn)) (by rw [of_decide_eq_true same]; exact lt_irrefl k)
    have rest := ih ascending (sorted.sublist (List.dropWhile_sublist _)) back
    have same_buckets : inTurn key keys (list.dropWhile fun x => key x = k) = inTurn key keys list := by
      rw [inTurn, inTurn]
      refine List.flatMap_congr fun other listed => ?_
      have nothing : (list.takeWhile fun x => key x = k).filter (fun x => key x = other) = [] := by
        rw [List.filter_eq_nil_iff]
        intro x isIn same
        have apart := below other listed
        rw [← of_decide_eq_true same, front x isIn] at apart
        exact lt_irrefl k apart
      conv_rhs => rw [split]
      rw [List.filter_append, nothing, List.nil_append]
    rw [inTurn, List.flatMap_cons, bucket, ← inTurn, ← same_buckets, ← rest]
    exact split

theorem eq_of_buckets (ascending : keys.Pairwise (· < ·)) (sorted : list.Pairwise fun x y => key x ≤ key y)
    (covered : ∀ x ∈ list, key x ∈ keys)
    (same : ∀ k ∈ keys, (list.filter fun x => key x = k) = other.filter fun x => key x = k) :
    list = inTurn key keys other := by
  rw [eq_inTurn ascending sorted covered, inTurn, inTurn]
  exact List.flatMap_congr same

theorem inTurn_perm [DecidableEq α] (distinct : keys.Nodup) (covered : ∀ x ∈ list, key x ∈ keys) :
    (inTurn key keys list).Perm list := by
  rw [List.perm_iff_count]
  intro x
  by_cases listed : key x ∈ keys
  · have in_bucket (others : List α) : others.count x = (others.filter fun y => key y = key x).count x :=
      (List.count_filter (by simp)).symm
    rw [in_bucket, filter_inTurn distinct listed, ← in_bucket]
  · rw [List.count_eq_zero.mpr, List.count_eq_zero.mpr]
    · exact fun isIn => listed (covered x isIn)
    · intro isIn
      obtain ⟨k, isKey, here⟩ := List.mem_flatMap.mp isIn
      exact listed (of_decide_eq_true (List.mem_filter.mp here).2 ▸ isKey)

theorem inTurn_sorted (ascending : keys.Pairwise (· < ·)) (list : List α) :
    (inTurn key keys list).Pairwise fun x y => key x ≤ key y := by
  have keyed {k : κ} {x : α} (isIn : x ∈ list.filter fun x => key x = k) : key x = k :=
    of_decide_eq_true (List.mem_filter.mp isIn).2
  rw [inTurn, List.pairwise_flatMap]
  constructor
  · intro k _
    exact List.pairwise_of_forall_mem_list fun x isIn y isIn' => le_of_eq ((keyed isIn).trans (keyed isIn').symm)
  · refine ascending.imp fun below x isIn y isIn' => ?_
    rw [keyed isIn, keyed isIn']
    exact le_of_lt below

theorem takeWhile_lowest {k : κ} (sorted : list.Pairwise fun x y => key x ≤ key y) (least : ∀ x ∈ list, k ≤ key x) :
    list.takeWhile (fun x => key x = k) = list.filter fun x => key x = k := by
  induction list with
  | nil => rfl
  | cons first rest ih =>
    obtain ⟨from_first, sorted⟩ := List.pairwise_cons.mp sorted
    by_cases here : key first = k
    · rw [List.takeWhile_cons_of_pos (by simpa using here), List.filter_cons_of_pos (by simpa using here),
        ih sorted fun x isIn => least x (List.mem_cons_of_mem _ isIn)]
    · have above : k < key first := lt_of_le_of_ne (least first List.mem_cons_self) (Ne.symm here)
      rw [List.takeWhile_cons_of_neg (by simpa using here), List.filter_cons_of_neg (by simpa using here), eq_comm,
        List.filter_eq_nil_iff]
      exact fun x isIn same => absurd (lt_of_lt_of_le above (from_first x isIn)) (not_lt.mpr (le_of_eq (of_decide_eq_true same)))

theorem dropWhile_lowest {k : κ} (sorted : list.Pairwise fun x y => key x ≤ key y) (least : ∀ x ∈ list, k ≤ key x) :
    list.dropWhile (fun x => key x = k) = list.filter fun x => k < key x := by
  induction list with
  | nil => rfl
  | cons first rest ih =>
    obtain ⟨from_first, sorted⟩ := List.pairwise_cons.mp sorted
    by_cases here : key first = k
    · rw [List.dropWhile_cons_of_pos (by simpa using here), List.filter_cons_of_neg (by simp [here]),
        ih sorted fun x isIn => least x (List.mem_cons_of_mem _ isIn)]
    · have above : k < key first := lt_of_le_of_ne (least first List.mem_cons_self) (Ne.symm here)
      rw [List.dropWhile_cons_of_neg (by simpa using here), eq_comm, List.filter_eq_self]
      intro x isIn
      rcases List.mem_cons.mp isIn with rfl | later
      · exact decide_eq_true above
      · exact decide_eq_true (lt_of_lt_of_le above (from_first x later))

theorem all_places {α : Type*} (list : List α) : ((List.range list.length).filterMap fun i => list[i]?) = list := by
  suffices front : ∀ n ≤ list.length, ((List.range n).filterMap fun i => list[i]?) = list.take n by
    rw [front _ (le_refl _), List.take_length]
  intro n within
  induction n with
  | zero => rfl
  | succ n ih =>
    rw [List.range_succ, List.filterMap_append, ih (by omega), List.take_add_one]
    cases here : list[n]? <;> simp [here]

theorem sortedPlaces {order : List Nat} (ascending : keys.Pairwise (· < ·)) (covered : ∀ x ∈ list, key x ∈ keys)
    (perm : order.Perm (List.range list.length))
    (sorted : order.Pairwise fun i j => ∀ x y, list[i]? = some x → list[j]? = some y →
      key x < key y ∨ key x = key y ∧ i ≤ j) :
    (order.filterMap fun i => list[i]?) = inTurn key keys list := by
  apply eq_of_buckets ascending
  · rw [List.pairwise_filterMap]
    refine sorted.imp fun by_key x here y there => ?_
    rcases by_key x y here there with below | ⟨same, -⟩
    · exact le_of_lt below
    · exact le_of_eq same
  · intro x isIn
    obtain ⟨i, -, here⟩ := List.mem_filterMap.mp isIn
    exact covered x (List.mem_of_getElem? here)
  · intro k _
    -- The places of one bucket are in their own order.
    have bucket (places : List Nat) : (places.filterMap fun i => list[i]?).filter (fun x => key x = k) =
        (places.filter fun i => (list[i]?).any fun x => key x = k).filterMap fun i => list[i]? := by
      induction places with
      | nil => rfl
      | cons i rest ih =>
        cases here : list[i]? with
        | none => simp [here, ih]
        | some x => by_cases same : key x = k <;> simp [here, same, ih]
    have same_places : (order.filter fun i => (list[i]?).any fun x => key x = k) =
        (List.range list.length).filter fun i => (list[i]?).any fun x => key x = k := by
      refine @List.Perm.eq_of_pairwise Nat (· ≤ ·) _ _ (fun i j _ _ first second => Nat.le_antisymm first second) ?_ ?_
        (perm.filter _)
      · rw [List.pairwise_filter]
        refine sorted.imp fun by_key here there => ?_
        obtain ⟨x, isX, keyX⟩ := (Option.any_eq_true _ _).mp here
        obtain ⟨y, isY, keyY⟩ := (Option.any_eq_true _ _).mp there
        have same : key x = key y := (of_decide_eq_true keyX).trans (of_decide_eq_true keyY).symm
        exact (by_key x y isX isY).resolve_left (by rw [same]; exact lt_irrefl _) |>.2
      · exact (List.pairwise_lt_range.imp Nat.le_of_lt).filter _
    conv_rhs => rw [← all_places list]
    rw [bucket, bucket, same_places]

end Buckets
