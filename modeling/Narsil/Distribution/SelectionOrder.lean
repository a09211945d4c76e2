import Mathlib.Data.List.MinMax
import Mathlib.Data.String.Basic
import Narsil.Distribution.CopySelection

/-!
# The copies of a query in order

The selector keyed by the query weighs each copy by itself. So a copy that comes or goes changes
nothing about the order in which a query turns to the others.
-/
namespace Narsil.Distribution

open Narsil.Allocator (NodeId PartitionAssignment sortCodePoints)

variable {weightOf : NodeId → Nat} {keep : NodeId → Bool}

theorem heaviest_eq (weightOf : NodeId → Nat) (candidates : List NodeId) :
    heaviest weightOf candidates = candidates.argmax weightOf := by
  cases candidates with
  | nil => rfl
  | cons first rest =>
    rw [heaviest, List.argmax, List.foldl_cons]
    induction rest generalizing first with
    | nil => rfl
    | cons next rest ih =>
      rw [List.foldl_cons, List.foldl_cons, ih]
      congr 1
      exact apply_ite some _ _ _

/-- A heaviest candidate that stays is the heaviest of those that stay. -/
theorem argmax_filter {candidates : List NodeId} {chosen : NodeId} (heaviest : candidates.argmax weightOf = some chosen)
    (stays : keep chosen = true) : (candidates.filter keep).argmax weightOf = some chosen := by
  induction candidates using List.reverseRecOn generalizing chosen with
  | nil => cases heaviest
  | append_singleton before last ih =>
    rw [List.argmax_concat] at heaviest
    rw [List.filter_append]
    cases found : before.argmax weightOf with
    | none =>
      rw [found] at heaviest
      cases heaviest
      rw [List.argmax_eq_none.mp found, List.filter_cons_of_pos stays]
      rfl
    | some earlier =>
      rw [found] at heaviest
      dsimp only at heaviest
      -- Only a heavier last candidate is chosen over the earlier one.
      split at heaviest
      · next heavier =>
        cases heaviest
        rw [List.filter_cons_of_pos stays, List.filter_nil, List.argmax_concat]
        cases kept : (before.filter keep).argmax weightOf with
        | none => rfl
        | some other =>
          have lighter := List.le_of_mem_argmax (List.mem_filter.mp (List.argmax_mem kept)).1 found
          exact if_pos (Nat.lt_of_le_of_lt lighter heavier)
      · next lighter =>
        cases heaviest
        have kept := ih found stays
        cases last_stays : keep last with
        | true =>
          rw [List.filter_cons_of_pos last_stays, List.filter_nil, List.argmax_concat, kept]
          exact if_neg lighter
        | false =>
          rw [List.filter_cons_of_neg (by rw [last_stays]; exact Bool.false_ne_true), List.filter_nil, List.append_nil]
          exact kept

/-- Leaving out copies before or after the selection is the same. -/
theorem selectInOrder_filter (weightOf : Nat → NodeId → Nat) (partitionId : Nat) {remaining : List NodeId}
    (distinct : remaining.Nodup) : selectInOrder (queryKeyedSelector weightOf) partitionId (remaining.filter keep) =
      (selectInOrder (queryKeyedSelector weightOf) partitionId remaining).filter keep := by
  fun_induction selectInOrder (queryKeyedSelector weightOf) partitionId remaining with
  | case1 =>
    rw [List.filter_nil, selectInOrder, if_pos rfl]
  | case2 remaining some_left chosen member ih =>
    have picks (list : List NodeId) : (queryKeyedSelector weightOf).pick list partitionId =
        (list.argmax (weightOf partitionId)).getD "" := congrArg (·.getD "") (heaviest_eq _ _)
    have chosen_is : remaining.argmax (weightOf partitionId) = some chosen := by
      cases found : remaining.argmax (weightOf partitionId) with
      | none => exact absurd (List.argmax_eq_none.mp found) some_left
      | some heaviest => rw [show chosen = _ from picks remaining, found]; rfl
    have without : (remaining.erase chosen).filter keep = (remaining.filter keep).erase chosen := by
      rw [distinct.erase_eq_filter, (distinct.filter keep).erase_eq_filter, List.filter_filter, List.filter_filter]
      exact List.filter_congr fun node _ => Bool.and_comm _ _
    rw [List.filter_cons, ← ih (distinct.erase _), without]
    -- Where the heaviest leaves, the filter has taken it out already.
    split
    · next stays =>
      have kept : chosen ∈ remaining.filter keep := List.mem_filter.mpr ⟨member, stays⟩
      have picked : (queryKeyedSelector weightOf).pick (remaining.filter keep) partitionId = chosen := by
        rw [picks, argmax_filter chosen_is stays]
        rfl
      rw [selectInOrder, if_neg (List.ne_nil_of_mem kept)]
      dsimp only
      rw [picked, if_pos kept]
    · next leaves =>
      rw [List.erase_of_not_mem fun kept => leaves (List.mem_filter.mp kept).2]
  | case3 remaining some_left chosen missing =>
    exact absurd ((queryKeyedSelector weightOf).picks remaining partitionId some_left) missing

theorem collectActiveCandidates_sorted (assignment : PartitionAssignment) :
    (collectActiveCandidates assignment).Pairwise (· ≤ ·) := by
  rw [collectActiveCandidates]
  split
  · exact List.Pairwise.nil
  · let order (a b : NodeId) : Prop := ¬ b < a
    have transitive : IsTrans NodeId order := ⟨fun a b c => by simp only [order, not_lt]; exact le_trans⟩
    have total : Std.Total order := ⟨fun a b => by simp only [order, not_lt]; exact le_total a b⟩
    exact (List.pairwise_insertionSort order _).imp fun {a b} => not_lt.mp

/-- Whatever copies come and go between two states of a partition, a query turns to those that may
serve it in both in the same order. -/
theorem queryKeyedSelector_keeps_order (weightOf : Nat → NodeId → Nat) (partitionId : Nat)
    (before after : PartitionAssignment) :
    (copiesInSelectionOrder before (queryKeyedSelector weightOf) partitionId).filter
        (fun node => node ∈ collectActiveCandidates after) =
      (copiesInSelectionOrder after (queryKeyedSelector weightOf) partitionId).filter
        (fun node => node ∈ collectActiveCandidates before) := by
  have distinct := collectActiveCandidates_nodup before
  have distinct' := collectActiveCandidates_nodup after
  rw [copiesInSelectionOrder, copiesInSelectionOrder, ← selectInOrder_filter weightOf partitionId distinct,
    ← selectInOrder_filter weightOf partitionId distinct']
  congr 1
  -- Both lists are sorted and have the same copies.
  refine List.Perm.eq_of_pairwise (fun a b _ _ => le_antisymm) ((collectActiveCandidates_sorted before).filter _)
    ((collectActiveCandidates_sorted after).filter _) ?_
  refine (List.perm_ext_iff_of_nodup (distinct.filter _) (distinct'.filter _)).mpr fun node => ?_
  simp only [List.mem_filter, decide_eq_true_eq]
  exact and_comm

end Narsil.Distribution
