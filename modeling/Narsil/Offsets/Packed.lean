import Mathlib.Data.List.Induction

/-!
# Segments packed one after the other

A list of segments as one list of values, with the offset each segment starts at and
the one the last ends at.
-/
namespace Offsets

variable {α : Type}

structure Packed (α : Type) where
  offsets : List Nat
  values : List α

namespace Packed

def empty : Packed α := ⟨[0], []⟩

def push (packed : Packed α) (segment : List α) : Packed α :=
  ⟨packed.offsets ++ [packed.values.length + segment.length], packed.values ++ segment⟩

/-- The values from one offset to the next. -/
def segment (packed : Packed α) (i : Nat) : List α :=
  (packed.values.take (packed.offsets.getD (i + 1) 0)).drop (packed.offsets.getD i 0)

def pack (segments : List (List α)) : Packed α := segments.foldl push empty

theorem pack_concat (segments : List (List α)) (last : List α) :
    pack (segments ++ [last]) = (pack segments).push last := by
  rw [pack, List.foldl_append]
  rfl

theorem pack_spec (segments : List (List α)) :
    (pack segments).offsets.length = segments.length + 1 ∧
      (pack segments).values = segments.flatten ∧
      ∀ i ≤ segments.length, (pack segments).offsets[i]? = some (segments.take i).flatten.length := by
  induction segments using List.reverseRecOn with
  | nil => simp [pack, empty]
  | append_singleton segments last ih =>
    obtain ⟨count, flat, offsets⟩ := ih
    rw [pack_concat]
    refine ⟨?_, ?_, ?_⟩
    · simp [push, count]
    · simp [push, flat]
    · intro i bound
      rw [List.length_append, List.length_singleton] at bound
      rcases Nat.lt_or_eq_of_le bound with inside | rfl
      · have earlier : i < (pack segments).offsets.length := by omega
        rw [push, List.getElem?_append_left earlier, offsets i (by omega),
          List.take_append_of_le_length (by omega)]
      · rw [push, List.getElem?_append_right (by omega), count, Nat.sub_self, flat,
          List.take_of_length_le (by simp)]
        simp

theorem segment_pack (segments : List (List α)) {i : Nat} {own : List α}
    (here : segments[i]? = some own) : (pack segments).segment i = own := by
  obtain ⟨bound, rfl⟩ := List.getElem?_eq_some_iff.mp here
  obtain ⟨_, flat, offsets⟩ := pack_spec segments
  have next : segments.take (i + 1) = segments.take i ++ [segments[i]] := by
    rw [List.take_add_one, List.getElem?_eq_getElem bound]
    rfl
  have split : segments.flatten = (segments.take i).flatten ++ segments[i] ++
      (segments.drop (i + 1)).flatten := by
    rw [← List.flatten_concat, ← next, ← List.flatten_append, List.take_append_drop]
  rw [segment, List.getD_eq_getElem?_getD, List.getD_eq_getElem?_getD, offsets i (by omega),
    offsets (i + 1) (by omega), Option.getD_some, Option.getD_some, flat, split, next,
    List.flatten_concat, List.take_left, List.drop_left]

end Packed

end Offsets
