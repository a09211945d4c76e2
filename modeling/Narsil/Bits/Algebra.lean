import Mathlib.Data.Nat.Bitwise

/-!
# Sets of ordinals as words of bits
-/
namespace Bits

/-- Words of 32 bits. -/
abbrev Bitset : Type := List Nat

namespace Bitset

def createBitSet (capacity : Nat) : Bitset :=
  List.replicate (if (capacity + 31) / 32 = 0 then 1 else (capacity + 31) / 32) 0

def has (bits : Bitset) (index : Nat) : Bool :=
  match bits[index / 32]? with
  | none => false
  | some word => word.testBit (index % 32)

/-- An index past the words is left out. -/
def set (bits : Bitset) (index : Nat) : Bitset :=
  List.modify bits (index / 32) fun word => word ||| 1 <<< (index % 32)

@[simp] theorem length_set (bits : Bitset) (index : Nat) : (bits.set index).length = bits.length :=
  List.length_modify _ _ _

theorem has_set (bits : Bitset) (index other : Nat) :
    (bits.set index).has other = true ↔
      bits.has other = true ∨ (other = index ∧ index / 32 < bits.length) := by
  rw [has, has, set, List.getElem?_modify]
  by_cases word_is : index / 32 = other / 32
  · rw [word_is]
    cases found : bits[other / 32]? with
    | none =>
      have past := List.getElem?_eq_none_iff.mp found
      simp only [Option.map_eq_map, Option.map_none, Bool.false_eq_true, false_or, false_iff, not_and]
      omega
    | some word =>
      have within := (List.getElem?_eq_some_iff.mp found).1
      simp only [Option.map_eq_map, Option.map_some, if_true, Nat.testBit_or, Bool.or_eq_true]
      have one : (1 <<< (index % 32)).testBit (other % 32) = true ↔ other = index := by
        rw [Nat.one_shiftLeft, Nat.testBit_two_pow, decide_eq_true_eq]
        omega
      rw [one]
      simp [within]
  · have different : other ≠ index := by
      rintro rfl
      exact word_is rfl
    simp only [word_is, if_false, different, false_and, or_false]
    cases bits[other / 32]? <;> rfl

/-- Every ordinal of the list is set. -/
def setAll (bits : Bitset) (ordinals : List Nat) : Bitset := ordinals.foldl set bits

def ofList (ordinals : List Nat) (capacity : Nat) : Bitset := (createBitSet capacity).setAll ordinals

theorem has_createBitSet (capacity ordinal : Nat) : (createBitSet capacity).has ordinal = false := by
  rw [has, createBitSet]
  by_cases within : ordinal / 32 < if (capacity + 31) / 32 = 0 then 1 else (capacity + 31) / 32
  · rw [List.getElem?_replicate, if_pos within]
    exact Nat.zero_testBit _
  · rw [List.getElem?_replicate, if_neg within]

theorem setAll_spec (bits : Bitset) (ordinals : List Nat) :
    (bits.setAll ordinals).length = bits.length ∧
      ∀ ordinal, (bits.setAll ordinals).has ordinal = true ↔
        bits.has ordinal = true ∨ (ordinal / 32 < bits.length ∧ ordinal ∈ ordinals) := by
  induction ordinals generalizing bits with
  | nil => exact ⟨rfl, fun ordinal => by simp [setAll]⟩
  | cons first rest ih =>
    obtain ⟨length, others⟩ := ih (bits.set first)
    refine ⟨length.trans (length_set _ _), fun ordinal => ?_⟩
    rw [show bits.setAll (first :: rest) = (bits.set first).setAll rest from rfl, others, has_set, length_set,
      List.mem_cons]
    constructor
    · rintro ((before | ⟨rfl, within⟩) | ⟨within, member⟩)
      · exact Or.inl before
      · exact Or.inr ⟨within, Or.inl rfl⟩
      · exact Or.inr ⟨within, Or.inr member⟩
    · rintro (before | ⟨within, rfl | member⟩)
      · exact Or.inl (Or.inl before)
      · exact Or.inl (Or.inr ⟨rfl, within⟩)
      · exact Or.inr ⟨within, member⟩

theorem has_ofList (ordinals : List Nat) (capacity ordinal : Nat) : (ofList ordinals capacity).has ordinal = true ↔
    ordinal / 32 < (createBitSet capacity).length ∧ ordinal ∈ ordinals := by
  rw [ofList, (setAll_spec _ _).2, has_createBitSet]
  simp

end Bitset

end Bits
