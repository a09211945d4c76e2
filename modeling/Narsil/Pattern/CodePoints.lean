import Mathlib.Data.List.Sort
import Narsil.Assoc.Entries

/-!
# Tests of a code point

The ranges a class or a set covers, merged and searched, and the case folds a
pattern is matched under.
-/
namespace Narsil.Pattern

/-- A case-folding table. -/
structure PatternHost where
  appendFoldedCodePoint : Nat → List Nat
  /-- The folds of one code point to one, by their source. -/
  singleFolds : List (Nat × Nat)

inductive ClassName
  | digit | word | space
  deriving DecidableEq, Repr

def CLASS_RANGES : ClassName → List (Nat × Nat)
  | .digit => [(0x30, 0x39)]
  | .word => [(0x30, 0x39), (0x41, 0x5a), (0x5f, 0x5f), (0x61, 0x7a)]
  | .space => [(0x09, 0x0a), (0x0c, 0x0d), (0x20, 0x20)]

inductive SetItem
  | member (codePoint : Nat)
  | range (low high : Nat) (ordered : low ≤ high)
  | charClass (name : ClassName)

/-- A code point lies in one of the ranges. -/
def InSome (ranges : List (Nat × Nat)) (codePoint : Nat) : Prop :=
  ∃ range ∈ ranges, range.1 ≤ codePoint ∧ codePoint ≤ range.2

/-- One more pair, in order of the low ends; the newest range is in front. -/
def mergeRange (merged : List (Nat × Nat)) (pair : Nat × Nat) : List (Nat × Nat) :=
  match merged with
  | [] => [pair]
  | last :: before =>
    if pair.1 ≤ last.2 + 1 then (last.1, max last.2 pair.2) :: before else pair :: last :: before

def mergedRanges (bounds : List (Nat × Nat)) : List (Nat × Nat) :=
  ((bounds.insertionSort fun left right => left.1 ≤ right.1).foldl mergeRange []).reverse

/-- Ranges that can be searched: each in order, and apart from the next. -/
structure Separated (ranges : List (Nat × Nat)) : Prop where
  ordered : ∀ range ∈ ranges, range.1 ≤ range.2
  apart : ranges.Pairwise fun left right => left.2 < right.1

theorem mergeRange_spec {merged : List (Nat × Nat)} {pair : Nat × Nat} (h : Separated merged.reverse)
    (ordered : pair.1 ≤ pair.2) (after : ∀ range ∈ merged, range.1 ≤ pair.1) :
    Separated (mergeRange merged pair).reverse ∧
      (∀ range ∈ mergeRange merged pair, range.1 ≤ pair.1) ∧
      ∀ codePoint, InSome (mergeRange merged pair) codePoint ↔
        InSome merged codePoint ∨ (pair.1 ≤ codePoint ∧ codePoint ≤ pair.2) := by
  cases merged with
  | nil =>
    refine ⟨⟨by simpa [mergeRange] using ordered, by simp [mergeRange]⟩, by simp [mergeRange], ?_⟩
    simp [mergeRange, InSome]
  | cons last before =>
    have last_ordered := h.ordered last (by simp)
    have last_before := after last (by simp)
    have apart := h.apart
    rw [List.reverse_cons, List.pairwise_append] at apart
    obtain ⟨apart_before, _, apart_last⟩ := apart
    rw [mergeRange]
    split
    · next close =>
      refine ⟨⟨?_, ?_⟩, ?_, ?_⟩
      · intro range member
        rcases List.mem_cons.mp (List.mem_reverse.mp member) with rfl | old
        · exact Nat.le_trans last_ordered (Nat.le_max_left _ _)
        · exact h.ordered range (by simp [old])
      · rw [List.reverse_cons, List.pairwise_append]
        refine ⟨apart_before, by simp, ?_⟩
        intro left is_left right is_right
        rw [List.mem_singleton] at is_right
        subst is_right
        exact apart_last left is_left last (by simp)
      · intro range member
        rcases List.mem_cons.mp member with rfl | old
        · exact last_before
        · exact after range (by simp [old])
      · intro codePoint
        simp only [InSome, List.exists_mem_cons_iff]
        constructor
        · rintro (⟨low, high⟩ | old)
          · rcases Nat.le_total codePoint last.2 with inside | beyond
            · exact Or.inl (Or.inl ⟨low, inside⟩)
            · by_cases edge : codePoint = last.2
              · exact Or.inl (Or.inl ⟨low, by omega⟩)
              · exact Or.inr ⟨by omega, by omega⟩
          · exact Or.inl (Or.inr old)
        · rintro ((⟨low, high⟩ | old) | ⟨low, high⟩)
          · exact Or.inl ⟨low, Nat.le_trans high (Nat.le_max_left _ _)⟩
          · exact Or.inr old
          · exact Or.inl ⟨by omega, Nat.le_trans high (Nat.le_max_right _ _)⟩
    · next far =>
      refine ⟨⟨?_, ?_⟩, ?_, ?_⟩
      · intro range member
        rcases List.mem_cons.mp (List.mem_reverse.mp member) with rfl | old
        · exact ordered
        · exact h.ordered range (List.mem_reverse.mpr old)
      · rw [List.reverse_cons, List.pairwise_append]
        refine ⟨h.apart, by simp, ?_⟩
        intro left is_left right is_right
        rw [List.mem_singleton] at is_right
        subst is_right
        rcases List.mem_cons.mp (List.mem_reverse.mp is_left) with rfl | old
        · omega
        · have beyond := apart_last left (List.mem_reverse.mpr old) last (by simp)
          omega
      · intro range member
        rcases List.mem_cons.mp member with rfl | old
        · exact Nat.le_refl _
        · exact after range old
      · intro codePoint
        simp only [InSome, List.exists_mem_cons_iff]
        exact or_comm

theorem mergedRanges_spec {bounds : List (Nat × Nat)} (ordered : ∀ pair ∈ bounds, pair.1 ≤ pair.2) :
    Separated (mergedRanges bounds) ∧
      ∀ codePoint, InSome (mergedRanges bounds) codePoint ↔ InSome bounds codePoint := by
  have general : ∀ (rest merged : List (Nat × Nat)), Separated merged.reverse →
      rest.Pairwise (fun left right => left.1 ≤ right.1) → (∀ pair ∈ rest, pair.1 ≤ pair.2) →
      (∀ range ∈ merged, ∀ pair ∈ rest, range.1 ≤ pair.1) →
      Separated (rest.foldl mergeRange merged).reverse ∧
        ∀ codePoint, InSome (rest.foldl mergeRange merged) codePoint ↔
          InSome merged codePoint ∨ InSome rest codePoint := by
    intro rest
    induction rest with
    | nil => exact fun merged h _ _ _ => ⟨h, fun codePoint => by simp [InSome]⟩
    | cons pair rest ih =>
      intro merged h sorted ordered after
      obtain ⟨first, later⟩ := List.pairwise_cons.mp sorted
      obtain ⟨separated, bounded, same⟩ := mergeRange_spec h (ordered pair (by simp))
        fun range member => after range member pair (by simp)
      obtain ⟨separated', same'⟩ := ih _ separated later (fun p member => ordered p (by simp [member]))
        fun range member p in_rest =>
          Nat.le_trans (bounded range member) (first p in_rest)
      refine ⟨separated', fun codePoint => ?_⟩
      rw [List.foldl_cons, same', same]
      simp only [InSome, List.exists_mem_cons_iff]
      exact or_assoc
  have sorted : (bounds.insertionSort fun left right => left.1 ≤ right.1).Pairwise
      fun left right => left.1 ≤ right.1 := by
    have total : Std.Total fun left right : Nat × Nat => left.1 ≤ right.1 :=
      ⟨fun a b => Nat.le_total a.1 b.1⟩
    have transitive : IsTrans (Nat × Nat) fun left right => left.1 ≤ right.1 :=
      ⟨fun _ _ _ => Nat.le_trans⟩
    exact List.pairwise_insertionSort _ bounds
  obtain ⟨separated, same⟩ := general _ [] ⟨by simp, by simp⟩ sorted
    (fun pair member => ordered pair ((List.mem_insertionSort _).mp member)) (by simp)
  refine ⟨separated, fun codePoint => ?_⟩
  rw [mergedRanges]
  have listed := same codePoint
  simp only [InSome, List.mem_insertionSort, List.not_mem_nil, false_and, exists_false,
    false_or] at listed
  simpa only [InSome, List.mem_reverse] using listed

/-- The loop of `inRanges`, with more rounds than the distance it halves. -/
def searchRanges (ranges : List (Nat × Nat)) (codePoint : Nat) : Nat → Nat → Nat → Bool
  | 0, _, _ => false
  | rounds + 1, low, high =>
    if low < high then
      let middle := (low + high) / 2
      match ranges[middle]? with
      | none => false
      | some range =>
        if codePoint < range.1 then searchRanges ranges codePoint rounds low middle
        else if range.2 < codePoint then searchRanges ranges codePoint rounds (middle + 1) high
        else true
    else false

def inRanges (ranges : List (Nat × Nat)) (codePoint : Nat) : Bool :=
  searchRanges ranges codePoint (ranges.length + 1) 0 ranges.length

theorem searchRanges_iff {ranges : List (Nat × Nat)} (h : Separated ranges) {codePoint : Nat}
    (rounds low high : Nat) (enough : high - low < rounds) (inside : high ≤ ranges.length)
    (below : ∀ i range, ranges[i]? = some range → i < low → range.2 < codePoint)
    (above : ∀ i range, ranges[i]? = some range → high ≤ i → codePoint < range.1) :
    searchRanges ranges codePoint rounds low high = true ↔ InSome ranges codePoint := by
  induction rounds generalizing low high with
  | zero => omega
  | succ rounds ih =>
    have later : ∀ {i j : Nat} {left right : Nat × Nat}, ranges[i]? = some left →
        ranges[j]? = some right → i < j → left.2 < right.1 := by
      intro i j left right at_i at_j less
      obtain ⟨hi, rfl⟩ := List.getElem?_eq_some_iff.mp at_i
      obtain ⟨hj, rfl⟩ := List.getElem?_eq_some_iff.mp at_j
      exact List.pairwise_iff_getElem.mp h.apart i j hi hj less
    rw [searchRanges]
    split
    · next open_range =>
      have here : ranges[(low + high) / 2]? = some ranges[(low + high) / 2] :=
        List.getElem?_eq_getElem (by omega)
      simp only [here]
      have ordered := h.ordered _ (List.getElem_mem (h := (by omega : (low + high) / 2 < ranges.length)))
      split
      · next left_of =>
        apply ih
        · omega
        · omega
        · exact below
        · intro i range at_i from_middle
          rcases Nat.lt_or_eq_of_le from_middle with after | rfl
          · have apart := later here at_i after
            omega
          · rw [here, Option.some.injEq] at at_i
            exact at_i ▸ left_of
      · split
        · next right_of =>
          apply ih
          · omega
          · exact inside
          · intro i range at_i upto_middle
            rcases Nat.lt_or_eq_of_le (Nat.le_of_lt_succ upto_middle) with before | rfl
            · have apart := later at_i here before
              omega
            · rw [here, Option.some.injEq] at at_i
              exact at_i ▸ right_of
          · exact above
        · next not_left not_right =>
          simp only [true_iff]
          exact ⟨_, List.mem_of_getElem? here, by omega, by omega⟩
    · next closed =>
      simp only [Bool.false_eq_true, false_iff]
      rintro ⟨range, member, from_low, to_high⟩
      obtain ⟨i, at_i⟩ := List.mem_iff_getElem?.mp member
      rcases Nat.lt_or_ge i low with before | after
      · have apart := below i range at_i before
        omega
      · have apart := above i range at_i (by omega)
        omega

theorem inRanges_iff {ranges : List (Nat × Nat)} (h : Separated ranges) {codePoint : Nat} :
    inRanges ranges codePoint = true ↔ InSome ranges codePoint := by
  apply searchRanges_iff h
  · omega
  · exact Nat.le_refl _
  · simp
  · intro i range at_i beyond
    have bound := (List.getElem?_eq_some_iff.mp at_i).1
    omega

/-- What a position of a program asks of a code point. -/
structure CodePointTest where
  bytes : Nat
  ranges : List (Nat × Nat)
  isFoldTarget : Option (Nat → Bool)
  has : Nat → Bool

def CODE_POINT_TEST_ENTRY_BYTES : Nat := 8

/-- Two 32-bit bounds for each range. -/
def rangeBytes (ranges : List (Nat × Nat)) : Nat := 8 * ranges.length

def singleFoldSourcesOf (host : PatternHost) (folded : Nat) : List Nat :=
  (host.singleFolds.filter fun fold => fold.2 = folded).map Prod.fst

def boundsOf : SetItem → List (Nat × Nat)
  | .member codePoint => [(codePoint, codePoint)]
  | .range low high _ => [(low, high)]
  | .charClass name => CLASS_RANGES name

def rangeBoundsOf (items : List SetItem) : List (Nat × Nat) := items.flatMap boundsOf

def rangeTest (ranges : List (Nat × Nat)) (negated : Bool) : CodePointTest where
  bytes := rangeBytes ranges + CODE_POINT_TEST_ENTRY_BYTES
  ranges := ranges
  isFoldTarget := none
  has codePoint := inRanges ranges codePoint != negated

def holdsFold (ranges : List (Nat × Nat)) (host : PatternHost) (folded : Nat) : Bool :=
  inRanges ranges folded || (singleFoldSourcesOf host folded).any (inRanges ranges)

def foldedRangeTest (ranges : List (Nat × Nat)) (negated : Bool) (host : PatternHost) :
    CodePointTest where
  bytes := rangeBytes ranges + CODE_POINT_TEST_ENTRY_BYTES
  ranges := ranges
  isFoldTarget := some fun folded => decide (0 < (singleFoldSourcesOf host folded).length)
  has folded := holdsFold ranges host folded != negated

def classTest (name : ClassName) : CodePointTest :=
  rangeTest (mergedRanges (CLASS_RANGES name)) false

def setTest (items : List SetItem) (negated caseFold : Bool) (host : PatternHost) :
    CodePointTest :=
  let ranges := mergedRanges (rangeBoundsOf items)
  if caseFold then foldedRangeTest ranges negated host else rangeTest ranges negated

/-- The folds of the members that fold to several code points, each once. -/
def distinctMultiFolds (items : List SetItem) (host : PatternHost) : List (List Nat) :=
  items.foldl (fun folds item =>
    match item with
    | .member codePoint =>
      let fold := host.appendFoldedCodePoint codePoint
      if fold.length < 2 then folds
      else if fold ∈ folds then folds
      else folds ++ [fold]
    | _ => folds) []

def InClass (name : ClassName) (codePoint : Nat) : Prop := InSome (CLASS_RANGES name) codePoint

def SetItem.Holds (codePoint : Nat) : SetItem → Prop
  | .member own => codePoint = own
  | .range low high _ => low ≤ codePoint ∧ codePoint ≤ high
  | .charClass name => InClass name codePoint

def InSet (items : List SetItem) (codePoint : Nat) : Prop := ∃ item ∈ items, item.Holds codePoint

/-- A folded code point, or one that folds to it, is in the set. -/
def InFoldedSet (items : List SetItem) (host : PatternHost) (folded : Nat) : Prop :=
  InSet items folded ∨ ∃ source, (source, folded) ∈ host.singleFolds ∧ InSet items source

theorem CLASS_RANGES_ordered (name : ClassName) : ∀ pair ∈ CLASS_RANGES name, pair.1 ≤ pair.2 := by
  cases name <;> decide

theorem rangeBoundsOf_ordered (items : List SetItem) :
    ∀ pair ∈ rangeBoundsOf items, pair.1 ≤ pair.2 := by
  intro pair member
  obtain ⟨item, _, listed⟩ := List.mem_flatMap.mp member
  cases item with
  | member codePoint =>
    obtain rfl := List.mem_singleton.mp listed
    exact Nat.le_refl _
  | range low high ordered =>
    obtain rfl := List.mem_singleton.mp listed
    exact ordered
  | charClass name => exact CLASS_RANGES_ordered name pair listed

theorem inSome_rangeBoundsOf (items : List SetItem) (codePoint : Nat) :
    InSome (rangeBoundsOf items) codePoint ↔ InSet items codePoint := by
  have one : ∀ item : SetItem, InSome (boundsOf item) codePoint ↔ item.Holds codePoint := by
    intro item
    cases item with
    | member own =>
      simp only [boundsOf, InSome, List.mem_singleton, exists_eq_left, SetItem.Holds]
      omega
    | range low high ordered => simp [boundsOf, InSome, SetItem.Holds]
    | charClass name => rfl
  simp only [InSet, ← one, InSome, rangeBoundsOf, List.mem_flatMap]
  constructor
  · rintro ⟨range, ⟨item, member, listed⟩, inside⟩
    exact ⟨item, member, range, listed, inside⟩
  · rintro ⟨item, member, range, listed, inside⟩
    exact ⟨range, ⟨item, member, listed⟩, inside⟩

theorem inRanges_set (items : List SetItem) (codePoint : Nat) :
    inRanges (mergedRanges (rangeBoundsOf items)) codePoint = true ↔ InSet items codePoint := by
  obtain ⟨separated, same⟩ := mergedRanges_spec (rangeBoundsOf_ordered items)
  rw [inRanges_iff separated, same, inSome_rangeBoundsOf]

theorem classTest_has (name : ClassName) (codePoint : Nat) :
    (classTest name).has codePoint = true ↔ InClass name codePoint := by
  obtain ⟨separated, same⟩ := mergedRanges_spec (CLASS_RANGES_ordered name)
  simp only [classTest, rangeTest, Bool.bne_false]
  rw [inRanges_iff separated, same]
  rfl

theorem holdsFold_set (items : List SetItem) (host : PatternHost) (folded : Nat) :
    holdsFold (mergedRanges (rangeBoundsOf items)) host folded = true ↔
      InFoldedSet items host folded := by
  simp only [holdsFold, Bool.or_eq_true, inRanges_set, List.any_eq_true, singleFoldSourcesOf,
    List.mem_map, List.mem_filter, decide_eq_true_eq, InFoldedSet]
  constructor
  · rintro (own | ⟨source, ⟨fold, ⟨listed, same⟩, rfl⟩, held⟩)
    · exact Or.inl own
    · exact Or.inr ⟨fold.1, same ▸ listed, held⟩
  · rintro (own | ⟨source, listed, held⟩)
    · exact Or.inl own
    · exact Or.inr ⟨source, ⟨(source, folded), ⟨listed, rfl⟩, rfl⟩, held⟩

theorem bne_eq_true_iff_of_iff {b negated : Bool} {P : Prop} (h : b = true ↔ P) :
    (b != negated) = true ↔ (P ↔ negated = false) := by
  cases b <;> cases negated <;> simp_all

theorem setTest_has (items : List SetItem) (negated caseFold : Bool) (host : PatternHost)
    (codePoint : Nat) :
    (setTest items negated caseFold host).has codePoint = true ↔
      ((if caseFold then InFoldedSet items host codePoint else InSet items codePoint) ↔
        negated = false) := by
  cases caseFold
  · exact bne_eq_true_iff_of_iff (inRanges_set items codePoint)
  · exact bne_eq_true_iff_of_iff (holdsFold_set items host codePoint)

theorem distinctMultiFolds_mem (items : List SetItem) (host : PatternHost) (fold : List Nat) :
    fold ∈ distinctMultiFolds items host ↔
      2 ≤ fold.length ∧
        ∃ codePoint, SetItem.member codePoint ∈ items ∧
          host.appendFoldedCodePoint codePoint = fold := by
  have general : ∀ (rest : List SetItem) (folds : List (List Nat)),
      fold ∈ rest.foldl (fun folds item =>
        match item with
        | .member codePoint =>
          let fold := host.appendFoldedCodePoint codePoint
          if fold.length < 2 then folds
          else if fold ∈ folds then folds
          else folds ++ [fold]
        | _ => folds) folds ↔
      fold ∈ folds ∨ (2 ≤ fold.length ∧
        ∃ codePoint, SetItem.member codePoint ∈ rest ∧
          host.appendFoldedCodePoint codePoint = fold) := by
    intro rest
    induction rest with
    | nil => simp
    | cons item rest ih =>
      intro folds
      rw [List.foldl_cons, ih]
      cases item with
      | member codePoint =>
        simp only
        by_cases short : (host.appendFoldedCodePoint codePoint).length < 2
        · rw [if_pos short]
          grind
        · rw [if_neg short]
          by_cases known : host.appendFoldedCodePoint codePoint ∈ folds
          · rw [if_pos known]
            grind
          · rw [if_neg known]
            grind
      | range low high ordered => grind
      | charClass name => grind
  have all := general items []
  simpa [distinctMultiFolds] using all

end Narsil.Pattern
