import Narsil.Edits.Distance

/-!
# The distance within a tolerance

The rows of the distance table are filled in a band around the diagonal only, in two
arrays that are used in turn; what is past the tolerance is not told apart.
-/
namespace Narsil.Fuzzy

open Edits

structure FuzzyMatch where
  distance : Int
  withinTolerance : Bool
  cells : Nat
  deriving DecidableEq, Repr

/-- A row while it is filled, and its least cell so far. -/
structure Row where
  cells : List Nat
  rowMin : Nat

section Band
variable (a b : List Nat) (tolerance : Nat)

def bandLow (i : Nat) : Nat := max 1 (i - tolerance)
def bandHigh (i : Nat) : Nat := min b.length (i + tolerance)

def fillCell (i : Nat) (previous : List Nat) (row : Row) (j : Nat) : Row :=
  let substitution := previous.getD (j - 1) 0 + if a[i - 1]? = b[j - 1]? then 0 else 1
  let cell := min (min (min (previous.getD j 0 + 1) (row.cells.getD (j - 1) 0 + 1)) substitution)
    (tolerance + 1)
  { cells := row.cells.set j cell
    rowMin := if cell < row.rowMin then cell else row.rowMin }

/-- One row of the band, over what the array held before. -/
def fillRow (i : Nat) (previous current : List Nat) : Row :=
  let first := if bandLow tolerance i = 1 then i else tolerance + 1
  (List.range' (bandLow tolerance i) (bandHigh b tolerance i + 1 - bandLow tolerance i)).foldl
    (fillCell a b tolerance i previous) ⟨current.set (bandLow tolerance i - 1) first, first⟩

/-- The rows that are left; the finished one and the one before change places. -/
def fillRows : Nat → Nat → List Nat → List Nat → Nat → FuzzyMatch
  | 0, _, previous, _, cells =>
    let distance := previous.getD b.length 0
    ⟨distance, decide (distance ≤ tolerance), cells⟩
  | left + 1, i, previous, current, cells =>
    let row := fillRow a b tolerance i previous current
    let cells := cells + (bandHigh b tolerance i + 1 - bandLow tolerance i)
    if row.rowMin > tolerance then ⟨tolerance + 1, false, cells⟩
    else fillRows left (i + 1) row.cells previous cells

/-- The distances from the empty text, as far as the tolerance. -/
def firstRow : List Nat :=
  (List.range (b.length + 1)).map fun j => if j ≤ min b.length tolerance then j else tolerance + 1

def bandedDistance : FuzzyMatch :=
  if ((a.length : Int) - b.length).natAbs > tolerance then ⟨tolerance + 1, false, 0⟩
  else
    fillRows a b tolerance a.length 1 (firstRow b tolerance)
      (List.replicate (b.length + 1) (tolerance + 1)) 0

end Band

/-- Texts with surrogates are read as code points there, as all are here. -/
def tabulatedLevenshtein (a b : List Nat) (tolerance : Int) : FuzzyMatch :=
  if tolerance < 0 then ⟨-1, false, 0⟩ else bandedDistance a b tolerance.toNat

section Rows
variable {a b : List Nat} {tolerance : Nat}

/-- The distances of a row, none told apart past the tolerance. -/
def capped (a b : List Nat) (tolerance i j : Nat) : Nat := min (prefixDistance a b i j) (tolerance + 1)

theorem capped_above {i j : Nat} (left : i ≤ a.length) (right : j ≤ b.length) (far : i + tolerance < j) :
    capped a b tolerance i j = tolerance + 1 := by
  have apart := (le_prefixDistance (a := a) (b := b) left right).2
  rw [capped]
  omega

theorem capped_below {i j : Nat} (left : i ≤ a.length) (right : j ≤ b.length) (far : j + tolerance < i) :
    capped a b tolerance i j = tolerance + 1 := by
  have apart := (le_prefixDistance (a := a) (b := b) left right).1
  rw [capped]
  omega

theorem lt_capped {i j : Nat} : tolerance < capped a b tolerance i j ↔ tolerance < prefixDistance a b i j := by
  rw [capped]
  omega

/-- A finished row: right from the band's low end on. -/
structure Finished (a b : List Nat) (tolerance i : Nat) (row : List Nat) : Prop where
  length : row.length = b.length + 1
  right : ∀ j ≤ b.length, i ≤ j + tolerance → row[j]? = some (capped a b tolerance i j)

/-- An array to be filled: nothing is within past the band. -/
structure Unfilled (b : List Nat) (tolerance i : Nat) (row : List Nat) : Prop where
  length : row.length = b.length + 1
  beyond : ∀ j ≤ b.length, i + tolerance < j → row[j]? = some (tolerance + 1)

theorem Finished.unfilled {i : Nat} {row : List Nat} (left : i ≤ a.length)
    (finished : Finished a b tolerance i row) : Unfilled b tolerance i row where
  length := finished.length
  beyond j within far := by
    rw [finished.right j within (by omega), capped_above left within far]

theorem Unfilled.mono {i later : Nat} {row : List Nat} (unfilled : Unfilled b tolerance i row)
    (after : i ≤ later) : Unfilled b tolerance later row where
  length := unfilled.length
  beyond j within far := unfilled.beyond j within (by omega)

/-- A row that is filled up to a place. -/
structure Filled (a b : List Nat) (tolerance i : Nat) (current : List Nat) (upTo : Nat) (row : Row) :
    Prop where
  length : row.cells.length = b.length + 1
  right : ∀ j < upTo, bandLow tolerance i - 1 ≤ j → row.cells[j]? = some (capped a b tolerance i j)
  untouched : ∀ j, upTo ≤ j → row.cells[j]? = current[j]?
  least : tolerance < row.rowMin ↔
    ∀ j < upTo, bandLow tolerance i - 1 ≤ j → tolerance < capped a b tolerance i j

theorem fillCell_filled {i j : Nat} {previous current : List Nat} {row : Row} (left : i < a.length)
    (finished : Finished a b tolerance i previous) (low : bandLow tolerance (i + 1) ≤ j)
    (high : j ≤ b.length) (filled : Filled a b tolerance (i + 1) current j row) :
    Filled a b tolerance (i + 1) current (j + 1) (fillCell a b tolerance (i + 1) previous row j) := by
  obtain ⟨j, rfl⟩ : ∃ before, j = before + 1 := ⟨j - 1, by rw [bandLow] at low; omega⟩
  have band : i ≤ j + tolerance := by
    rw [bandLow] at low
    omega
  have above := finished.right (j + 1) high (by omega)
  have corner := finished.right j (by omega) band
  have beside := filled.right j (by omega) (by omega)
  have cell : min (min (min (previous.getD (j + 1) 0 + 1) (row.cells.getD j 0 + 1))
      (previous.getD j 0 + if a[i]? = b[j]? then 0 else 1)) (tolerance + 1) =
      capped a b tolerance (i + 1) (j + 1) := by
    rw [List.getD_eq_getElem?_getD, above, List.getD_eq_getElem?_getD, beside,
      List.getD_eq_getElem?_getD, corner]
    simp only [Option.getD_some, capped, prefixDistance_succ left high]
    omega
  simp only [fillCell, Nat.add_sub_cancel, cell]
  constructor
  · rw [List.length_set, filled.length]
  · intro k less from_low
    rw [List.getElem?_set, filled.length]
    split
    · next same =>
      subst same
      rw [if_pos (by omega)]
    · next other => exact filled.right k (by omega) from_low
  · intro k after
    rw [List.getElem?_set, if_neg (by omega)]
    exact filled.untouched k (by omega)
  · have split_least : tolerance <
        (if capped a b tolerance (i + 1) (j + 1) < row.rowMin then capped a b tolerance (i + 1) (j + 1)
          else row.rowMin) ↔
        tolerance < row.rowMin ∧ tolerance < capped a b tolerance (i + 1) (j + 1) := by
      split <;> omega
    rw [split_least, filled.least]
    constructor
    · rintro ⟨before, here⟩ k less from_low
      rcases Nat.lt_or_eq_of_le (Nat.le_of_lt_succ less) with earlier | rfl
      · exact before k earlier from_low
      · exact here
    · intro all
      exact ⟨fun k less => all k (by omega), all (j + 1) (by omega) (by omega)⟩

theorem foldl_fillCell_filled {i : Nat} {previous current : List Nat} (left : i < a.length)
    (finished : Finished a b tolerance i previous) (count j : Nat) {row : Row}
    (low : bandLow tolerance (i + 1) ≤ j) (high : j + count ≤ b.length + 1)
    (filled : Filled a b tolerance (i + 1) current j row) :
    Filled a b tolerance (i + 1) current (j + count)
      ((List.range' j count).foldl (fillCell a b tolerance (i + 1) previous) row) := by
  induction count generalizing j row with
  | zero => exact filled
  | succ count ih =>
    rw [List.range'_succ, List.foldl_cons]
    have one := fillCell_filled left finished low (by omega) filled
    have rest := ih (j + 1) (by omega) (by omega) one
    rwa [Nat.add_assoc, Nat.add_comm 1] at rest

/-- A row filled over the array before the last is finished, and its least cell is past the
    tolerance just when the whole row is. -/
theorem fillRow_spec {i : Nat} {previous current : List Nat} (left : i < a.length)
    (near : a.length ≤ b.length + tolerance) (finished : Finished a b tolerance i previous)
    (unfilled : Unfilled b tolerance (i + 1) current) :
    Finished a b tolerance (i + 1) (fillRow a b tolerance (i + 1) previous current).cells ∧
      (tolerance < (fillRow a b tolerance (i + 1) previous current).rowMin ↔
        ∀ j ≤ b.length, tolerance < prefixDistance a b (i + 1) j) := by
  have low_le : bandLow tolerance (i + 1) ≤ bandHigh b tolerance (i + 1) + 1 := by
    rw [bandLow, bandHigh]
    omega
  have first : (if bandLow tolerance (i + 1) = 1 then i + 1 else tolerance + 1) =
      capped a b tolerance (i + 1) (bandLow tolerance (i + 1) - 1) := by
    split
    · next at_left =>
      rw [at_left, capped, prefixDistance_zero_right left]
      rw [bandLow] at at_left
      omega
    · next inside =>
      rw [bandLow] at *
      rw [capped_below left (by omega) (by omega)]
  have start : Filled a b tolerance (i + 1) current (bandLow tolerance (i + 1))
      ⟨current.set (bandLow tolerance (i + 1) - 1)
        (if bandLow tolerance (i + 1) = 1 then i + 1 else tolerance + 1),
        if bandLow tolerance (i + 1) = 1 then i + 1 else tolerance + 1⟩ := by
    rw [first]
    have positive : 1 ≤ bandLow tolerance (i + 1) := by
      rw [bandLow]
      omega
    constructor
    · rw [List.length_set, unfilled.length]
    · intro j less from_low
      obtain rfl : j = bandLow tolerance (i + 1) - 1 := by omega
      rw [List.getElem?_set_self]
      rw [unfilled.length]
      rw [bandHigh] at low_le
      omega
    · intro j after
      rw [List.getElem?_set_ne (by omega)]
    · constructor
      · intro past j less from_low
        obtain rfl : j = bandLow tolerance (i + 1) - 1 := by omega
        exact past
      · exact fun all => all _ (by omega) (by omega)
  have filled := foldl_fillCell_filled left finished
    (bandHigh b tolerance (i + 1) + 1 - bandLow tolerance (i + 1)) _ (Nat.le_refl _)
    (by rw [Nat.add_sub_cancel' low_le, bandHigh]; omega) start
  rw [Nat.add_sub_cancel' low_le] at filled
  change Filled a b tolerance (i + 1) current _ (fillRow a b tolerance (i + 1) previous current) at filled
  constructor
  · refine ⟨filled.length, ?_⟩
    intro j within from_low
    by_cases inside : j < bandHigh b tolerance (i + 1) + 1
    · apply filled.right j inside
      rw [bandLow]
      omega
    · have far : i + 1 + tolerance < j := by
        rw [bandHigh] at inside
        omega
      rw [filled.untouched j (by omega), unfilled.beyond j within far, capped_above left within far]
  · rw [filled.least]
    constructor
    · intro all j within
      by_cases below : j < bandLow tolerance (i + 1) - 1
      · rw [← lt_capped, capped_below left within (by rw [bandLow] at below; omega)]
        omega
      · by_cases inside : j < bandHigh b tolerance (i + 1) + 1
        · exact lt_capped.mp (all j inside (by omega))
        · rw [← lt_capped, capped_above left within (by rw [bandHigh] at inside; omega)]
          omega
    · intro all j less from_low
      apply lt_capped.mpr
      apply all
      rw [bandHigh] at less
      omega

/-- The answer the table is filled for. -/
def Answers (a b : List Nat) (tolerance : Nat) (found : FuzzyMatch) : Prop :=
  found.distance = min (editDistance a b) (tolerance + 1) ∧
    (found.withinTolerance = true ↔ editDistance a b ≤ tolerance)

theorem fillRows_answers (near : a.length ≤ b.length + tolerance) (left : Nat) {i cells : Nat}
    {previous current : List Nat} (rows : i + left = a.length)
    (finished : Finished a b tolerance i previous) (unfilled : Unfilled b tolerance (i + 1) current) :
    Answers a b tolerance (fillRows a b tolerance left (i + 1) previous current cells) := by
  induction left generalizing i cells previous current with
  | zero =>
    have last := finished.right b.length (Nat.le_refl _) (by omega)
    obtain rfl : i = a.length := rows
    rw [capped, prefixDistance_full] at last
    have cell : previous.getD b.length 0 = min (editDistance a b) (tolerance + 1) := by
      rw [List.getD_eq_getElem?_getD, last, Option.getD_some]
    rw [fillRows, cell]
    constructor
    · rfl
    · simp only [decide_eq_true_eq]
      omega
  | succ left ih =>
    obtain ⟨next_finished, least⟩ := fillRow_spec (by omega) near finished unfilled
    rw [fillRows]
    split
    · next past =>
      have far := prefixDistance_past (least.mp past) (by omega : i + 1 ≤ a.length) (Nat.le_refl _)
        b.length (Nat.le_refl _)
      rw [prefixDistance_full] at far
      constructor
      · dsimp only
        omega
      · simp only [Bool.false_eq_true, false_iff]
        omega
    · exact ih (by omega) next_finished ((finished.unfilled (by omega)).mono (by omega))

end Rows

theorem bandedDistance_answers (a b : List Nat) (tolerance : Nat) :
    Answers a b tolerance (bandedDistance a b tolerance) := by
  have lengths := length_le_editDistance a b
  rw [bandedDistance]
  split
  · next apart =>
    constructor
    · dsimp only
      omega
    · simp only [Bool.false_eq_true, false_iff]
      omega
  · next near =>
    apply fillRows_answers (by omega) a.length (Nat.zero_add _)
    · constructor
      · rw [firstRow, List.length_map, List.length_range]
      · intro j within _
        rw [firstRow, List.getElem?_map, List.getElem?_range (by omega), Option.map_some, capped,
          prefixDistance_zero_left within]
        split <;> simp only [Option.some.injEq] <;> omega
    · constructor
      · rw [List.length_replicate]
      · intro j within _
        rw [List.getElem?_replicate, if_pos (by omega)]

theorem tabulatedLevenshtein_withinTolerance (a b : List Nat) (tolerance : Int) :
    (tabulatedLevenshtein a b tolerance).withinTolerance = true ↔ (editDistance a b : Int) ≤ tolerance := by
  rw [tabulatedLevenshtein]
  split
  · next negative =>
    simp only [Bool.false_eq_true, false_iff]
    omega
  · rw [(bandedDistance_answers a b tolerance.toNat).2]
    omega

end Narsil.Fuzzy
