import Mathlib.Algebra.Order.Ring.Rat
import Narsil.Ordering.Strings

/-!
# Comparing sort values

A sort key holds one value a field, or none where the document has none. Numbers come
before strings and these before booleans; a missing value comes last either way.
-/
namespace Narsil.Ordering

/-- A number: a finite one by its exact value. -/
inductive JsNumber
  | finite (value : ℚ)
  | infinite (positive : Bool)
  | nan
  deriving DecidableEq, Repr

def JsNumber.isFinite : JsNumber → Bool
  | .finite _ => true
  | _ => false

def JsNumber.lt : JsNumber → JsNumber → Bool
  | .nan, _ => false
  | _, .nan => false
  | .finite left, .finite right => left < right
  | .finite _, .infinite positive => positive
  | .infinite positive, .finite _ => !positive
  | .infinite left, .infinite right => !left && right

/-- The strict equality of numbers; none equals what is not a number. -/
def JsNumber.same : JsNumber → JsNumber → Bool
  | .nan, _ => false
  | left, right => left = right

/-- A value as a document holds it. -/
inductive RawValue
  | text (value : JsString)
  | number (value : JsNumber)
  | boolean (value : Bool)
  /-- Nothing, a null, a list or an object. -/
  | other
  deriving DecidableEq, Repr

inductive SortValue
  | number (value : ℚ)
  | text (value : JsString)
  | boolean (value : Bool)
  deriving DecidableEq, Repr

/-- The value of a field in a sort key; missing is null. -/
abbrev ComparableSortValue := Option SortValue

inductive SortDirection
  | asc | desc
  deriving DecidableEq, Repr

inductive SortMode
  | min | max | avg | median
  deriving DecidableEq, Repr

def toComparableSortValue : RawValue → ComparableSortValue
  | .text value => some (.text (truncateSortString value))
  | .number (.finite value) => some (.number value)
  | .number _ => none
  | .boolean value => some (.boolean value)
  | .other => none

/-- A comparable value, read again as a value. -/
def rawOf : ComparableSortValue → RawValue
  | some (.number value) => .number (.finite value)
  | some (.text value) => .text value
  | some (.boolean value) => .boolean value
  | none => .other

def typeRank : SortValue → Nat
  | .number _ => 0
  | .text _ => 1
  | .boolean _ => 2

variable (table : FoldTable)

def comparePresentValues (left right : SortValue) : Ordering :=
  (compare (typeRank left) (typeRank right)).then
    (match left, right with
    | .number left, .number right => compare left right
    | .text left, .text right => compareSortStrings table left right
    | .boolean left, .boolean right => if left = right then .eq else if left then .gt else .lt
    | _, _ => .eq)

def compareComparableValues (left right : ComparableSortValue) (direction : SortDirection) : Ordering :=
  match left, right with
  | none, none => .eq
  | none, some _ => .gt
  | some _, none => .lt
  | some left, some right =>
    match direction with
    | .asc => comparePresentValues table left right
    | .desc => (comparePresentValues table left right).swap

/-- Field by field; the first that separates the keys decides. -/
def compareComparableKeys (left right : List ComparableSortValue) : List SortDirection → Ordering
  | [] => .eq
  | direction :: directions =>
    (compareComparableValues table (left.head?.getD none) (right.head?.getD none) direction).then
      (compareComparableKeys left.tail right.tail directions)

/-- The same over values as documents hold them. -/
def compareSortValues (left right : List RawValue) : List SortDirection → Ordering
  | [] => .eq
  | direction :: directions =>
    (compareComparableValues table (toComparableSortValue (left.head?.getD .other))
        (toComparableSortValue (right.head?.getD .other)) direction).then
      (compareSortValues left.tail right.tail directions)

section Orders
variable {table} {α β : Type*}

theorem transCmp_on (cmp : β → β → Ordering) [Std.TransCmp cmp] (read : α → β) :
    Std.TransCmp fun left right => cmp (read left) (read right) where
  eq_swap := Std.OrientedCmp.eq_swap
  isLE_trans := Std.TransCmp.isLE_trans

def numberOf : SortValue → ℚ
  | .number value => value
  | _ => 0

def textOf : SortValue → JsString
  | .text value => value
  | _ => []

def booleanOf : SortValue → Bool
  | .boolean value => value
  | _ => false

theorem comparePresentValues_eq : comparePresentValues table =
    compareLex (compareOn typeRank) (compareLex (compareOn numberOf)
      (compareLex (fun left right => compareSortStrings table (textOf left) (textOf right))
        (compareOn booleanOf))) := by
  have noText : compareSortStrings table [] [] = .eq := rfl
  funext left right
  cases left <;> cases right <;> try rfl
  next left right => simp [comparePresentValues, compareLex, compareOn, typeRank, numberOf, textOf, booleanOf, noText]
  next left right => simp [comparePresentValues, compareLex, compareOn, typeRank, numberOf, textOf, booleanOf]
  next left right => cases left <;> cases right <;> rfl

instance transCmp_rat : Std.TransCmp fun left right : ℚ => compare left right := inferInstance

instance : Std.TransCmp (comparePresentValues table) := by
  have byText : Std.TransCmp fun left right : SortValue =>
      compareSortStrings table (textOf left) (textOf right) := transCmp_on (compareSortStrings table) textOf
  rw [comparePresentValues_eq]
  infer_instance

/-- A missing value is last in both directions. -/
def nullsLast (cmp : SortValue → SortValue → Ordering) : ComparableSortValue → ComparableSortValue → Ordering
  | none, none => .eq
  | none, some _ => .gt
  | some _, none => .lt
  | some left, some right => cmp left right

instance (cmp : SortValue → SortValue → Ordering) [Std.TransCmp cmp] : Std.TransCmp (nullsLast cmp) where
  eq_swap {left right} := by
    cases left <;> cases right <;> try rfl
    next left right => exact (Std.OrientedCmp.eq_swap : cmp left right = _)
  isLE_trans {first second third} before later := by
    cases first <;> cases second <;> cases third <;> first | rfl | contradiction | skip
    next first second third =>
      change (cmp first third).isLE
      exact Std.TransCmp.isLE_trans (before : (cmp first second).isLE) later

theorem compareComparableValues_eq (direction : SortDirection) :
    (fun left right => compareComparableValues table left right direction) =
      nullsLast (match direction with
        | .asc => comparePresentValues table
        | .desc => fun left right => comparePresentValues table right left) := by
  funext left right
  cases direction <;> cases left <;> cases right <;> try rfl
  exact Std.OrientedCmp.eq_swap.symm

instance (direction : SortDirection) :
    Std.TransCmp fun left right => compareComparableValues table left right direction := by
  rw [compareComparableValues_eq]
  cases direction <;> infer_instance

instance (directions : List SortDirection) :
    Std.TransCmp fun left right => compareComparableKeys table left right directions := by
  induction directions with
  | nil => exact { eq_swap := rfl, isLE_trans := fun _ _ => rfl }
  | cons direction directions ih =>
    have first : Std.TransCmp fun left right : List ComparableSortValue =>
        compareComparableValues table (left.head?.getD none) (right.head?.getD none) direction :=
      transCmp_on (fun left right => compareComparableValues table left right direction)
        fun key : List ComparableSortValue => key.head?.getD none
    have rest : Std.TransCmp fun left right : List ComparableSortValue =>
        compareComparableKeys table left.tail right.tail directions :=
      transCmp_on (fun left right => compareComparableKeys table left right directions)
        fun key : List ComparableSortValue => key.tail
    exact inferInstanceAs (Std.TransCmp (compareLex _ _))

instance (directions : List SortDirection) :
    Std.TransCmp fun left right => compareSortValues table left right directions := by
  induction directions with
  | nil => exact { eq_swap := rfl, isLE_trans := fun _ _ => rfl }
  | cons direction directions ih =>
    have first : Std.TransCmp fun left right : List RawValue =>
        compareComparableValues table (toComparableSortValue (left.head?.getD .other))
          (toComparableSortValue (right.head?.getD .other)) direction :=
      transCmp_on (fun left right => compareComparableValues table left right direction)
        fun key : List RawValue => toComparableSortValue (key.head?.getD .other)
    have rest : Std.TransCmp fun left right : List RawValue =>
        compareSortValues table left.tail right.tail directions :=
      transCmp_on (fun left right => compareSortValues table left right directions)
        fun key : List RawValue => key.tail
    exact inferInstanceAs (Std.TransCmp (compareLex _ _))

end Orders

end Narsil.Ordering
