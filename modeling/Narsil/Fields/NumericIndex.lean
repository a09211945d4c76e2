import Mathlib.Algebra.Order.Ring.Rat
import Mathlib.Data.Finset.Card
import Mathlib.Data.List.Sort
import Narsil.Bits.Algebra
import Narsil.Search.Bisection

/-!
# The growing index of a numeric field

Entries are sorted by their values. What was inserted since, and what was removed since,
is kept aside: a removal takes one entry of its document and value, and of the pending
entries only one that was there when it was called. Values are of any linear order.
-/
namespace Narsil.Fields

open Bits Search

structure NumericIndexEntry (V : Type) where
  value : V
  docId : Nat
  deriving DecidableEq, Repr

/-- A removal, and how many entries were pending when it was called. -/
structure Removal (V : Type) where
  docId : Nat
  value : V
  limit : Nat
  deriving DecidableEq, Repr

/-- The removals of one document and value; the limits are those not used up. -/
structure PendingRemovals (V : Type) where
  docId : Nat
  value : V
  limits : List Nat
  deriving DecidableEq, Repr

variable {V : Type} [LinearOrder V]

def PENDING_REMOVAL_MERGE_FLOOR : ℚ := 64
def PENDING_REMOVAL_MERGE_DIVISOR : ℚ := 256

def lowerBound (entries : List (NumericIndexEntry V)) (value : V) : Nat :=
  bisect (fun entry => decide (entry.value < value)) entries

def upperBound (entries : List (NumericIndexEntry V)) (value : V) : Nat :=
  bisect (fun entry => decide (entry.value ≤ value)) entries

def collectDocIds (entries : List (NumericIndexEntry V)) (start finish : Nat) : List Nat :=
  ((entries.take finish).drop start).map NumericIndexEntry.docId

def collectDocIdsBitset (entries : List (NumericIndexEntry V)) (start finish capacity : Nat) : Bitset :=
  Bitset.ofList (collectDocIds entries start finish) capacity

def PendingRemovals.isFor (key : PendingRemovals V) (docId : Nat) (value : V) : Bool :=
  key.docId = docId ∧ key.value = value

def removalsFor (grouped : List (PendingRemovals V)) (docId : Nat) (value : V) : Option (PendingRemovals V) :=
  grouped.find? (·.isFor docId value)

/-- The limits of a document and value are replaced. -/
def setLimits (grouped : List (PendingRemovals V)) (docId : Nat) (value : V) (limits : List Nat) :
    List (PendingRemovals V) :=
  grouped.map fun key => if key.isFor docId value then { key with limits } else key

def groupRemoval (grouped : List (PendingRemovals V)) (removal : Removal V) : List (PendingRemovals V) :=
  match removalsFor grouped removal.docId removal.value with
  | some existing => setLimits grouped removal.docId removal.value (existing.limits ++ [removal.limit])
  | none => grouped ++ [⟨removal.docId, removal.value, [removal.limit]⟩]

def groupRemovals (removed : List (Removal V)) : List (PendingRemovals V) := removed.foldl groupRemoval []

def markedDocuments (removed : List (Removal V)) (docId : Nat) : Bool := removed.any (·.docId = docId)

/-- Whether an entry is removed, and the removals left. A sorted entry is removed by any
    removal of its document and value. -/
def removesSorted (marked : Nat → Bool) (grouped : List (PendingRemovals V)) (entry : NumericIndexEntry V) :
    Bool × List (PendingRemovals V) :=
  if marked entry.docId then
    match removalsFor grouped entry.docId entry.value with
    | none => (false, grouped)
    | some key =>
      match key.limits with
      | [] => (false, grouped)
      | _ :: limits => (true, setLimits grouped entry.docId entry.value limits)
  else (false, grouped)

/-- A pending entry is removed only by a removal that was called after it was inserted. -/
def removesPending (marked : Nat → Bool) (grouped : List (PendingRemovals V)) (read : Nat)
    (entry : NumericIndexEntry V) : Bool × List (PendingRemovals V) :=
  if marked entry.docId then
    match removalsFor grouped entry.docId entry.value with
    | none => (false, grouped)
    | some key =>
      match key.limits.dropWhile (· ≤ read) with
      | [] => (false, setLimits grouped entry.docId entry.value [])
      | _ :: limits => (true, setLimits grouped entry.docId entry.value limits)
  else (false, grouped)

def removeEachSorted (marked : Nat → Bool) :
    List (PendingRemovals V) → List (NumericIndexEntry V) → List (NumericIndexEntry V) × List (PendingRemovals V)
  | grouped, [] => ([], grouped)
  | grouped, entry :: rest =>
    let (removes, later) := removesSorted marked grouped entry
    let (kept, last) := removeEachSorted marked later rest
    (if removes then kept else entry :: kept, last)

/-- The entries before `start` stay. -/
def removeFromSorted (entries : List (NumericIndexEntry V)) (start : Nat) (marked : Nat → Bool)
    (grouped : List (PendingRemovals V)) : List (NumericIndexEntry V) × List (PendingRemovals V) :=
  let (kept, later) := removeEachSorted marked grouped (entries.drop start)
  (entries.take start ++ kept, later)

def removeFromPending (marked : Nat → Bool) :
    Nat → List (PendingRemovals V) → List (NumericIndexEntry V) → List (NumericIndexEntry V)
  | _, _, [] => []
  | read, grouped, entry :: rest =>
    let (removes, later) := removesPending marked grouped read entry
    let kept := removeFromPending marked (read + 1) later rest
    if removes then kept else entry :: kept

def byValue (left right : NumericIndexEntry V) : Prop := left.value ≤ right.value

instance : DecidableRel (byValue (V := V)) := fun left right => inferInstanceAs (Decidable (left.value ≤ right.value))

def sortEntries (entries : List (NumericIndexEntry V)) : List (NumericIndexEntry V) := entries.insertionSort byValue

/-- Both lists are read from their ends; of the entries, those above the next pending one
    are written first. -/
def mergeFromEnd : List (NumericIndexEntry V) → List (NumericIndexEntry V) → List (NumericIndexEntry V) →
    List (NumericIndexEntry V)
  | [], left, merged => left.reverse ++ merged
  | entry :: rest, left, merged =>
    mergeFromEnd rest (left.dropWhile fun other => decide (entry.value < other.value))
      (entry :: ((left.takeWhile fun other => decide (entry.value < other.value)).reverse ++ merged))

def mergeSortedPending (entries pending : List (NumericIndexEntry V)) : List (NumericIndexEntry V) :=
  mergeFromEnd (sortEntries pending).reverse entries.reverse []

structure NumericIndex (V : Type) where
  entries : List (NumericIndexEntry V)
  pending : List (NumericIndexEntry V)
  removed : List (Removal V)
  deriving DecidableEq, Repr

def createNumericIndex : NumericIndex V := ⟨[], [], []⟩

namespace NumericIndex

def lowestRemoved (first : Removal V) (removed : List (Removal V)) : V :=
  removed.foldl (fun lowest removal => if removal.value < lowest then removal.value else lowest) first.value

def applyRemovals (index : NumericIndex V) (first : Removal V) : NumericIndex V :=
  let marked := markedDocuments index.removed
  let (entries, later) := removeFromSorted index.entries
    (lowerBound index.entries (lowestRemoved first index.removed)) marked (groupRemovals index.removed)
  { entries, pending := removeFromPending marked 0 later index.pending, removed := [] }

def applyHeldBack (index : NumericIndex V) : NumericIndex V :=
  match index.removed with
  | [] => index
  | first :: _ => index.applyRemovals first

def ensureSorted (index : NumericIndex V) : NumericIndex V :=
  let applied := index.applyHeldBack
  if applied.pending = [] then applied
  else if applied.entries = [] then ⟨sortEntries applied.pending, [], applied.removed⟩
  else ⟨mergeSortedPending applied.entries applied.pending, [], applied.removed⟩

def insert (index : NumericIndex V) (docId : Nat) (value : V) : NumericIndex V :=
  { index with pending := index.pending ++ [⟨value, docId⟩] }

def remove (index : NumericIndex V) (docId : Nat) (value : V) : NumericIndex V :=
  let removed := index.removed ++ [⟨docId, value, index.pending.length⟩]
  let later := { index with removed }
  let held : ℚ := index.entries.length + index.pending.length
  if max PENDING_REMOVAL_MERGE_FLOOR (held / PENDING_REMOVAL_MERGE_DIVISOR) ≤ (removed.length : ℚ) then
    later.ensureSorted
  else later

end NumericIndex

/-- The queries that read a part of the sorted entries. -/
inductive Query (V : Type)
  | eq (value : V)
  | gt (value : V)
  | gte (value : V)
  | lt (value : V)
  | lte (value : V)
  | between (min max : V)
  | all

/-- Where the part starts and ends. -/
def Query.bounds (entries : List (NumericIndexEntry V)) : Query V → Nat × Nat
  | eq value => (lowerBound entries value, upperBound entries value)
  | gt value => (upperBound entries value, entries.length)
  | gte value => (lowerBound entries value, entries.length)
  | lt value => (0, lowerBound entries value)
  | lte value => (0, upperBound entries value)
  | between min max => (lowerBound entries min, upperBound entries max)
  | all => (0, entries.length)

def query (entries : List (NumericIndexEntry V)) (asked : Query V) : List Nat :=
  collectDocIds entries (asked.bounds entries).1 (asked.bounds entries).2

def queryBitset (entries : List (NumericIndexEntry V)) (asked : Query V) (capacity : Nat) : Bitset :=
  collectDocIdsBitset entries (asked.bounds entries).1 (asked.bounds entries).2 capacity

def queryNe (entries : List (NumericIndexEntry V)) (value : V) : List Nat :=
  (entries.map NumericIndexEntry.docId).filter fun docId => decide (docId ∉ query entries (.eq value))

/-- The documents of each run of one value. -/
def valueRuns : List (NumericIndexEntry V) → List (V × List Nat)
  | [] => []
  | entry :: rest =>
    match valueRuns rest with
    | [] => [(entry.value, [entry.docId])]
    | (value, docIds) :: runs =>
      if entry.value = value then (value, entry.docId :: docIds) :: runs
      else (entry.value, [entry.docId]) :: (value, docIds) :: runs

def countRun (matched : Bitset) : List Nat → Nat
  | [docId] => if matched.has docId then 1 else 0
  | docIds => (docIds.filter matched.has).toFinset.card

def facetValueCounts (entries : List (NumericIndexEntry V)) (matched : Bitset) : List (V × Nat) :=
  (valueRuns entries).filterMap fun (value, docIds) =>
    if countRun matched docIds > 0 then some (value, countRun matched docIds) else none

def facetRangeCount (entries : List (NumericIndexEntry V)) (start finish : V) (matched : Bitset) : Nat :=
  ((collectDocIds entries (lowerBound entries start) (lowerBound entries finish)).filter matched.has).toFinset.card

/-- Entries by ascending values. -/
def Sorted (entries : List (NumericIndexEntry V)) : Prop := entries.Pairwise byValue

theorem Sorted.leading_lt {entries : List (NumericIndexEntry V)} (sorted : Sorted entries) (value : V) :
    Leading (fun entry : NumericIndexEntry V => decide (entry.value < value)) entries :=
  sorted.imp fun order later => by
    rw [decide_eq_true_eq] at later ⊢
    exact lt_of_le_of_lt order later

theorem Sorted.leading_le {entries : List (NumericIndexEntry V)} (sorted : Sorted entries) (value : V) :
    Leading (fun entry : NumericIndexEntry V => decide (entry.value ≤ value)) entries :=
  sorted.imp fun order later => by
    rw [decide_eq_true_eq] at later ⊢
    exact le_trans order later

/-- The entry a removal is of. -/
def Removal.entry (removal : Removal V) : NumericIndexEntry V := ⟨removal.value, removal.docId⟩

/-- The limits of the removals of an entry, in the order of the calls. -/
def limitsOf (removed : List (Removal V)) (entry : NumericIndexEntry V) : List Nat :=
  (removed.filter fun removal => removal.entry = entry).map Removal.limit

/-- The limits left of an entry. -/
def limitsLeft (grouped : List (PendingRemovals V)) (entry : NumericIndexEntry V) : List Nat :=
  match removalsFor grouped entry.docId entry.value with
  | none => []
  | some key => key.limits

section Removing
variable {grouped : List (PendingRemovals V)} {entry other : NumericIndexEntry V}

theorem isFor_iff {key : PendingRemovals V} {docId : Nat} {value : V} :
    key.isFor docId value = true ↔ key.docId = docId ∧ key.value = value := by
  rw [PendingRemovals.isFor, decide_eq_true_eq]

theorem limitsLeft_setLimits (known : (removalsFor grouped entry.docId entry.value).isSome = true)
    (limits : List Nat) : limitsLeft (setLimits grouped entry.docId entry.value limits) other =
      if other = entry then limits else limitsLeft grouped other := by
  have keeps : ∀ key : PendingRemovals V, ∀ docId value,
      (if key.isFor entry.docId entry.value then { key with limits } else key).isFor docId value =
        key.isFor docId value := by
    intro key docId value
    split <;> rfl
  rw [limitsLeft, limitsLeft, removalsFor, removalsFor, setLimits, List.find?_map]
  have same_test : ((fun key : PendingRemovals V => key.isFor other.docId other.value) ∘ fun key : PendingRemovals V =>
      if key.isFor entry.docId entry.value then { key with limits } else key) =
        fun key => key.isFor other.docId other.value := funext fun key => keeps key _ _
  rw [same_test]
  by_cases same : other = entry
  · subst same
    obtain ⟨key, found⟩ := Option.isSome_iff_exists.mp known
    rw [removalsFor] at found
    rw [found, if_pos rfl]
    have own : key.isFor other.docId other.value = true := by simpa using List.find?_some found
    simp [own]
  · rw [if_neg same]
    cases found : grouped.find? fun key => key.isFor other.docId other.value with
    | none => rfl
    | some key =>
      have own := isFor_iff.mp (by simpa using List.find?_some found)
      have different : key.isFor entry.docId entry.value = false := by
        rw [← Bool.not_eq_true, isFor_iff]
        rintro ⟨docId, value⟩
        apply same
        cases other
        cases entry
        simp_all
      simp [different]

theorem limitsLeft_groupRemoval (grouped : List (PendingRemovals V)) (removal : Removal V)
    (entry : NumericIndexEntry V) : limitsLeft (groupRemoval grouped removal) entry =
      limitsLeft grouped entry ++ if removal.entry = entry then [removal.limit] else [] := by
  rw [groupRemoval]
  cases found : removalsFor grouped removal.docId removal.value with
  | some existing =>
    have known : (removalsFor grouped removal.entry.docId removal.entry.value).isSome = true := by
      rw [Removal.entry, found]
      rfl
    refine (limitsLeft_setLimits known _).trans ?_
    by_cases same : removal.entry = entry
    · subst same
      rw [if_pos rfl, if_pos rfl, limitsLeft, Removal.entry, found]
    · rw [if_neg same, if_neg fun eq => same eq.symm, List.append_nil]
  | none =>
    dsimp only
    rw [limitsLeft, limitsLeft, removalsFor, List.find?_append]
    by_cases same : removal.entry = entry
    · subst same
      rw [if_pos rfl, Removal.entry]
      rw [removalsFor] at found
      rw [removalsFor, found]
      simp [PendingRemovals.isFor]
    · rw [if_neg same, List.append_nil, ← removalsFor]
      cases removalsFor grouped entry.docId entry.value with
      | some key => rfl
      | none =>
        have different : PendingRemovals.isFor ⟨removal.docId, removal.value, [removal.limit]⟩
            entry.docId entry.value = false := by
          rw [← Bool.not_eq_true, isFor_iff]
          rintro ⟨docId, value⟩
          exact same (by cases entry; simp_all [Removal.entry])
        simp [different]

theorem limitsLeft_groupRemovals (removed : List (Removal V)) (entry : NumericIndexEntry V) :
    limitsLeft (groupRemovals removed) entry = limitsOf removed entry := by
  have general : ∀ grouped, limitsLeft (removed.foldl groupRemoval grouped) entry =
      limitsLeft grouped entry ++ limitsOf removed entry := by
    induction removed with
    | nil => exact fun grouped => (List.append_nil _).symm
    | cons removal rest ih =>
      intro grouped
      rw [List.foldl_cons, ih, limitsLeft_groupRemoval, limitsOf, limitsOf, List.filter_cons, List.append_assoc]
      by_cases same : removal.entry = entry
      · simp [same]
      · simp [same]
  exact general []

theorem removesSorted_spec {marked : Nat → Bool}
    (marks : ∀ entry, limitsLeft grouped entry ≠ [] → marked entry.docId = true) (entry : NumericIndexEntry V) :
    ((removesSorted marked grouped entry).1 = true ↔ limitsLeft grouped entry ≠ []) ∧
      ∀ other, limitsLeft (removesSorted marked grouped entry).2 other =
        if other = entry then (limitsLeft grouped entry).tail else limitsLeft grouped other := by
  rw [removesSorted]
  by_cases is_marked : marked entry.docId = true
  · rw [if_pos is_marked]
    cases found : removalsFor grouped entry.docId entry.value with
    | none =>
      have none_left : limitsLeft grouped entry = [] := by rw [limitsLeft, found]
      refine ⟨by simp [none_left], fun other => ?_⟩
      by_cases same : other = entry
      · simp [same, none_left]
      · simp [same]
    | some key =>
      have left : limitsLeft grouped entry = key.limits := by rw [limitsLeft, found]
      obtain ⟨docId, value, limits⟩ := key
      cases limits with
      | nil =>
        refine ⟨by simp [left], fun other => ?_⟩
        by_cases same : other = entry
        · simp [same, left]
        · simp [same]
      | cons limit rest =>
        refine ⟨by simp [left], fun other => ?_⟩
        rw [limitsLeft_setLimits (by rw [found]; rfl), left, List.tail_cons]
  · rw [if_neg is_marked]
    have none_left : limitsLeft grouped entry = [] := by
      by_contra some_left
      exact is_marked (marks entry some_left)
    refine ⟨by simp [none_left], fun other => ?_⟩
    by_cases same : other = entry
    · simp [same, none_left]
    · simp [same]

theorem removesPending_spec {marked : Nat → Bool}
    (marks : ∀ entry, limitsLeft grouped entry ≠ [] → marked entry.docId = true) (read : Nat)
    (entry : NumericIndexEntry V) :
    ((removesPending marked grouped read entry).1 = true ↔
        (limitsLeft grouped entry).dropWhile (· ≤ read) ≠ []) ∧
      ∀ other, limitsLeft (removesPending marked grouped read entry).2 other =
        if other = entry then ((limitsLeft grouped entry).dropWhile (· ≤ read)).tail
        else limitsLeft grouped other := by
  rw [removesPending]
  by_cases is_marked : marked entry.docId = true
  · rw [if_pos is_marked]
    cases found : removalsFor grouped entry.docId entry.value with
    | none =>
      have none_left : limitsLeft grouped entry = [] := by rw [limitsLeft, found]
      refine ⟨by simp [none_left], fun other => ?_⟩
      by_cases same : other = entry
      · simp [same, none_left]
      · simp [same]
    | some key =>
      have left : limitsLeft grouped entry = key.limits := by rw [limitsLeft, found]
      rw [left]
      dsimp only
      cases limits : key.limits.dropWhile (· ≤ read) with
      | nil =>
        refine ⟨by simp, fun other => ?_⟩
        rw [limitsLeft_setLimits (by rw [found]; rfl), List.tail_nil]
      | cons limit rest =>
        refine ⟨by simp, fun other => ?_⟩
        rw [limitsLeft_setLimits (by rw [found]; rfl), List.tail_cons]
  · rw [if_neg is_marked]
    have none_left : limitsLeft grouped entry = [] := by
      by_contra some_left
      exact is_marked (marks entry some_left)
    refine ⟨by simp [none_left], fun other => ?_⟩
    by_cases same : other = entry
    · simp [same, none_left]
    · simp [same]

end Removing

end Narsil.Fields
