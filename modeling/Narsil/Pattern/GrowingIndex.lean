import Narsil.Pattern.MergeArrays
import Narsil.Pattern.RunLists
import Narsil.Transition.Run

/-!
# The growing index

The index of one field while documents come and go. It answers a run with the ordinals
of the documents that hold it, and it is frozen into arrays for any ordinals.
-/
namespace Narsil.Pattern

/-- What a document has in a field: a text, a list of elements that may be texts, or
    something else. -/
inductive FieldValue
  | text (codePoints : List Nat)
  | elements (texts : List (Option (List Nat)))
  | noText
  deriving DecidableEq, Repr

def textsOf : FieldValue → List (List Nat)
  | .text codePoints => [codePoints]
  | .elements texts => texts.reduceOption
  | .noText => []

def holdsTextValue : FieldValue → Bool
  | .text _ | .elements _ => true
  | .noText => false

/-- One of the texts has the run once it is folded. -/
def HoldsRun (host : PatternHost) (value : FieldValue) (run : Run) : Prop :=
  ∃ text ∈ textsOf value, run.codePoints <:+: foldedValue host true text

def runKeysOf (host : PatternHost) (value : FieldValue) : List Run :=
  ((textsOf value).flatMap fun text => collectRunKeys (foldedValue host true text)).dedup

theorem mem_runKeysOf {host : PatternHost} {value : FieldValue} {run : Run} :
    run ∈ runKeysOf host value ↔ HoldsRun host value run := by
  simp only [runKeysOf, List.mem_dedup, List.mem_flatMap, mem_collectRunKeys, HoldsRun]

theorem runKeysOf_nodup (host : PatternHost) (value : FieldValue) : (runKeysOf host value).Nodup :=
  List.nodup_dedup _

structure GrowingPatternIndex where
  runs : RunLists
  documents : List Nat
  documentsCache : Option (List Nat)
  deriving DecidableEq, Repr

def createGrowingPatternIndex : GrowingPatternIndex := ⟨[], [], none⟩

/-- The ordinal an array's ordinal is mapped to. -/
def placed (mapOrdinal : Nat → Int) (ordinal : Nat) : Option Nat :=
  if mapOrdinal ordinal < 0 then none else some (mapOrdinal ordinal).toNat

/-- What a run of the arrays adds to the lists. -/
def RunLists.addRun (mapOrdinal : Nat → Int) (runs : RunLists) (entry : Run × List Nat) : RunLists :=
  let list := (entry.2.filterMap (placed mapOrdinal)).foldl RunList.append (runs.listFor entry.1)
  dropIfEmpty (Assoc.set runs entry.1 list) entry.1 list

/-- The runs in the order their lists were made, each with its postings. -/
def runSource (runs : RunLists) : RunLists × List (Run × List Nat) :=
  (runs.map Prod.fst).foldl
    (fun source run =>
      let settled := source.1.settledPostings run
      (settled.1, if settled.2.length = 0 then source.2 else source.2 ++ [(run, settled.2)]))
    (runs, [])

def NotAfter (left right : Run × List Nat) : Prop := compareRuns left.1 right.1 ≤ 0

instance (left right : Run × List Nat) : Decidable (NotAfter left right) := by
  unfold NotAfter
  infer_instance

def sortedRunOrder (source : List (Run × List Nat)) : List (Run × List Nat) :=
  source.insertionSort NotAfter

namespace GrowingPatternIndex

def sortedDocuments (index : GrowingPatternIndex) : GrowingPatternIndex × List Nat :=
  match index.documentsCache with
  | some cached => (index, cached)
  | none =>
    ({ index with documentsCache := some (Ascending.sort index.documents) },
      Ascending.sort index.documents)

def postings (index : GrowingPatternIndex) (run : Run) : GrowingPatternIndex × List Nat :=
  let settled := index.runs.settledPostings run
  ({ index with runs := settled.1 }, settled.2)

def add (host : PatternHost) (index : GrowingPatternIndex) (ordinal : Nat) (value : FieldValue) :
    GrowingPatternIndex :=
  if holdsTextValue value then
    { runs := (runKeysOf host value).foldl (RunLists.append ordinal) index.runs
      documents := index.documents.insert ordinal
      documentsCache := none }
  else index

def remove (host : PatternHost) (index : GrowingPatternIndex) (ordinal : Nat) (value : FieldValue) :
    GrowingPatternIndex :=
  if holdsTextValue value then
    { runs := (runKeysOf host value).foldl (RunLists.markRemoved ordinal) index.runs
      documents := index.documents.filter fun id => id ≠ ordinal
      documentsCache := if ordinal ∈ index.documents then none else index.documentsCache }
  else index

def addArrays (index : GrowingPatternIndex) (arrays : PatternIndexArrays) (mapOrdinal : Nat → Int) :
    GrowingPatternIndex where
  runs := (arrays.source.take (arrays.offsets.length - 1)).foldl (RunLists.addRun mapOrdinal) index.runs
  documents :=
    (arrays.docIds.filterMap (placed mapOrdinal)).foldl (fun documents id => documents.insert id)
      index.documents
  documentsCache :=
    if arrays.docIds.filterMap (placed mapOrdinal) = [] then index.documentsCache else none

def clear (_ : GrowingPatternIndex) : GrowingPatternIndex := createGrowingPatternIndex

def toArrays (index : GrowingPatternIndex) (remap : Option (List Int)) :
    GrowingPatternIndex × PatternIndexArrays :=
  let source := runSource index.runs
  let listed := { index with runs := source.1 }.sortedDocuments
  (listed.1, buildArrays listed.2 (sortedRunOrder source.2) remap)

/-- What the index answers. -/
def reader (index : GrowingPatternIndex) : PatternIndexReader where
  documents := index.sortedDocuments.2
  postings run := (index.postings run).2

end GrowingPatternIndex

/-- What the live ordinals have in the field. -/
abbrev Documents : Type := Nat → FieldValue → Prop

/-- The reader answers for these documents: with each ordinal once and in order. -/
structure Indexes (host : PatternHost) (documents : Documents) (reader : PatternIndexReader) : Prop where
  documents_strict : Ascending.Strict reader.documents
  documents_exact : ∀ ordinal, ordinal ∈ reader.documents ↔ ∃ value, documents ordinal value
  postings_strict : ∀ run, Ascending.Strict (reader.postings run)
  postings_exact : ∀ run ordinal, ordinal ∈ reader.postings run ↔
    ∃ value, documents ordinal value ∧ HoldsRun host value run

/-- The arrays list the runs of these documents, each run once. -/
def PatternIndexArrays.Lists (host : PatternHost) (arrays : PatternIndexArrays) (documents : Documents) :
    Prop :=
  ∃ entries, (entries.map Prod.fst).Nodup ∧ arrays = arraysOf arrays.docIds entries ∧
    Indexes host documents ⟨arrays.docIds, fun run => (Assoc.lookup entries run).getD []⟩

/-- A call on the index; arrays come with the documents they were made of. -/
inductive IndexCall
  | add (ordinal : Nat) (value : FieldValue)
  | remove (ordinal : Nat) (value : FieldValue)
  | addArrays (arrays : PatternIndexArrays) (mapOrdinal : Nat → Int) (source : Documents)
  | clear
  | documents
  | postings (run : Run)
  | toArrays (remap : Option (List Int))

/-- An index, and the documents that its callers have in it. -/
structure Indexing where
  index : GrowingPatternIndex
  documents : Documents

namespace Indexing

def start : Indexing := ⟨createGrowingPatternIndex, fun _ _ => False⟩

def next (host : PatternHost) (kept : Indexing) : IndexCall → Option Indexing
  | .add ordinal value => some
    { index := kept.index.add host ordinal value
      documents := fun id other =>
        kept.documents id other ∨ (holdsTextValue value = true ∧ id = ordinal ∧ other = value) }
  | .remove ordinal value => some
    { index := kept.index.remove host ordinal value
      documents := fun id other =>
        kept.documents id other ∧ ¬ (holdsTextValue value = true ∧ id = ordinal) }
  | .addArrays arrays mapOrdinal source => some
    { index := kept.index.addArrays arrays mapOrdinal
      documents := fun id value =>
        kept.documents id value ∨ ∃ position, placed mapOrdinal position = some id ∧ source position value }
  | .clear => some start
  | .documents => some { kept with index := kept.index.sortedDocuments.1 }
  | .postings run => some { kept with index := (kept.index.postings run).1 }
  | .toArrays remap => some { kept with index := (kept.index.toArrays remap).1 }

/-- What callers keep to: an ordinal is added when it is not live, it is removed with the
    value it was added with, and arrays are added at ordinals that are not live. -/
def Allowed (host : PatternHost) (kept : Indexing) : IndexCall → Prop
  | .add ordinal _ => ∀ other, ¬ kept.documents ordinal other
  | .remove ordinal value => holdsTextValue value = true → kept.documents ordinal value
  | .addArrays arrays mapOrdinal source =>
    arrays.Lists host source ∧
      (∀ position value other, source position value → source position other → value = other) ∧
      (∀ position other id, placed mapOrdinal position = some id → placed mapOrdinal other = some id →
        position = other) ∧
      ∀ position value id, source position value → placed mapOrdinal position = some id →
        ∀ other, ¬ kept.documents id other
  | .clear | .documents | .postings _ | .toArrays _ => True

/-- What holds of an index between calls. -/
structure Inv (host : PatternHost) (kept : Indexing) : Prop where
  runs : kept.index.runs.Hold fun run id => ∃ value, kept.documents id value ∧ HoldsRun host value run
  distinct : kept.index.documents.Nodup
  exact : ∀ id, id ∈ kept.index.documents ↔ ∃ value, kept.documents id value
  cached : ∀ cache, kept.index.documentsCache = some cache → cache = Ascending.sort kept.index.documents
  single : ∀ id value other, kept.documents id value → kept.documents id other → value = other

end Indexing

theorem foldl_append_lists {list : RunList} {holds : Nat → Prop} {ordinals : List Nat}
    (h : list.Lists holds) (distinct : ordinals.Nodup) (fresh : ∀ id ∈ ordinals, ¬ holds id) :
    (ordinals.foldl RunList.append list).Lists fun id => holds id ∨ id ∈ ordinals := by
  induction ordinals generalizing list holds with
  | nil => exact h.congr (by simp)
  | cons ordinal rest ih =>
    rw [List.nodup_cons] at distinct
    have later : ∀ id ∈ rest, ¬ (holds id ∨ id = ordinal) := by
      rintro id member (before | rfl)
      · exact fresh id (by simp [member]) before
      · exact distinct.1 member
    apply (ih (RunList.append_lists h (fresh ordinal (by simp))) distinct.2 later).congr
    intro id
    rw [List.mem_cons, or_assoc]

section Added
variable {runs : RunLists} {holds : Run → Nat → Prop} {mapOrdinal : Nat → Int}

theorem addRun_hold {entry : Run × List Nat} (h : runs.Hold holds)
    (distinct : (entry.2.filterMap (placed mapOrdinal)).Nodup)
    (fresh : ∀ id ∈ entry.2.filterMap (placed mapOrdinal), ¬ holds entry.1 id) :
    (runs.addRun mapOrdinal entry).Hold fun run id =>
      holds run id ∨ (run = entry.1 ∧ id ∈ entry.2.filterMap (placed mapOrdinal)) := by
  apply (RunLists.dropIfEmpty_set_hold h (foldl_append_lists (h.lists entry.1) distinct fresh)).congr
  intro run id
  split
  · next same => simp [same]
  · next different => simp [different]

theorem addRuns_hold {entries : List (Run × List Nat)} (h : runs.Hold holds)
    (distinct_runs : (entries.map Prod.fst).Nodup)
    (distinct : ∀ entry ∈ entries, (entry.2.filterMap (placed mapOrdinal)).Nodup)
    (fresh : ∀ entry ∈ entries, ∀ id ∈ entry.2.filterMap (placed mapOrdinal), ¬ holds entry.1 id) :
    (entries.foldl (RunLists.addRun mapOrdinal) runs).Hold fun run id =>
      holds run id ∨ ∃ entry ∈ entries, run = entry.1 ∧ id ∈ entry.2.filterMap (placed mapOrdinal) := by
  induction entries generalizing runs holds with
  | nil => exact h.congr (by simp)
  | cons entry rest ih =>
    rw [List.map_cons, List.nodup_cons] at distinct_runs
    have first := addRun_hold h (distinct entry (by simp)) (fresh entry (by simp))
    have later : ∀ other ∈ rest, ∀ id ∈ other.2.filterMap (placed mapOrdinal),
        ¬ (holds other.1 id ∨ (other.1 = entry.1 ∧ id ∈ entry.2.filterMap (placed mapOrdinal))) := by
      rintro other member id listed (before | ⟨same, _⟩)
      · exact fresh other (by simp [member]) id listed before
      · exact distinct_runs.1 (same ▸ List.mem_map_of_mem member)
    apply (ih first distinct_runs.2 (fun other member => distinct other (by simp [member])) later).congr
    intro run id
    rw [List.exists_mem_cons_iff, or_assoc]

end Added

theorem foldl_insert {documents more : List Nat} (distinct : documents.Nodup) :
    (more.foldl (fun documents id => documents.insert id) documents).Nodup ∧
      ∀ id, id ∈ more.foldl (fun documents id => documents.insert id) documents ↔
        id ∈ documents ∨ id ∈ more := by
  induction more generalizing documents with
  | nil => exact ⟨distinct, by simp⟩
  | cons first rest ih =>
    obtain ⟨still_distinct, members⟩ := ih distinct.insert
    refine ⟨still_distinct, ?_⟩
    intro id
    rw [List.foldl_cons, members, List.mem_insert_iff, List.mem_cons]
    tauto

instance : Std.Total NotAfter where
  total left right := by
    rcases before_trichotomy left.1 right.1 with before | same | after
    · exact Or.inl (Int.le_of_lt before)
    · exact Or.inl (Int.le_of_eq (compareRuns_eq_zero.mpr same))
    · exact Or.inr (Int.le_of_lt after)

theorem notAfter_iff {left right : Run × List Nat} : NotAfter left right ↔ AtMost left.1 right.1 := by
  rw [NotAfter, Int.le_iff_lt_or_eq, compareRuns_eq_zero]
  exact or_comm

instance : IsTrans (Run × List Nat) NotAfter where
  trans left middle right h h' := by
    rw [notAfter_iff] at *
    exact h.trans h'

theorem sortedRunOrder_ordered {source : List (Run × List Nat)} (distinct : (source.map Prod.fst).Nodup) :
    Ordered (sortedRunOrder source) := by
  have perm : (sortedRunOrder source).Perm source := List.perm_insertionSort _ source
  have still_distinct : ((sortedRunOrder source).map Prod.fst).Nodup :=
    (perm.map Prod.fst).nodup_iff.mpr distinct
  have sorted : (sortedRunOrder source).Pairwise NotAfter := List.pairwise_insertionSort _ source
  rw [List.nodup_iff_pairwise_ne, List.pairwise_map] at still_distinct
  rw [Ordered, List.pairwise_map]
  apply (sorted.and still_distinct).imp
  rintro left right ⟨not_after, different⟩
  rcases notAfter_iff.mp not_after with same | before
  · exact absurd same different
  · exact before

theorem runSource_spec {runs : RunLists} {holds : Run → Nat → Prop} (h : runs.Hold holds) :
    (runSource runs).1.Hold holds ∧
      (runSource runs).2 =
        held ((runs.map Prod.fst).map fun run => (run, (runs.settledPostings run).2)) := by
  have general : ∀ (rest : List Run) (now : RunLists) (source : List (Run × List Nat)),
      now.Hold holds →
      let result := rest.foldl
        (fun (source : RunLists × List (Run × List Nat)) run =>
          let settled := source.1.settledPostings run
          (settled.1, if settled.2.length = 0 then source.2 else source.2 ++ [(run, settled.2)]))
        (now, source)
      result.1.Hold holds ∧
        result.2 = source ++ held (rest.map fun run => (run, (runs.settledPostings run).2)) := by
    intro rest
    induction rest with
    | nil =>
      intro now source still
      simp [held, still]
    | cons run rest ih =>
      intro now source still
      -- the postings of a run are the same whenever it is read
      have same : (now.settledPostings run).2 = (runs.settledPostings run).2 := by
        obtain ⟨strict, members⟩ := RunLists.settledPostings_spec still run
        obtain ⟨own_strict, own_members⟩ := RunLists.settledPostings_spec h run
        exact strict.eq_of_mem own_strict fun id => (members id).trans (own_members id).symm
      obtain ⟨kept, listed⟩ := ih (now.settledPostings run).1
        (if (now.settledPostings run).2.length = 0 then source
          else source ++ [(run, (now.settledPostings run).2)])
        (RunLists.settledPostings_hold still run)
      refine ⟨kept, ?_⟩
      rw [List.foldl_cons, listed, same, List.map_cons, held, held]
      split
      · next empty => rw [List.filter_cons_of_neg (by simpa using empty)]
      · next some_held =>
        rw [List.filter_cons_of_pos (by simpa using some_held), List.append_assoc]
        rfl
  obtain ⟨kept, listed⟩ := general (runs.map Prod.fst) runs [] h
  exact ⟨kept, listed⟩

theorem lookup_sortedRunOrder {runs : RunLists} {holds : Run → Nat → Prop} (h : runs.Hold holds)
    (run : Run) :
    Ordered (sortedRunOrder (runSource runs).2) ∧
      (Assoc.lookup (sortedRunOrder (runSource runs).2) run).getD [] = (runs.settledPostings run).2 := by
  obtain ⟨_, listed⟩ := runSource_spec h
  have keys : (((runs.map Prod.fst).map fun run => (run, (runs.settledPostings run).2)).map
      Prod.fst).Nodup := by
    rw [List.map_map]
    exact (List.map_id _).symm ▸ h.distinct
  have held_keys : ((runSource runs).2.map Prod.fst).Nodup := by
    rw [listed]
    exact keys.sublist (List.filter_sublist.map Prod.fst)
  refine ⟨sortedRunOrder_ordered held_keys, ?_⟩
  have perm : (sortedRunOrder (runSource runs).2).Perm (runSource runs).2 := List.perm_insertionSort _ _
  rw [← Assoc.lookup_perm held_keys perm.symm, listed, lookup_held keys]
  by_cases known : run ∈ runs.map Prod.fst
  · rw [Assoc.lookup_of_mem keys (List.mem_map_of_mem known), Option.getD_some]
  · have absent : run ∉ ((runs.map Prod.fst).map fun run =>
        (run, (runs.settledPostings run).2)).map Prod.fst := by
      rw [List.map_map]
      exact (List.map_id _).symm ▸ known
    rw [Assoc.lookup_eq_none.mpr absent, RunLists.settledPostings, Assoc.lookup_eq_none.mpr known]
    rfl

namespace Indexing
variable {host : PatternHost} {kept after : Indexing}

theorem start_inv (host : PatternHost) : start.Inv host where
  runs := RunLists.nil_hold.congr (by simp [start])
  distinct := List.nodup_nil
  exact id := by simp [start, createGrowingPatternIndex]
  cached _ found := absurd found (by simp [start, createGrowingPatternIndex])
  single _ _ _ none_there := absurd none_there id

theorem Inv.congr {documents : Documents} (h : kept.Inv host)
    (same : ∀ id value, kept.documents id value ↔ documents id value) : Inv host ⟨kept.index, documents⟩ := by
  have equal : kept.documents = documents := funext fun id => funext fun value => propext (same id value)
  rw [← equal]
  exact h

theorem Inv.sortedDocuments (h : kept.Inv host) :
    kept.index.sortedDocuments.2 = Ascending.sort kept.index.documents ∧
      Inv host { kept with index := kept.index.sortedDocuments.1 } := by
  rw [GrowingPatternIndex.sortedDocuments]
  cases cache_is : kept.index.documentsCache with
  | some cache => exact ⟨h.cached cache cache_is, h⟩
  | none =>
    refine ⟨rfl, h.runs, h.distinct, h.exact, ?_, h.single⟩
    rintro cache found
    exact (Option.some.inj found).symm

theorem Inv.postings (h : kept.Inv host) (run : Run) :
    Inv host { kept with index := (kept.index.postings run).1 } where
  runs := RunLists.settledPostings_hold h.runs run
  distinct := h.distinct
  exact := h.exact
  cached := h.cached
  single := h.single

theorem Inv.toArrays (h : kept.Inv host) (remap : Option (List Int)) :
    Inv host { kept with index := (kept.index.toArrays remap).1 } := by
  have read : Inv host { kept with index := { kept.index with runs := (runSource kept.index.runs).1 } } :=
    ⟨(runSource_spec h.runs).1, h.distinct, h.exact, h.cached, h.single⟩
  exact read.sortedDocuments.2

theorem Inv.add (h : kept.Inv host) {ordinal : Nat} {value : FieldValue}
    (fresh : ∀ other, ¬ kept.documents ordinal other) (next_is : next host kept (.add ordinal value) = some after) :
    after.Inv host := by
  obtain rfl := Option.some.inj next_is
  have single : ∀ id first second,
      (kept.documents id first ∨ (holdsTextValue value = true ∧ id = ordinal ∧ first = value)) →
      (kept.documents id second ∨ (holdsTextValue value = true ∧ id = ordinal ∧ second = value)) →
      first = second := by
    rintro id first second (old | ⟨_, rfl, rfl⟩) (old' | ⟨_, same, rfl⟩)
    · exact h.single id first second old old'
    · exact absurd old (same ▸ fresh first)
    · exact absurd old' (fresh second)
    · rfl
  by_cases has_text : holdsTextValue value = true
  · have added : kept.index.add host ordinal value =
        { runs := (runKeysOf host value).foldl (RunLists.append ordinal) kept.index.runs
          documents := kept.index.documents.insert ordinal
          documentsCache := none } := by
      rw [GrowingPatternIndex.add, if_pos has_text]
    constructor
    · dsimp only
      rw [added]
      have unheld : ∀ run ∈ runKeysOf host value,
          ¬ ∃ other, kept.documents ordinal other ∧ HoldsRun host other run := by
        rintro run _ ⟨other, live, _⟩
        exact fresh other live
      apply (RunLists.appendAll_hold h.runs (runKeysOf_nodup host value) unheld).congr
      intro run id
      rw [mem_runKeysOf]
      constructor
      · rintro (⟨other, live, holds⟩ | ⟨rfl, holds⟩)
        · exact ⟨other, Or.inl live, holds⟩
        · exact ⟨value, Or.inr ⟨has_text, rfl, rfl⟩, holds⟩
      · rintro ⟨other, live | ⟨_, rfl, rfl⟩, holds⟩
        · exact Or.inl ⟨other, live, holds⟩
        · exact Or.inr ⟨rfl, holds⟩
    · dsimp only
      rw [added]
      exact h.distinct.insert
    · intro id
      dsimp only
      rw [added]
      dsimp only
      rw [List.mem_insert_iff, h.exact]
      constructor
      · rintro (rfl | ⟨other, live⟩)
        · exact ⟨value, Or.inr ⟨has_text, rfl, rfl⟩⟩
        · exact ⟨other, Or.inl live⟩
      · rintro ⟨other, live | ⟨_, rfl, _⟩⟩
        · exact Or.inr ⟨other, live⟩
        · exact Or.inl rfl
    · intro cache found
      dsimp only at found
      rw [added] at found
      exact absurd found (by simp)
    · exact single
  · have unchanged : kept.index.add host ordinal value = kept.index := by
      rw [GrowingPatternIndex.add, if_neg has_text]
    have same : ∀ id other, (kept.documents id other ∨
        (holdsTextValue value = true ∧ id = ordinal ∧ other = value)) ↔ kept.documents id other := by
      simp [has_text]
    rw [unchanged]
    exact h.congr fun id other => (same id other).symm

theorem Inv.remove (h : kept.Inv host) {ordinal : Nat} {value : FieldValue}
    (live : holdsTextValue value = true → kept.documents ordinal value)
    (next_is : next host kept (.remove ordinal value) = some after) : after.Inv host := by
  obtain rfl := Option.some.inj next_is
  have single : ∀ id first second,
      (kept.documents id first ∧ ¬ (holdsTextValue value = true ∧ id = ordinal)) →
      (kept.documents id second ∧ ¬ (holdsTextValue value = true ∧ id = ordinal)) → first = second :=
    fun id first second one two => h.single id first second one.1 two.1
  by_cases has_text : holdsTextValue value = true
  · have own := live has_text
    have removed : kept.index.remove host ordinal value =
        { runs := (runKeysOf host value).foldl (RunLists.markRemoved ordinal) kept.index.runs
          documents := kept.index.documents.filter fun id => id ≠ ordinal
          documentsCache :=
            if ordinal ∈ kept.index.documents then none else kept.index.documentsCache } := by
      rw [GrowingPatternIndex.remove, if_pos has_text]
    constructor
    · dsimp only
      rw [removed]
      have all_held : ∀ run ∈ runKeysOf host value,
          ∃ other, kept.documents ordinal other ∧ HoldsRun host other run :=
        fun run member => ⟨value, own, mem_runKeysOf.mp member⟩
      apply (RunLists.markAll_hold h.runs (runKeysOf_nodup host value) all_held).congr
      intro run id
      rw [mem_runKeysOf]
      constructor
      · rintro ⟨⟨other, there, holds⟩, unmarked⟩
        refine ⟨other, ⟨there, ?_⟩, holds⟩
        rintro ⟨_, rfl⟩
        exact unmarked ⟨rfl, h.single id other value there own ▸ holds⟩
      · rintro ⟨other, ⟨there, different⟩, holds⟩
        refine ⟨⟨other, there, holds⟩, ?_⟩
        rintro ⟨rfl, _⟩
        exact different ⟨has_text, rfl⟩
    · dsimp only
      rw [removed]
      exact h.distinct.filter _
    · intro id
      dsimp only
      rw [removed]
      dsimp only
      rw [List.mem_filter, h.exact, decide_eq_true_eq]
      constructor
      · rintro ⟨⟨other, there⟩, different⟩
        exact ⟨other, there, fun both => different both.2⟩
      · rintro ⟨other, there, kept_there⟩
        exact ⟨⟨other, there⟩, fun same => kept_there ⟨has_text, same⟩⟩
    · intro cache found
      have listed : ordinal ∈ kept.index.documents := (h.exact ordinal).mpr ⟨value, own⟩
      dsimp only at found
      rw [removed] at found
      dsimp only at found
      rw [if_pos listed] at found
      exact absurd found (by simp)
    · exact single
  · have unchanged : kept.index.remove host ordinal value = kept.index := by
      rw [GrowingPatternIndex.remove, if_neg has_text]
    have same : ∀ id other, (kept.documents id other ∧
        ¬ (holdsTextValue value = true ∧ id = ordinal)) ↔ kept.documents id other := by
      simp [has_text]
    rw [unchanged]
    exact h.congr fun id other => (same id other).symm

theorem placed_nodup {mapOrdinal : Nat → Int} {ordinals : List Nat} (distinct : ordinals.Nodup)
    (apart : ∀ position other id, placed mapOrdinal position = some id → placed mapOrdinal other = some id →
      position = other) : (ordinals.filterMap (placed mapOrdinal)).Nodup :=
  distinct.filterMap fun position other id here there => apart position other id here there

theorem Inv.addArrays (h : kept.Inv host) {arrays : PatternIndexArrays} {mapOrdinal : Nat → Int}
    {source : Documents} (allowed : Allowed host kept (.addArrays arrays mapOrdinal source))
    (next_is : next host kept (.addArrays arrays mapOrdinal source) = some after) : after.Inv host := by
  obtain rfl := Option.some.inj next_is
  obtain ⟨⟨entries, distinct_runs, listed, indexes⟩, one_value, apart, fresh⟩ := allowed
  have whole : arrays.source.take (arrays.offsets.length - 1) = entries := by
    have count : (arraysOf arrays.docIds entries).offsets.length - 1 = entries.length := by
      have spec := (Offsets.Packed.pack_spec (entries.map Prod.snd)).1
      rw [List.length_map] at spec
      rw [arraysOf]
      dsimp only
      omega
    rw [listed, source_arraysOf, count]
    exact List.take_length
  have docs_distinct : (arrays.docIds.filterMap (placed mapOrdinal)).Nodup :=
    placed_nodup indexes.documents_strict.nodup apart
  have answers : ∀ entry ∈ entries, Ascending.Strict entry.2 ∧ ∀ position, position ∈ entry.2 ↔
      ∃ value, source position value ∧ HoldsRun host value entry.1 := by
    intro entry member
    have strict := indexes.postings_strict entry.1
    have exact := indexes.postings_exact entry.1
    simp only [Assoc.lookup_of_mem distinct_runs member, Option.getD_some] at strict exact
    exact ⟨strict, exact⟩
  have run_listed : ∀ run position value, source position value → HoldsRun host value run →
      ∃ entry ∈ entries, run = entry.1 ∧ position ∈ entry.2 := by
    intro run position value there holds
    have posted := (indexes.postings_exact run position).mpr ⟨value, there, holds⟩
    dsimp only at posted
    cases found : Assoc.lookup entries run with
    | none =>
      rw [found] at posted
      exact absurd posted List.not_mem_nil
    | some postings =>
      rw [found] at posted
      exact ⟨(run, postings), Assoc.mem_of_lookup found, rfl, posted⟩
  constructor
  · show RunLists.Hold ((arrays.source.take (arrays.offsets.length - 1)).foldl _ _) _
    rw [whole]
    have distinct : ∀ entry ∈ entries, (entry.2.filterMap (placed mapOrdinal)).Nodup :=
      fun entry member => placed_nodup (answers entry member).1.nodup apart
    have unheld : ∀ entry ∈ entries, ∀ id ∈ entry.2.filterMap (placed mapOrdinal),
        ¬ ∃ value, kept.documents id value ∧ HoldsRun host value entry.1 := by
      rintro entry member id placed_there ⟨other, live, _⟩
      obtain ⟨position, posted, there⟩ := List.mem_filterMap.mp placed_there
      obtain ⟨value, held, _⟩ := ((answers entry member).2 position).mp posted
      exact fresh position value id held there other live
    apply (addRuns_hold h.runs distinct_runs distinct unheld).congr
    intro run id
    constructor
    · rintro (⟨value, live, holds⟩ | ⟨entry, member, rfl, placed_there⟩)
      · exact ⟨value, Or.inl live, holds⟩
      · obtain ⟨position, posted, there⟩ := List.mem_filterMap.mp placed_there
        obtain ⟨value, held, holds⟩ := ((answers entry member).2 position).mp posted
        exact ⟨value, Or.inr ⟨position, there, held⟩, holds⟩
    · rintro ⟨value, live | ⟨position, there, held⟩, holds⟩
      · exact Or.inl ⟨value, live, holds⟩
      · obtain ⟨entry, member, same, posted⟩ := run_listed run position value held holds
        exact Or.inr ⟨entry, member, same, List.mem_filterMap.mpr ⟨position, posted, there⟩⟩
  · exact (foldl_insert h.distinct).1
  · intro id
    show id ∈ (arrays.docIds.filterMap (placed mapOrdinal)).foldl _ _ ↔ _
    rw [(foldl_insert h.distinct).2 id, h.exact, List.mem_filterMap]
    constructor
    · rintro (⟨value, live⟩ | ⟨position, listed_there, there⟩)
      · exact ⟨value, Or.inl live⟩
      · obtain ⟨value, held⟩ := (indexes.documents_exact position).mp listed_there
        exact ⟨value, Or.inr ⟨position, there, held⟩⟩
    · rintro ⟨value, live | ⟨position, there, held⟩⟩
      · exact Or.inl ⟨value, live⟩
      · exact Or.inr ⟨position, (indexes.documents_exact position).mpr ⟨value, held⟩, there⟩
  · intro cache found
    rw [GrowingPatternIndex.addArrays] at found ⊢
    dsimp only at found ⊢
    split at found
    · next none_placed =>
      rw [none_placed]
      exact h.cached cache found
    · exact absurd found (by simp)
  · rintro id value other (live | ⟨position, there, held⟩) (live' | ⟨position', there', held'⟩)
    · exact h.single id value other live live'
    · exact absurd live (fresh position' other id held' there' value)
    · exact absurd live' (fresh position value id held there other)
    · obtain rfl := apart position position' id there there'
      exact one_value position value other held held'

theorem Inv.next (h : kept.Inv host) (call : IndexCall) (allowed : Allowed host kept call)
    (next_is : next host kept call = some after) : after.Inv host := by
  cases call with
  | add ordinal value => exact h.add allowed next_is
  | remove ordinal value => exact h.remove allowed next_is
  | addArrays arrays mapOrdinal source => exact h.addArrays allowed next_is
  | clear =>
    obtain rfl := Option.some.inj next_is
    exact start_inv host
  | documents =>
    obtain rfl := Option.some.inj next_is
    exact h.sortedDocuments.2
  | postings run =>
    obtain rfl := Option.some.inj next_is
    exact h.postings run
  | toArrays remap =>
    obtain rfl := Option.some.inj next_is
    exact h.toArrays remap

theorem Inv.indexes (h : kept.Inv host) : Indexes host kept.documents kept.index.reader where
  documents_strict := by
    show Ascending.Strict kept.index.sortedDocuments.2
    rw [h.sortedDocuments.1]
    exact Ascending.sort_strict h.distinct
  documents_exact id := by
    show id ∈ kept.index.sortedDocuments.2 ↔ _
    rw [h.sortedDocuments.1, Ascending.mem_sort]
    exact h.exact id
  postings_strict run := (RunLists.settledPostings_spec h.runs run).1
  postings_exact run := (RunLists.settledPostings_spec h.runs run).2

theorem Inv.frozen (h : kept.Inv host) (remap : Option (List Int)) :
    (kept.index.toArrays remap).2.Valid ∧
      Remaps kept.index.reader (readPatternArrays (kept.index.toArrays remap).2) remap := by
  have listed : ({ kept.index with runs := (runSource kept.index.runs).1 } :
      GrowingPatternIndex).sortedDocuments.2 = kept.index.sortedDocuments.2 := by
    rw [GrowingPatternIndex.sortedDocuments, GrowingPatternIndex.sortedDocuments]
    cases kept.index.documentsCache <;> rfl
  have ordered : Ordered (sortedRunOrder (runSource kept.index.runs).2) :=
    (lookup_sortedRunOrder h.runs ⟨0, 0, 0⟩).1
  obtain ⟨valid, docIds, postings⟩ :
      (buildArrays kept.index.sortedDocuments.2 (sortedRunOrder (runSource kept.index.runs).2) remap).Valid ∧
        _ ∧ _ := buildArrays_spec ordered remap
  rw [GrowingPatternIndex.toArrays]
  dsimp only
  rw [listed]
  refine ⟨valid, docIds, ?_⟩
  intro run
  rw [postings run, (lookup_sortedRunOrder h.runs run).2]
  rfl

theorem reached_inv {calls : List IndexCall}
    (disciplined : Transition.AllSteps (Indexing.next host) (Allowed host) start calls)
    (reached : Transition.run (Indexing.next host) start calls = some kept) : kept.Inv host :=
  Transition.run_invariant_of (Indexing.next host) (Allowed host) (Inv host)
    (fun _ call _ inv allowed step => inv.next call allowed step)
    calls start kept (start_inv host) disciplined reached

end Indexing

/-- After any calls the growing index answers for the live documents; the arrays frozen
    of it, frozen again, or merged, answer the same for the ordinals they are given. -/
theorem patternIndexes_agree (host : PatternHost) (calls : List IndexCall) (kept : Indexing)
    (disciplined : Transition.AllSteps (Indexing.next host) (Indexing.Allowed host) Indexing.start calls)
    (reached : Transition.run (Indexing.next host) Indexing.start calls = some kept) :
    Indexes host kept.documents kept.index.reader ∧
      (∀ remap, (kept.index.toArrays remap).2.Valid ∧
        Remaps kept.index.reader (readPatternArrays (kept.index.toArrays remap).2) remap) ∧
      (∀ arrays : PatternIndexArrays, arrays.Valid → ∀ remap, (arrays.toArrays remap).Valid ∧
        Remaps (readPatternArrays arrays) (readPatternArrays (arrays.toArrays remap)) remap) ∧
      ∀ inputs : List PatternMergeInput, (∀ input ∈ inputs, input.arrays.Valid) →
        (mergePatternArrays inputs).Valid ∧
          (readPatternArrays (mergePatternArrays inputs)).documents =
            Ascending.sort (inputs.flatMap fun input =>
              (readPatternArrays input.arrays).documents.filterMap (remapped (some input.remap))) ∧
          ∀ run, (readPatternArrays (mergePatternArrays inputs)).postings run =
            Ascending.sort (inputs.flatMap fun input =>
              ((readPatternArrays input.arrays).postings run).filterMap
                (remapped (some input.remap))) := by
  have right : kept.Inv host := Indexing.reached_inv disciplined reached
  exact ⟨right.indexes, right.frozen, fun arrays valid => toArrays_spec valid,
    fun inputs valid => mergePatternArrays_spec valid⟩

theorem patternIndexes_agree_abcd :
    let host : PatternHost := ⟨fun codePoint => [codePoint], []⟩
    let source : Documents := fun id value => id = 0 ∧ value = .text [97, 98, 99]
    let calls : List IndexCall :=
      [.add 4 (.text [97, 98, 99, 100]), .add 2 (.text [97, 98, 99]), .postings ⟨97, 98, 99⟩,
        .remove 4 (.text [97, 98, 99, 100]),
        .addArrays (arraysOf [0] [(⟨97, 98, 99⟩, [0])]) (fun ordinal => ordinal + 1) source,
        .toArrays none]
    ∃ kept, Transition.run (Indexing.next host) Indexing.start calls = some kept ∧
      kept.index.reader.postings ⟨97, 98, 99⟩ = [1, 2] ∧
      Indexes host kept.documents kept.index.reader := by
  intro host source calls
  have keys : runKeysOf host (.text [97, 98, 99]) = [⟨97, 98, 99⟩] := by decide
  have lists : (arraysOf [0] [(⟨97, 98, 99⟩, [0])]).Lists host source := by
    refine ⟨[(⟨97, 98, 99⟩, [0])], by decide, rfl, ?_⟩
    constructor
    · exact List.pairwise_singleton _ _
    · intro ordinal
      simp [arraysOf, source]
    · intro run
      by_cases same : (⟨97, 98, 99⟩ : Run) = run <;> simp [Assoc.lookup, same, Ascending.Strict]
    · intro run ordinal
      have holds : HoldsRun host (.text [97, 98, 99]) run ↔ run = ⟨97, 98, 99⟩ := by
        rw [← mem_runKeysOf, keys, List.mem_singleton]
      by_cases same : run = ⟨97, 98, 99⟩
      · subst same
        simp [Assoc.lookup, source, holds]
      · simp [Assoc.lookup, source, holds, same, Ne.symm same]
  have disciplined : Transition.AllSteps (Indexing.next host) (Indexing.Allowed host) Indexing.start calls := by
    refine ⟨fun _ => id, ?_⟩
    rintro _ step
    obtain rfl := Option.some.inj step
    refine ⟨by simp [Indexing.Allowed, Indexing.start], ?_⟩
    rintro _ step
    obtain rfl := Option.some.inj step
    refine ⟨trivial, ?_⟩
    rintro _ step
    obtain rfl := Option.some.inj step
    refine ⟨by simp [Indexing.Allowed, Indexing.start, holdsTextValue], ?_⟩
    rintro _ step
    obtain rfl := Option.some.inj step
    refine ⟨⟨lists, ?_, ?_, ?_⟩, ?_⟩
    · rintro position value other ⟨_, rfl⟩ ⟨_, rfl⟩
      rfl
    · intro position other id here there
      simp only [placed] at here there
      split at here
      · exact absurd here (by simp)
      · split at there
        · exact absurd there (by simp)
        · rw [Option.some.injEq] at here there
          omega
    · rintro position value id ⟨rfl, _⟩ here other
      obtain rfl : 1 = id := by simpa [placed] using here
      simp [Indexing.start, holdsTextValue]
    rintro _ step
    obtain rfl := Option.some.inj step
    exact ⟨trivial, fun _ _ => trivial⟩
  refine ⟨_, rfl, by decide, ?_⟩
  exact (patternIndexes_agree host calls _ disciplined rfl).1

end Narsil.Pattern
