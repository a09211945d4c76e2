import Narsil.Assoc.Tallies
import Narsil.Ordering.SortValues

/-!
# Merging facet counts

Each partition counts the values of a field and lists those it keeps, with a bound on what
it leaves out. The lists are merged within a node and again over the nodes.
-/
namespace Narsil.Facets

open Narsil.Ordering Assoc

/-- Values with their counts. -/
abbrev Counts := List (JsString × Nat)

def PROTO_KEY : JsString := ascii "__proto__"

/-- An assignment to an object literal. One of a number to `__proto__` makes no entry. -/
def assign (record : Counts) (entry : JsString × Nat) : Counts :=
  if entry.1 = PROTO_KEY then record else set record entry.1 entry.2

def recordOf (entries : Counts) : Counts := entries.foldl assign []

structure FacetOptions where
  limit : Option JsNumber
  /-- Whether the lowest counts come first. -/
  ascending : Bool

structure FacetResult where
  values : Counts
  count : Nat
  errorBound : Nat
  deriving DecidableEq, Repr

/-- What a field keeps; where nothing is returned, and at an infinite limit, all of its values. -/
def keptFacetValues : Option JsNumber → Option Nat
  | some (.finite limit) => if 0 < limit then some limit.floor.toNat else none
  | _ => none

def keptCount (limit : Option JsNumber) (length : Nat) : Nat :=
  match keptFacetValues limit with
  | none => length
  | some kept => min kept length

def facetFirst (ascending : Bool) (left right : JsString × Nat) : Bool :=
  ((if ascending then compare left.2 right.2 else compare right.2 left.2).then
    (compareCodePoints left.1 right.1)).isLE

def orderFacets (ascending : Bool) (counts : Counts) : Counts := counts.mergeSort (facetFirst ascending)

/-- The values that are kept, and a bound on the others. -/
def cutFacet (options : FacetOptions) (counts : Counts) (undercount : Nat) : FacetResult :=
  let ordered := orderFacets options.ascending counts
  let kept := keptCount options.limit ordered.length
  { values := recordOf (ordered.take kept)
    count := kept
    errorBound := undercount + largestCount (ordered.drop kept) }

/-- The facets of a partition, by the counts of its fields. -/
def computeFacets (config : List (JsString × FacetOptions)) (counted : JsString → Counts) :
    List (JsString × FacetResult) :=
  config.map fun (field, options) => (field, cutFacet options (counted field) 0)

/-- The counts of each field are added up. -/
def mergeCounts {ν : Type} (listed : ν → Counts) (items : List (JsString × ν)) : List (JsString × Counts) :=
  items.foldl (collect Prod.fst (fun item => (listed item.2).foldl add [])
    fun counts item => (listed item.2).foldl add counts) []

def mergeFacets (partitionFacets : List (List (JsString × FacetResult)))
    (config : List (JsString × FacetOptions)) : List (JsString × FacetResult) :=
  let items := partitionFacets.flatten
  let bounds := (items.map fun (field, result) => (field, result.errorBound)).foldl add []
  (mergeCounts FacetResult.values items).map fun (field, counts) =>
    (field, cutFacet ((lookup config field).getD ⟨none, false⟩) counts ((lookup bounds field).getD 0))

abbrev FacetBucket := JsString × Nat

def convertLocalFacetsToWire (facets : List (JsString × FacetResult)) : List (JsString × List FacetBucket) :=
  facets.map fun (field, result) => (field, result.values)

def convertLocalFacetBoundsToWire (facets : List (JsString × FacetResult)) : List (JsString × Nat) :=
  facets.map fun (field, result) => (field, result.errorBound)

structure DistributedFacets where
  facets : List (JsString × List FacetBucket)
  errorBounds : List (JsString × Nat)
  undercounts : List (JsString × Nat)

def mergeDistributedFacets (allFacets : List (List (JsString × List FacetBucket)))
    (allBounds : List (Option (List (JsString × Nat)))) (maxBuckets : Nat) (ascending : JsString → Bool) :
    DistributedFacets :=
  let merged := mergeCounts id allFacets.flatten
  let bounds := (allBounds.flatMap fun bounds => bounds.getD []).foldl add []
  let ordered := merged.map fun (field, counts) => (field, orderFacets (ascending field) counts)
  { facets := ordered.map fun (field, buckets) => (field, buckets.take maxBuckets)
    errorBounds := ordered.map fun (field, buckets) =>
      (field, (lookup bounds field).getD 0 + largestCount (buckets.drop maxBuckets))
    undercounts := ordered.map fun (field, _) => (field, (lookup bounds field).getD 0) }

section Listing

theorem orderFacets_perm (ascending : Bool) (counts : Counts) : (orderFacets ascending counts).Perm counts :=
  List.mergeSort_perm _ _

theorem orderFacets_distinct {counts : Counts} (distinct : (counts.map Prod.fst).Nodup) (ascending : Bool) :
    ((orderFacets ascending counts).map Prod.fst).Nodup :=
  ((orderFacets_perm ascending counts).map Prod.fst).nodup_iff.mpr distinct

theorem recordOf_eq {entries : Counts} (distinct : (entries.map Prod.fst).Nodup) :
    recordOf entries = entries.filter fun entry => entry.1 ≠ PROTO_KEY := by
  have general : ∀ record : Counts, (∀ entry ∈ entries, entry.1 ∉ record.map Prod.fst) →
      entries.foldl assign record = record ++ entries.filter fun entry => entry.1 ≠ PROTO_KEY := by
    induction entries with
    | nil => exact fun record _ => (List.append_nil _).symm
    | cons entry rest ih =>
      intro record fresh
      rw [List.map_cons, List.nodup_cons] at distinct
      obtain ⟨new, others⟩ := List.forall_mem_cons.mp fresh
      rw [List.foldl_cons, assign]
      by_cases proto : entry.1 = PROTO_KEY
      · rw [if_pos proto, ih distinct.2 _ others, List.filter_cons_of_neg (by simpa using proto)]
      · rw [if_neg proto, set_new entry.2 new, ih distinct.2, List.filter_cons_of_pos (by simpa using proto),
          List.append_assoc, List.singleton_append]
        intro other member
        rw [List.map_append, List.mem_append, List.map_singleton, List.mem_singleton]
        rintro (old | same)
        · exact others other member old
        · exact distinct.1 (same ▸ List.mem_map_of_mem member)
  exact general [] fun entry _ => List.not_mem_nil

theorem recordOf_distinct {entries : Counts} (distinct : (entries.map Prod.fst).Nodup) :
    ((recordOf entries).map Prod.fst).Nodup := by
  rw [recordOf_eq distinct]
  exact distinct.sublist (List.filter_sublist.map _)

theorem total_recordOf {entries : Counts} (distinct : (entries.map Prod.fst).Nodup) {value : JsString}
    (other : value ≠ PROTO_KEY) : total (recordOf entries) value = total entries value := by
  rw [recordOf_eq distinct, total, total, List.filter_filter]
  congr 2
  apply List.filter_congr
  intro entry _
  by_cases same : entry.1 = value
  · simp [same, other]
  · simp [same]

theorem recordOf_no_proto {entries : Counts} (distinct : (entries.map Prod.fst).Nodup) :
    PROTO_KEY ∉ (recordOf entries).map Prod.fst := by
  rw [recordOf_eq distinct]
  intro member
  obtain ⟨entry, kept, same⟩ := List.mem_map.mp member
  simpa [same] using (List.mem_filter.mp kept).2

variable {ν : Type} {listed : ν → Counts} {items : List (JsString × ν)} {field : JsString}

theorem lookup_mergeCounts (known : (items.filter fun item => item.1 = field) ≠ []) :
    lookup (mergeCounts listed items) field =
      some (((items.filter fun item => item.1 = field).flatMap fun item => listed item.2).foldl add []) := by
  rw [mergeCounts, lookup_collect]
  have general : ∀ (rest : List (JsString × ν)) (start : Counts),
      rest.foldl (fun counts item => (listed item.2).foldl add counts) start =
        (rest.flatMap fun item => listed item.2).foldl add start := by
    intro rest
    induction rest with
    | nil => exact fun start => rfl
    | cons item rest ih =>
      intro start
      rw [List.foldl_cons, ih, List.flatMap_cons, List.foldl_append]
  cases of_field : items.filter fun item => item.1 = field with
  | nil => exact absurd of_field known
  | cons first rest =>
    rw [collected, general, List.flatMap_cons, List.foldl_append]

end Listing

end Narsil.Facets
