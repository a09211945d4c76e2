import Mathlib.Algebra.Order.BigOperators.Group.List
import Mathlib.Algebra.Order.Ring.Nat
import Narsil.Facets.Merging

/-!
# The bounds of merged facets

However the partitions of a distribution are merged, within a node and over nodes, a count
that is returned falls short by no more than the undercount, and a value that is not
returned makes no more than the error bound.
-/
namespace Narsil.Facets

open Narsil.Ordering Assoc

section OneMerge
variable {truth : JsString → Nat} {field : JsString}

theorem total_flatten (lists : List Counts) (value : JsString) :
    total lists.flatten value = (lists.map fun list => total list value).sum := by
  induction lists with
  | nil => rfl
  | cons list rest ih => rw [List.flatten_cons, total_append, ih, List.map_cons, List.sum_cons]

theorem cutFacet_within {counts : Counts} {undercount : Nat} (distinct : (counts.map Prod.fst).Nodup)
    (within : Within truth counts undercount) (no_proto : truth PROTO_KEY = 0) (options : FacetOptions) :
    Within truth (cutFacet options counts undercount).values (cutFacet options counts undercount).errorBound := by
  have ordered_distinct := orderFacets_distinct distinct options.ascending
  have ordered_within := within.congr (total_perm (orderFacets_perm options.ascending counts))
  have kept_within := ordered_within.cut ordered_distinct
    (keptCount options.limit (orderFacets options.ascending counts).length)
  have kept_distinct := ordered_distinct.sublist ((List.take_sublist
    (keptCount options.limit (orderFacets options.ascending counts).length) _).map Prod.fst)
  intro value
  by_cases proto : value = PROTO_KEY
  · subst proto
    rw [no_proto, cutFacet, total_of_not_mem (recordOf_no_proto kept_distinct)]
    exact ⟨Nat.le_refl _, Nat.zero_le _⟩
  · have here := kept_within value
    rw [← total_recordOf kept_distinct proto] at here
    exact here

theorem cutFacet_distinct {counts : Counts} (distinct : (counts.map Prod.fst).Nodup) (options : FacetOptions)
    (undercount : Nat) : ((cutFacet options counts undercount).values.map Prod.fst).Nodup ∧
      PROTO_KEY ∉ (cutFacet options counts undercount).values.map Prod.fst := by
  have kept_distinct := (orderFacets_distinct distinct options.ascending).sublist ((List.take_sublist
    (keptCount options.limit (orderFacets options.ascending counts).length) _).map Prod.fst)
  exact ⟨recordOf_distinct kept_distinct, recordOf_no_proto kept_distinct⟩

variable {α ν : Type} {parts : List α} (record : α → List (JsString × ν)) (listed : ν → Counts)

theorem mergeCounts_within (truth : α → JsString → Nat) (short : α → Nat) (some_part : parts ≠ [])
    (each : ∀ part ∈ parts, ((record part).map Prod.fst).Nodup ∧ ∃ reply,
      lookup (record part) field = some reply ∧ Within (truth part) (listed reply) (short part)) :
    ∃ counts, lookup (mergeCounts listed (parts.map record).flatten) field = some counts ∧
      (counts.map Prod.fst).Nodup ∧
      Within (fun value => (parts.map fun part => truth part value).sum) counts (parts.map short).sum := by
  have of_part : ∀ part ∈ parts, ∃ reply, (record part).filter (fun item => item.1 = field) = [(field, reply)] ∧
      Within (truth part) (listed reply) (short part) := by
    intro part member
    obtain ⟨distinct, reply, found, within⟩ := each part member
    exact ⟨reply, by rw [filter_key distinct, found]; rfl, within⟩
  have of_field : ((parts.map record).flatten.filter fun item => item.1 = field) =
      parts.flatMap fun part => (record part).filter fun item => item.1 = field := by
    rw [List.filter_flatten, List.map_map]
    rfl
  have known : ((parts.map record).flatten.filter fun item => item.1 = field) ≠ [] := by
    rw [of_field]
    intro none
    obtain ⟨part, member⟩ := List.exists_mem_of_ne_nil parts some_part
    obtain ⟨reply, filtered, _⟩ := of_part part member
    have empty := List.flatMap_eq_nil_iff.mp none part member
    rw [filtered] at empty
    exact List.cons_ne_nil _ _ empty
  refine ⟨_, lookup_mergeCounts known, add_distinct (by simp) _, Within.congr ?_ (total_add _)⟩
  rw [of_field, List.flatMap_assoc]
  apply Within.sum
  intro part member
  obtain ⟨reply, filtered, within⟩ := of_part part member
  rw [filtered, List.flatMap_cons, List.flatMap_nil, List.append_nil]
  exact within

theorem mergeCounts_distinct (listed : ν → Counts) (items : List (JsString × ν)) : ((mergeCounts listed items).map Prod.fst).Nodup :=
  collect_distinct _ _ _ items

end OneMerge

/-- The true counts of a partition's fields. -/
structure Partition where
  counted : JsString → Counts
  distinct : ∀ field, ((counted field).map Prod.fst).Nodup

def trueTotal (partitions : List Partition) (field value : JsString) : Nat :=
  (partitions.map fun partition => total (partition.counted field) value).sum

/-- The facets of partitions that a node can come to, whatever each merge keeps. -/
inductive Merged (field : JsString) : List Partition → List (JsString × FacetResult) → Prop
  | partition (partition : Partition) {config : List (JsString × FacetOptions)}
      (distinct : (config.map Prod.fst).Nodup) (asked : field ∈ config.map Prod.fst) :
      Merged field [partition] (computeFacets config partition.counted)
  | merge {parts : List (List Partition × List (JsString × FacetResult))} (some_part : parts ≠ [])
      (each : ∀ part ∈ parts, Merged field part.1 part.2) (config : List (JsString × FacetOptions)) :
      Merged field (parts.flatMap Prod.fst) (mergeFacets (parts.map Prod.snd) config)

/-- A node's reply, or what was merged of replies before. -/
structure WireReply where
  facets : List (JsString × List FacetBucket)
  errorBounds : List (JsString × Nat)

def mergeReplies (replies : List WireReply) (maxBuckets : Nat) (ascending : JsString → Bool) : DistributedFacets :=
  mergeDistributedFacets (replies.map WireReply.facets) (replies.map fun reply => some reply.errorBounds) maxBuckets
    ascending

inductive Replied (field : JsString) : List Partition → WireReply → Prop
  | node {partitions : List Partition} {facets : List (JsString × FacetResult)}
      (merged : Merged field partitions facets) :
      Replied field partitions ⟨convertLocalFacetsToWire facets, convertLocalFacetBoundsToWire facets⟩
  | merge {parts : List (List Partition × WireReply)} (some_part : parts ≠ [])
      (each : ∀ part ∈ parts, Replied field part.1 part.2) (maxBuckets : Nat) (ascending : JsString → Bool) :
      Replied field (parts.flatMap Prod.fst)
        ⟨(mergeReplies (parts.map Prod.snd) maxBuckets ascending).facets,
          (mergeReplies (parts.map Prod.snd) maxBuckets ascending).errorBounds⟩

/-- The true totals lie within what is reported of a field. -/
structure Sound (truth : JsString → Nat) (buckets : Counts) (undercount errorBound : Nat) : Prop where
  returned : ∀ value count, (value, count) ∈ buckets → count ≤ truth value ∧ truth value ≤ count + undercount
  left_out : ∀ value, value ∉ buckets.map Prod.fst → truth value ≤ errorBound

/-- Whatever is reported of a field of the partitions is sound, after every merge. -/
structure ReportsSound (partitions : List Partition) (field : JsString) : Prop where
  merged : ∀ facets, Merged field partitions facets → ∀ result, lookup facets field = some result →
    Sound (trueTotal partitions field) result.values result.errorBound result.errorBound
  distributed : ∀ (parts : List (List Partition × WireReply)) (maxBuckets : Nat) (ascending : JsString → Bool),
    parts ≠ [] → (∀ part ∈ parts, Replied field part.1 part.2) → parts.flatMap Prod.fst = partitions →
    ∃ buckets undercount errorBound,
      lookup (mergeReplies (parts.map Prod.snd) maxBuckets ascending).facets field = some buckets ∧
      lookup (mergeReplies (parts.map Prod.snd) maxBuckets ascending).undercounts field = some undercount ∧
      lookup (mergeReplies (parts.map Prod.snd) maxBuckets ascending).errorBounds field = some errorBound ∧
      Sound (trueTotal partitions field) buckets undercount errorBound

section Runs
variable {field : JsString} {partitions : List Partition}

theorem trueTotal_flatMap {α : Type} (parts : List (List Partition × α)) (field value : JsString) :
    trueTotal (parts.flatMap Prod.fst) field value = (parts.map fun part => trueTotal part.1 field value).sum := by
  induction parts with
  | nil => rfl
  | cons part rest ih =>
    rw [List.flatMap_cons, trueTotal, List.map_append, List.sum_append, List.map_cons, List.sum_cons, ← ih]
    rfl

theorem trueTotal_zero_of_mem {α : Type} {parts : List (List Partition × α)} {value : JsString}
    (zero : trueTotal (parts.flatMap Prod.fst) field value = 0) {part : List Partition × α} (member : part ∈ parts) :
    trueTotal part.1 field value = 0 := by
  rw [trueTotal_flatMap] at zero
  have most := List.single_le_sum (fun _ _ => Nat.zero_le _) _
    (List.mem_map_of_mem (f := fun part => trueTotal part.1 field value) member)
  omega

theorem Sound.of_within {truth : JsString → Nat} {ordered : Counts} {undercount : Nat}
    (distinct : (ordered.map Prod.fst).Nodup) (within : Within truth ordered undercount) (kept : Nat) :
    Sound truth (ordered.take kept) undercount (undercount + largestCount (ordered.drop kept)) where
  returned value count member := by
    have count_is : total ordered value = count := by
      rw [total_of_distinct distinct, lookup_of_mem distinct (List.mem_of_mem_take member), Option.getD_some]
    rw [← count_is]
    exact within value
  left_out value missing := by
    have most := (within.cut distinct kept value).2
    rwa [total_of_not_mem missing, Nat.zero_add] at most

/-- A reply reports the field, each value once, and is within its bound. -/
def ReplyWithin (truth : JsString → Nat) (field : JsString) (reply : WireReply) : Prop :=
  (reply.facets.map Prod.fst).Nodup ∧ ∃ buckets, lookup reply.facets field = some buckets ∧
    (buckets.map Prod.fst).Nodup ∧ Within truth buckets (total reply.errorBounds field)

def wireReply (facets : List (JsString × FacetResult)) : WireReply :=
  ⟨convertLocalFacetsToWire facets, convertLocalFacetBoundsToWire facets⟩

theorem total_bounds {facets : List (JsString × FacetResult)} {result : FacetResult}
    (distinct : (facets.map Prod.fst).Nodup) (found : lookup facets field = some result) :
    total (convertLocalFacetBoundsToWire facets) field = result.errorBound := by
  have keys : (convertLocalFacetBoundsToWire facets).map Prod.fst = facets.map Prod.fst := by
    rw [convertLocalFacetBoundsToWire, List.map_map]
    rfl
  rw [total_of_distinct (keys ▸ distinct), convertLocalFacetBoundsToWire,
    lookup_map_values FacetResult.errorBound facets field, found]
  rfl

theorem reply_of_result {truth : JsString → Nat} {facets : List (JsString × FacetResult)} {result : FacetResult}
    (distinct : (facets.map Prod.fst).Nodup) (found : lookup facets field = some result)
    (values_distinct : (result.values.map Prod.fst).Nodup) (within : Within truth result.values result.errorBound) :
    ReplyWithin truth field (wireReply facets) := by
  have keys : (convertLocalFacetsToWire facets).map Prod.fst = facets.map Prod.fst := by
    rw [convertLocalFacetsToWire, List.map_map]
    rfl
  refine ⟨keys ▸ distinct, result.values, ?_, values_distinct, ?_⟩
  · rw [wireReply, convertLocalFacetsToWire, lookup_map_values FacetResult.values facets field, found]
    rfl
  · rw [wireReply, total_bounds distinct found]
    exact within

theorem Merged.within {facets : List (JsString × FacetResult)} (merged : Merged field partitions facets)
    (no_proto : trueTotal partitions field PROTO_KEY = 0) : (facets.map Prod.fst).Nodup ∧
      ∃ result, lookup facets field = some result ∧ (result.values.map Prod.fst).Nodup ∧
        Within (trueTotal partitions field) result.values result.errorBound := by
  induction merged with
  | partition partition distinct asked =>
    have keys : ∀ config : List (JsString × FacetOptions),
        (computeFacets config partition.counted).map Prod.fst = config.map Prod.fst := by
      intro config
      rw [computeFacets, List.map_map]
      rfl
    rw [← lookup_isSome] at asked
    obtain ⟨options, found⟩ := Option.isSome_iff_exists.mp asked
    have truth_is : trueTotal [partition] field = total (partition.counted field) :=
      funext fun value => Nat.add_zero _
    rw [truth_is] at no_proto ⊢
    refine ⟨keys _ ▸ distinct, cutFacet options (partition.counted field) 0, ?_,
      (cutFacet_distinct (partition.distinct field) options 0).1, ?_⟩
    · rw [computeFacets, lookup_map_entries fun field options => cutFacet options (partition.counted field) 0, found]
      rfl
    · exact cutFacet_within (partition.distinct field) (fun value => ⟨Nat.le_refl _, Nat.le_refl _⟩) no_proto options
  | @merge parts some_part each config ih =>
    obtain ⟨counts, found, distinct, within⟩ := mergeCounts_within Prod.snd FacetResult.values
      (fun part => trueTotal part.1 field) (fun part => total (convertLocalFacetBoundsToWire part.2) field) some_part
      fun part member => by
        obtain ⟨distinct, result, found, _, within⟩ := ih part member (trueTotal_zero_of_mem no_proto member)
        exact ⟨distinct, result, found, by rw [total_bounds distinct found]; exact within⟩
    have truth_is : trueTotal (parts.flatMap Prod.fst) field =
        fun value => (parts.map fun part => trueTotal part.1 field value).sum :=
      funext fun value => trueTotal_flatMap parts field value
    rw [← truth_is] at within
    generalize bounds_is : ((parts.map Prod.snd).flatten.map fun item : JsString × FacetResult =>
      (item.1, item.2.errorBound)).foldl add [] = bounds
    have bound_is : (lookup bounds field).getD 0 =
        (parts.map fun part => total (convertLocalFacetBoundsToWire part.2) field).sum := by
      rw [← bounds_is, lookup_add, List.map_flatten, total_flatten, List.map_map, List.map_map]
      exact Nat.zero_add _
    rw [← bound_is] at within
    refine ⟨?_, cutFacet ((lookup config field).getD ⟨none, false⟩) counts _, ?_,
      (cutFacet_distinct distinct _ _).1, cutFacet_within distinct within no_proto _⟩
    · rw [mergeFacets, List.map_map]
      exact mergeCounts_distinct FacetResult.values _
    · rw [mergeFacets]
      dsimp only
      rw [bounds_is, lookup_map_entries fun field counts =>
        cutFacet ((lookup config field).getD ⟨none, false⟩) counts ((lookup bounds field).getD 0), found]
      rfl

theorem mergeDistributedFacets_field {allFacets : List (List (JsString × List FacetBucket))} {counts : Counts}
    (found : lookup (mergeCounts id allFacets.flatten) field = some counts)
    (allBounds : List (Option (List (JsString × Nat)))) (maxBuckets : Nat) (ascending : JsString → Bool) :
    let merged := mergeDistributedFacets allFacets allBounds maxBuckets ascending
    let undercount := total (allBounds.flatMap fun bounds => bounds.getD []) field
    let ordered := orderFacets (ascending field) counts
    lookup merged.facets field = some (ordered.take maxBuckets) ∧ lookup merged.undercounts field = some undercount ∧
      lookup merged.errorBounds field = some (undercount + largestCount (ordered.drop maxBuckets)) := by
  intro merged undercount ordered
  have bound_is : (lookup ((allBounds.flatMap fun bounds => bounds.getD []).foldl add []) field).getD 0 =
      undercount := by
    rw [lookup_add]
    exact Nat.zero_add _
  have of_field : ∀ {μ : Type} (f : JsString → Counts → μ),
      lookup ((mergeCounts id allFacets.flatten).map fun entry => (entry.1, f entry.1 entry.2)) field =
        some (f field counts) := by
    intro μ f
    rw [lookup_map_entries f, found]
    rfl
  simp only [merged, mergeDistributedFacets, List.map_map]
  refine ⟨of_field fun field counts => (orderFacets (ascending field) counts).take maxBuckets, ?_, ?_⟩
  · rw [← bound_is]
    exact of_field fun field _ => (lookup ((allBounds.flatMap fun bounds => bounds.getD []).foldl add []) field).getD 0
  · rw [← bound_is]
    exact of_field fun field counts =>
      (lookup ((allBounds.flatMap fun bounds => bounds.getD []).foldl add []) field).getD 0 +
        largestCount ((orderFacets (ascending field) counts).drop maxBuckets)

theorem mergeReplies_spec {parts : List (List Partition × WireReply)} (some_part : parts ≠ [])
    (each : ∀ part ∈ parts, ReplyWithin (trueTotal part.1 field) field part.2) (maxBuckets : Nat)
    (ascending : JsString → Bool) : ∃ ordered undercount,
      lookup (mergeReplies (parts.map Prod.snd) maxBuckets ascending).facets field = some (ordered.take maxBuckets) ∧
      lookup (mergeReplies (parts.map Prod.snd) maxBuckets ascending).undercounts field = some undercount ∧
      lookup (mergeReplies (parts.map Prod.snd) maxBuckets ascending).errorBounds field =
        some (undercount + largestCount (ordered.drop maxBuckets)) ∧
      (ordered.map Prod.fst).Nodup ∧ Within (trueTotal (parts.flatMap Prod.fst) field) ordered undercount := by
  obtain ⟨counts, found, distinct, within⟩ := mergeCounts_within (fun part => part.2.facets) id
    (fun part => trueTotal part.1 field) (fun part => total part.2.errorBounds field) some_part
    fun part member => by
      obtain ⟨distinct, buckets, found, _, within⟩ := each part member
      exact ⟨distinct, buckets, found, within⟩
  have truth_is : trueTotal (parts.flatMap Prod.fst) field =
      fun value => (parts.map fun part => trueTotal part.1 field value).sum :=
    funext fun value => trueTotal_flatMap parts field value
  have bound_is : total (((parts.map Prod.snd).map fun reply : WireReply => some reply.errorBounds).flatMap
      fun bounds => bounds.getD []) field = (parts.map fun part => total part.2.errorBounds field).sum := by
    rw [List.map_map, List.flatMap_map, List.flatMap_def, total_flatten, List.map_map]
    rfl
  rw [← bound_is, ← truth_is] at within
  have same_lists : parts.map (fun part => part.2.facets) = (parts.map Prod.snd).map WireReply.facets := by
    rw [List.map_map]
    rfl
  rw [same_lists] at found
  obtain ⟨facets, undercounts, errorBounds⟩ := mergeDistributedFacets_field found
    ((parts.map Prod.snd).map fun reply : WireReply => some reply.errorBounds) maxBuckets ascending
  exact ⟨_, _, facets, undercounts, errorBounds, orderFacets_distinct distinct _,
    within.congr (total_perm (orderFacets_perm _ _))⟩

theorem mergeReplies_distinct (replies : List WireReply) (maxBuckets : Nat) (ascending : JsString → Bool) :
    ((mergeReplies replies maxBuckets ascending).facets.map Prod.fst).Nodup ∧
      ((mergeReplies replies maxBuckets ascending).errorBounds.map Prod.fst).Nodup := by
  have distinct := mergeCounts_distinct id (replies.map WireReply.facets).flatten
  simp only [mergeReplies, mergeDistributedFacets, List.map_map]
  exact ⟨distinct, distinct⟩

theorem Replied.within {reply : WireReply} (replied : Replied field partitions reply)
    (no_proto : trueTotal partitions field PROTO_KEY = 0) : ReplyWithin (trueTotal partitions field) field reply := by
  induction replied with
  | node merged =>
    obtain ⟨distinct, result, found, values_distinct, within⟩ := merged.within no_proto
    exact reply_of_result distinct found values_distinct within
  | @merge parts some_part each maxBuckets ascending ih =>
    obtain ⟨ordered, undercount, facets, _, errorBounds, distinct, within⟩ := mergeReplies_spec some_part
      (fun part member => ih part member (trueTotal_zero_of_mem no_proto member)) maxBuckets ascending
    obtain ⟨facets_distinct, bounds_distinct⟩ := mergeReplies_distinct (parts.map Prod.snd) maxBuckets ascending
    refine ⟨facets_distinct, _, facets, distinct.sublist ((List.take_sublist _ _).map _), ?_⟩
    rw [total_of_distinct bounds_distinct, errorBounds, Option.getD_some]
    exact within.cut distinct maxBuckets

/-- The config that keeps every value of the field. -/
def everyValue (field : JsString) : List (JsString × FacetOptions) := [(field, ⟨none, false⟩)]

theorem cutFacet_keeps_all (counts : Counts) (undercount : Nat) :
    (cutFacet ⟨none, false⟩ counts undercount).errorBound = undercount := by
  have none_left : ∀ ordered : Counts, ordered.drop (keptCount none ordered.length) = [] := fun ordered =>
    List.drop_eq_nil_of_le (Nat.le_refl _)
  rw [cutFacet, none_left]
  rfl

theorem merged_everyValue (field : JsString) (some_partition : partitions ≠ []) : ∃ facets result, Merged field partitions facets ∧
    lookup facets field = some result ∧ result.errorBound = 0 ∧ PROTO_KEY ∉ result.values.map Prod.fst := by
  have each : ∀ part ∈ partitions.map fun partition => ([partition], computeFacets (everyValue field) partition.counted),
      Merged field part.1 part.2 := by
    intro part member
    obtain ⟨partition, _, rfl⟩ := List.mem_map.mp member
    exact .partition partition (List.nodup_singleton _) (List.mem_singleton.mpr rfl)
  have merged := Merged.merge (by simpa using some_partition) each []
  have partitions_are : ((partitions.map fun partition =>
      ([partition], computeFacets (everyValue field) partition.counted)).flatMap Prod.fst) = partitions := by
    rw [List.flatMap_map]
    exact List.flatMap_singleton' partitions
  rw [partitions_are, List.map_map] at merged
  have items_of_field : (partitions.map fun partition => computeFacets (everyValue field) partition.counted).flatten =
      partitions.map fun partition => (field, cutFacet ⟨none, false⟩ (partition.counted field) 0) := by
    rw [← List.flatMap_def]
    exact List.flatMap_pure_eq_map _ _
  have no_bound : ∀ rest : List Partition, total (rest.map fun partition =>
      (field, (cutFacet ⟨none, false⟩ (partition.counted field) 0).errorBound)) field = 0 := by
    intro rest
    induction rest with
    | nil => rfl
    | cons partition rest ih => rw [List.map_cons, total_cons, ih, cutFacet_keeps_all, ite_self]
  have all_of_field : ((partitions.map fun partition =>
      (field, cutFacet ⟨none, false⟩ (partition.counted field) 0)).filter fun item => item.1 = field) =
        partitions.map fun partition => (field, cutFacet ⟨none, false⟩ (partition.counted field) 0) := by
    apply List.filter_eq_self.mpr
    intro item member
    obtain ⟨partition, _, rfl⟩ := List.mem_map.mp member
    exact decide_eq_true rfl
  generalize counts_is : ((partitions.map fun partition =>
    (field, cutFacet ⟨none, false⟩ (partition.counted field) 0)).flatMap fun item => item.2.values).foldl add [] = counts
  have found : lookup (mergeCounts FacetResult.values (partitions.map fun partition =>
      (field, cutFacet ⟨none, false⟩ (partition.counted field) 0))) field = some counts := by
    rw [lookup_mergeCounts (by rw [all_of_field]; simpa using some_partition), all_of_field, counts_is]
  have distinct : (counts.map Prod.fst).Nodup := counts_is ▸ add_distinct (by simp) _
  refine ⟨_, cutFacet ⟨none, false⟩ counts 0, merged, ?_, cutFacet_keeps_all _ _, (cutFacet_distinct distinct _ _).2⟩
  rw [mergeFacets]
  dsimp only
  rw [show (partitions.map (Prod.snd ∘ fun partition => ([partition], computeFacets (everyValue field)
    partition.counted))).flatten = _ from items_of_field, List.map_map]
  generalize bounds_is : (partitions.map ((fun item : JsString × FacetResult => (item.1, item.2.errorBound)) ∘
    fun partition => (field, cutFacet ⟨none, false⟩ (partition.counted field) 0))).foldl add [] = bounds
  have bound_is : (lookup bounds field).getD 0 = 0 := by
    rw [← bounds_is, lookup_add]
    exact (Nat.zero_add _).trans (no_bound partitions)
  rw [lookup_map_entries fun field counts =>
    cutFacet ((lookup [] field).getD ⟨none, false⟩) counts ((lookup bounds field).getD 0), found, Option.map_some, bound_is]
  rfl

end Runs

/-- A partition with one document whose value of the field is `__proto__`. -/
def protoPartition : Partition := ⟨fun _ => [(PROTO_KEY, 1)], fun _ => List.nodup_singleton _⟩

end Narsil.Facets
