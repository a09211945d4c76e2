import Mathlib.Data.List.Induction
import Narsil.Composite.VisibleDocuments
import Narsil.Segment.SegmentEquivalence

/-!
# Opening segment files

The files of a partition are opened in order. Each takes from the segments before it
what it replaces, a paged file only the ids of its tombstones, and is attached as one
more frozen segment.
-/
namespace Narsil.Segment

open Assoc Layered Composite

/-- A partition that is being opened; a segment goes by the place of its file. -/
abbrev OpenedPartition := CompositePartition String Document Nat

/-- `removeFromPartition`; `manager.remove` does the same for a keyword file. -/
def removeFromPartition (partition : OpenedPartition) (docIds : List String) : OpenedPartition :=
  docIds.foldl
    (fun held docId =>
      if held.has docId then
        match held.remove docId with
        | .ok left => left
        | .error _ => held
      else held)
    partition

variable (paths : List FieldPath)

def frozenSegmentOf (place : Nat) (file : SegmentFile) : FrozenSegment String Document Nat where
  segmentId := place
  documents := file.documents.map fun d => (d.1, decodeStoredDocument d.2 paths)
  tombstones := []

/-- `attachPagedSegment`, or what stands in its place for a keyword file. -/
def openSegment (partition : OpenedPartition) (file : SegmentFile × Nat) : Option OpenedPartition :=
  let cleared := removeFromPartition partition file.1.replaces
  -- requireNewSegmentDocuments
  if !file.1.paged && file.1.ids.any fun docId => cleared.has docId then none
  else if file.1.documents.length > 0 then
    some { cleared with frozen := cleared.frozen ++ [frozenSegmentOf paths file.2 file.1] }
  else some cleared

def openSegments (files : List SegmentFile) : Option OpenedPartition :=
  files.zipIdx.foldlM (openSegment paths) ⟨[], []⟩

section Removing
variable {partition : OpenedPartition}

theorem has_iff_rows (live : partition.live = []) (distinct : Distinct partition.frozen) (docId : String) :
    partition.has docId = true ↔ docId ∈ (frozenRows partition.frozen).map Prod.fst := by
  have nowhere : LivePartition.has partition.live docId = false := by
    rw [live]
    rfl
  rw [CompositePartition.has, nowhere, Bool.false_or]
  exact frozenOwner_isSome distinct

/-- What taking ids out of a partition without a live tail leaves. -/
structure Cleared (old : OpenedPartition) (docIds : List String) (new : OpenedPartition) : Prop where
  live : new.live = []
  segments : List.Forall₂ Shrinks old.frozen new.frozen
  rows : frozenRows new.frozen = (frozenRows old.frozen).filter fun row => row.1 ∉ docIds

theorem removeFromPartition_cleared (docIds : List String) (live : partition.live = [])
    (distinct : Distinct partition.frozen) (apart : ((frozenRows partition.frozen).map Prod.fst).Nodup) :
    Cleared partition docIds (removeFromPartition partition docIds) := by
  induction docIds generalizing partition with
  | nil =>
    constructor
    · exact live
    · exact unchanged_shrinks _
    · simp [removeFromPartition]
  | cons docId rest ih =>
    -- one id: its row goes, if it has one
    have one : ∃ left : OpenedPartition, removeFromPartition partition (docId :: rest) =
        removeFromPartition left rest ∧ Cleared partition [docId] left := by
      by_cases held : partition.has docId = true
      · have owned := (frozenOwner_isSome distinct).mpr ((has_iff_rows live distinct docId).mp held)
        obtain ⟨owner, found⟩ := Option.isSome_iff_exists.mp owned
        have removed : partition.remove docId =
            .ok { partition with frozen := CompositePartition.tombstoneInOwner partition.frozen docId } := by
          rw [CompositePartition.remove, live]
          simp only [LivePartition.has, lookup, List.find?_nil, Option.map_none, Option.isSome_none,
            Bool.false_eq_true, if_false, found]
        refine ⟨{ partition with frozen := CompositePartition.tombstoneInOwner partition.frozen docId },
          ?_, live, tombstoneInOwner_shrinks distinct docId, ?_⟩
        · rw [removeFromPartition, List.foldl_cons, if_pos held, removed]
          rfl
        · rw [tombstoneInOwner_rows distinct apart, erase]
          simp
      · refine ⟨partition, ?_, live, unchanged_shrinks _, ?_⟩
        · rw [removeFromPartition, List.foldl_cons, if_neg held]
          rfl
        · rw [has_iff_rows live distinct] at held
          symm
          rw [List.filter_eq_self]
          intro row member
          have other : row.1 ≠ docId := fun same => held (same ▸ List.mem_map_of_mem member)
          simpa using other
    obtain ⟨left, same, cleared⟩ := one
    have left_apart : ((frozenRows left.frozen).map Prod.fst).Nodup := by
      rw [cleared.rows]
      exact apart.sublist (List.filter_sublist.map _)
    have later := ih cleared.live (Shrinks.distinct cleared.segments distinct) left_apart
    rw [same]
    constructor
    · exact later.live
    · exact shrinks_trans cleared.segments later.segments
    · rw [later.rows, cleared.rows, List.filter_filter]
      apply List.filter_congr
      intro row _
      simp [Bool.and_comm]

end Removing

variable {paths : List FieldPath} {files : List SegmentFile} {partition : OpenedPartition}

/-- A partition opened from files: it shows what loading them gives, each segment is a
    file's, and no later file replaces what a segment still shows. -/
structure Opened (paths : List FieldPath) (files : List SegmentFile) (partition : OpenedPartition) :
    Prop where
  live : partition.live = []
  distinct : Distinct partition.frozen
  rows : frozenRows partition.frozen = load (layersOf paths files)
  placed : ∀ segment ∈ partition.frozen, ∃ file, files[segment.segmentId]? = some file ∧
    segment.documents = (frozenSegmentOf paths segment.segmentId file).documents
  once : (partition.frozen.map FrozenSegment.segmentId).Nodup
  masked : ∀ segment ∈ partition.frozen, ∀ docId, segment.hasDocument docId = true →
    ∀ later file, segment.segmentId < later → files[later]? = some file → docId ∉ file.replaces

theorem load_nodup (exclusive : Exclusive (layersOf paths files))
    (single : ∀ file ∈ files, file.ids.Nodup) :
    ((load (layersOf paths files)).map Prod.fst).Nodup := by
  rw [load_eq_survivors]
  apply nodup_survivors exclusive
  intro l member
  obtain ⟨file, in_files, rfl⟩ := List.mem_map.mp member
  rw [layer_keys]
  exact single file in_files

theorem Opened.openSegment {file : SegmentFile} (opened : Opened paths files partition)
    (exclusive : Exclusive (layersOf paths files)) (single : ∀ file ∈ files, file.ids.Nodup)
    (own : file.ids.Nodup) :
    ∃ next, openSegment paths partition (file, files.length) = some next ∧
      Opened paths (files ++ [file]) next := by
  have apart := load_nodup exclusive single
  rw [← opened.rows] at apart
  have cleared := removeFromPartition_cleared file.replaces opened.live opened.distinct apart
  have distinct := Shrinks.distinct cleared.segments opened.distinct
  -- what the files before still show is as before, but for what this one replaces
  have placed : ∀ segment ∈ (removeFromPartition partition file.replaces).frozen,
      ∃ held, (files ++ [file])[segment.segmentId]? = some held ∧
        segment.documents = (frozenSegmentOf paths segment.segmentId held).documents := by
    intro segment member
    obtain ⟨before, there, shrunk⟩ := related_before cleared.segments member
    obtain ⟨held, at_place, documents⟩ := opened.placed before there
    refine ⟨held, ?_, ?_⟩
    · rw [shrunk.segmentId]
      exact List.getElem?_append_left (List.getElem?_eq_some_iff.mp at_place).1 ▸ at_place
    · rw [shrunk.documents, documents, shrunk.segmentId]
  have masked : ∀ segment ∈ (removeFromPartition partition file.replaces).frozen, ∀ docId,
      segment.hasDocument docId = true → ∀ later held, segment.segmentId < later →
        (files ++ [file])[later]? = some held → docId ∉ held.replaces := by
    intro segment member docId shown later held after at_later
    obtain ⟨before, there, shrunk⟩ := related_before cleared.segments member
    have row := (FrozenSegment.hasDocument_iff (distinct segment member)).mp shown
    by_cases inside : later < files.length
    · rw [List.getElem?_append_left inside] at at_later
      have shown_before : before.hasDocument docId = true :=
        (FrozenSegment.hasDocument_iff (opened.distinct before there)).mpr
          (List.map_subset _ shrunk.survivors row)
      exact opened.masked before there docId shown_before later held (shrunk.segmentId ▸ after) at_later
    · have last : held = file := by
        have bound := (List.getElem?_eq_some_iff.mp at_later).1
        rw [List.length_append, List.length_singleton] at bound
        obtain rfl : later = files.length := by omega
        rw [List.getElem?_concat_length] at at_later
        exact (Option.some.inj at_later).symm
      have listed := (mem_frozenRows_keys distinct).mpr ⟨segment, member, shown⟩
      rw [cleared.rows] at listed
      obtain ⟨row, kept, rfl⟩ := List.mem_map.mp listed
      rw [last]
      simpa using (List.mem_filter.mp kept).2
  have layers : load (layersOf paths (files ++ [file])) =
      attach (load (layersOf paths files)) (file.layer paths) := by
    rw [load, layersOf, List.map_append, List.foldl_append]
    rfl
  have kept_rows : frozenRows (removeFromPartition partition file.replaces).frozen =
      (load (layersOf paths files)).filter fun e => e.1 ∉ (file.layer paths).removes := by
    rw [cleared.rows, opened.rows]
    rfl
  have once := opened.once
  rw [← shrinks_names cleared.segments] at once
  have fresh : ¬ (!file.paged && file.ids.any fun docId =>
      (removeFromPartition partition file.replaces).has docId) = true := by
    intro refused
    rw [Bool.and_eq_true, Bool.not_eq_true', List.any_eq_true] at refused
    obtain ⟨keyword, docId, in_file, held⟩ := refused
    rw [has_iff_rows cleared.live distinct, cleared.rows] at held
    obtain ⟨row, kept, rfl⟩ := List.mem_map.mp held
    have gone : row.1 ∉ file.replaces := by simpa using (List.mem_filter.mp kept).2
    apply gone
    rw [SegmentFile.replaces, keyword]
    exact List.mem_append_right _ in_file
  rw [Segment.openSegment]
  dsimp only
  rw [if_neg fresh]
  split
  · refine ⟨_, rfl, cleared.live, ?_, ?_, ?_, ?_, ?_⟩
    · intro segment member
      rcases List.mem_append.mp member with old | new
      · exact distinct segment old
      · obtain rfl := List.mem_singleton.mp new
        rw [FrozenSegment.ids, frozenSegmentOf, List.map_map]
        exact own
    · rw [frozenRows_append, kept_rows, layers, attach]
      congr 1
      rw [frozenRows, List.flatMap_singleton]
      exact survivors_fresh _ _
    · intro segment member
      rcases List.mem_append.mp member with old | new
      · exact placed segment old
      · obtain rfl := List.mem_singleton.mp new
        exact ⟨file, List.getElem?_concat_length, rfl⟩
    · rw [List.map_append, List.nodup_append]
      refine ⟨once, List.nodup_singleton _, ?_⟩
      rintro place listed other new rfl
      obtain rfl := List.mem_singleton.mp new
      obtain ⟨segment, member, same⟩ := List.mem_map.mp listed
      obtain ⟨before, there, shrunk⟩ := related_before cleared.segments member
      obtain ⟨held, at_place, -⟩ := opened.placed before there
      have bound := (List.getElem?_eq_some_iff.mp at_place).1
      rw [← shrunk.segmentId, same] at bound
      exact absurd bound (Nat.lt_irrefl _)
    · intro segment member docId shown later held after at_later
      rcases List.mem_append.mp member with old | new
      · exact masked segment old docId shown later held after at_later
      · obtain rfl := List.mem_singleton.mp new
        have bound := (List.getElem?_eq_some_iff.mp at_later).1
        rw [List.length_append, List.length_singleton] at bound
        have past : files.length < later := after
        omega
  · next empty =>
    refine ⟨_, rfl, cleared.live, distinct, ?_, placed, once, masked⟩
    have nothing : file.documents = [] := List.length_eq_zero_iff.mp (by omega)
    rw [kept_rows, layers, attach, SegmentFile.layer, nothing]
    simp

theorem openSegments_opened (exclusive : Exclusive (layersOf paths files))
    (single : ∀ file ∈ files, file.ids.Nodup) :
    ∃ partition, openSegments paths files = some partition ∧ Opened paths files partition := by
  induction files using List.reverseRecOn with
  | nil =>
    refine ⟨⟨[], []⟩, rfl, rfl, ?_, rfl, ?_, List.nodup_nil, ?_⟩
    · exact fun segment member => absurd member List.not_mem_nil
    · exact fun segment member => absurd member List.not_mem_nil
    · exact fun segment member => absurd member List.not_mem_nil
  | append_singleton before file ih =>
    have layers : layersOf paths (before ++ [file]) =
        layersOf paths before ++ layersOf paths [file] := List.map_append
    rw [layers] at exclusive
    have before_single : ∀ other ∈ before, other.ids.Nodup := fun other member =>
      single other (by simp [member])
    have before_exclusive := (exclusive_append.mp exclusive).1
    obtain ⟨partition, opens, opened⟩ := ih before_exclusive before_single
    obtain ⟨next, step, later⟩ :=
      opened.openSegment before_exclusive before_single (single file (by simp))
    refine ⟨next, ?_, later⟩
    rw [openSegments, List.zipIdx_append, List.foldlM_append]
    rw [openSegments] at opens
    rw [opens]
    simpa using step

end Narsil.Segment
