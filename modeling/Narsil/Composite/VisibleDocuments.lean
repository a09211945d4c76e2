import Mathlib.Data.List.Perm.Basic
import Narsil.Composite.Partition
import Narsil.Transition.Run

/-!
# The documents a composite partition shows

The rows of a partition are the survivors of its segments followed by the live tail. An
id has one row at most, and a partition reads an id as its rows do. A swap permutes the
rows, because a document of the replacement is masked exactly when no dropped segment
holds it live any more.
-/
namespace Narsil.Composite

variable {Id Doc SegmentId : Type} [DecidableEq Id]
variable {frozen : List (FrozenSegment Id Doc SegmentId)} {docId : Id} {document : Doc}

def frozenRows (frozen : List (FrozenSegment Id Doc SegmentId)) : List (Id × Doc) :=
  frozen.flatMap FrozenSegment.survivors

def CompositePartition.rows (partition : CompositePartition Id Doc SegmentId) : List (Id × Doc) :=
  frozenRows partition.frozen ++ partition.live

/-- Every segment lists its ids once. -/
def Distinct (frozen : List (FrozenSegment Id Doc SegmentId)) : Prop :=
  ∀ segment ∈ frozen, segment.ids.Nodup

omit [DecidableEq Id] in
theorem frozenRows_append (left right : List (FrozenSegment Id Doc SegmentId)) :
    frozenRows (left ++ right) = frozenRows left ++ frozenRows right :=
  List.flatMap_append

omit [DecidableEq Id] in
theorem frozenRows_cons (segment : FrozenSegment Id Doc SegmentId)
    (rest : List (FrozenSegment Id Doc SegmentId)) :
    frozenRows (segment :: rest) = segment.survivors ++ frozenRows rest :=
  List.flatMap_cons

omit [DecidableEq Id] in
theorem survivors_fresh (segmentId : SegmentId) (documents : List (Id × Doc)) :
    FrozenSegment.survivors ⟨segmentId, documents, []⟩ = documents := by
  simp [FrozenSegment.survivors, FrozenSegment.isTombstoned]

theorem findSome_projectedDocument (distinct : Distinct frozen) (docId : Id) :
    (frozen.findSome? fun segment => segment.projectedDocument docId) =
      Assoc.lookup (frozenRows frozen) docId := by
  induction frozen with
  | nil => rfl
  | cons segment rest ih =>
    have read := segment.projectedDocument_eq (distinct segment (by simp)) docId
    rw [frozenRows_cons, Assoc.lookup_append, List.findSome?_cons, read,
      ih fun other member => distinct other (by simp [member])]
    cases Assoc.lookup segment.survivors docId <;> rfl

theorem get_eq_lookup {partition : CompositePartition Id Doc SegmentId}
    (distinct : Distinct partition.frozen) (docId : Id) :
    partition.get docId = Assoc.lookup partition.rows docId := by
  rw [CompositePartition.get, findSome_projectedDocument distinct, CompositePartition.rows,
    Assoc.lookup_append]
  cases Assoc.lookup (frozenRows partition.frozen) docId <;> rfl

theorem mem_frozenRows_keys (distinct : Distinct frozen) :
    docId ∈ (frozenRows frozen).map Prod.fst ↔
      ∃ segment ∈ frozen, segment.hasDocument docId = true := by
  rw [frozenRows, List.map_flatMap, List.mem_flatMap]
  apply exists_congr
  intro segment
  apply and_congr_right
  intro member
  exact (FrozenSegment.hasDocument_iff (distinct segment member)).symm

theorem frozenOwner_isSome {partition : CompositePartition Id Doc SegmentId}
    (distinct : Distinct partition.frozen) :
    (partition.frozenOwner docId).isSome = true ↔
      docId ∈ (frozenRows partition.frozen).map Prod.fst := by
  rw [mem_frozenRows_keys distinct, CompositePartition.frozenOwner, List.find?_isSome]

/-- What a tombstone leaves of a segment: the name, the documents and fewer survivors. -/
structure Shrinks (old new : FrozenSegment Id Doc SegmentId) : Prop where
  segmentId : new.segmentId = old.segmentId
  documents : new.documents = old.documents
  survivors : new.survivors ⊆ old.survivors

omit [DecidableEq Id] in
theorem Shrinks.refl (segment : FrozenSegment Id Doc SegmentId) : Shrinks segment segment :=
  ⟨rfl, rfl, fun _ member => member⟩

theorem tombstoneDocument_shrinks {segment : FrozenSegment Id Doc SegmentId}
    (distinct : segment.ids.Nodup) (docId : Id) : Shrinks segment (segment.tombstoneDocument docId) where
  segmentId := segment.tombstoneDocument_segmentId docId
  documents := segment.tombstoneDocument_documents docId
  survivors := by
    rw [FrozenSegment.tombstoneDocument_survivors distinct]
    exact (Assoc.erase_sublist _ _).subset

theorem tombstoneInOwner_shrinks (distinct : Distinct frozen) (docId : Id) :
    List.Forall₂ Shrinks frozen (CompositePartition.tombstoneInOwner frozen docId) := by
  induction frozen with
  | nil => exact List.Forall₂.nil
  | cons segment rest ih =>
    have rest_distinct : Distinct rest := fun other member => distinct other (by simp [member])
    rw [CompositePartition.tombstoneInOwner]
    split
    · apply List.Forall₂.cons (tombstoneDocument_shrinks (distinct segment (by simp)) docId)
      exact List.forall₂_same.mpr fun other _ => Shrinks.refl other
    · exact List.Forall₂.cons (Shrinks.refl segment) (ih rest_distinct)

omit [DecidableEq Id] in
theorem Shrinks.trans {older old new : FrozenSegment Id Doc SegmentId} (h : Shrinks older old)
    (h' : Shrinks old new) : Shrinks older new :=
  ⟨h'.segmentId.trans h.segmentId, h'.documents.trans h.documents, fun _ member =>
    h.survivors (h'.survivors member)⟩

omit [DecidableEq Id] in
theorem shrinks_trans {older old new : List (FrozenSegment Id Doc SegmentId)}
    (first : List.Forall₂ Shrinks older old) (second : List.Forall₂ Shrinks old new) :
    List.Forall₂ Shrinks older new := by
  induction first generalizing new with
  | nil => exact second
  | cons one _ ih =>
    cases second with
    | cons one' rest => exact List.Forall₂.cons (one.trans one') (ih rest)

theorem tombstoneInOwner_rows (distinct : Distinct frozen)
    (apart : ((frozenRows frozen).map Prod.fst).Nodup) (docId : Id) :
    frozenRows (CompositePartition.tombstoneInOwner frozen docId) =
      Assoc.erase (frozenRows frozen) docId := by
  induction frozen with
  | nil => rfl
  | cons segment rest ih =>
    have own := distinct segment (by simp)
    rw [frozenRows_cons, List.map_append, List.nodup_append] at apart
    rw [CompositePartition.tombstoneInOwner, frozenRows_cons, Assoc.erase_append]
    split
    · next live =>
      -- The segment holds the document, so no later one does.
      have held := (FrozenSegment.hasDocument_iff own).mp live
      have elsewhere : docId ∉ (frozenRows rest).map Prod.fst := fun member =>
        apart.2.2 docId held docId member rfl
      rw [frozenRows_cons, FrozenSegment.tombstoneDocument_survivors own,
        Assoc.erase_of_not_mem elsewhere]
    · next dead =>
      have missing : docId ∉ segment.survivors.map Prod.fst := by
        rwa [← FrozenSegment.hasDocument_iff own]
      rw [frozenRows_cons, Assoc.erase_of_not_mem missing,
        ih (fun other member => distinct other (by simp [member])) apart.2.1]

theorem related_after {α β : Type} {R : α → β → Prop} {xs : List α} {ys : List β}
    (related : List.Forall₂ R xs ys) {x : α} (member : x ∈ xs) : ∃ y ∈ ys, R x y := by
  induction related with
  | nil => exact absurd member List.not_mem_nil
  | cons head _ ih =>
    rcases List.mem_cons.mp member with rfl | later
    · exact ⟨_, by simp, head⟩
    · obtain ⟨y, held, found⟩ := ih later
      exact ⟨y, by simp [held], found⟩

theorem related_before {α β : Type} {R : α → β → Prop} {xs : List α} {ys : List β}
    (related : List.Forall₂ R xs ys) {y : β} (member : y ∈ ys) : ∃ x ∈ xs, R x y :=
  related_after related.flip member

omit [DecidableEq Id] in
theorem Shrinks.ids {old new : FrozenSegment Id Doc SegmentId} (shrinks : Shrinks old new) :
    new.ids = old.ids :=
  congrArg (List.map Prod.fst) shrinks.documents

omit [DecidableEq Id] in
theorem Shrinks.distinct {frozen' : List (FrozenSegment Id Doc SegmentId)}
    (same : List.Forall₂ Shrinks frozen frozen') (distinct : Distinct frozen) : Distinct frozen' := by
  intro segment' member
  obtain ⟨segment, held, shrinks⟩ := related_before same member
  exact shrinks.ids ▸ distinct segment held

omit [DecidableEq Id] in
theorem shrinks_names {frozen frozen' : List (FrozenSegment Id Doc SegmentId)}
    (same : List.Forall₂ Shrinks frozen frozen') :
    frozen'.map FrozenSegment.segmentId = frozen.map FrozenSegment.segmentId := by
  induction same with
  | nil => rfl
  | cons head _ ih => rw [List.map_cons, List.map_cons, head.segmentId, ih]

omit [DecidableEq Id] in
theorem unchanged_shrinks (frozen : List (FrozenSegment Id Doc SegmentId)) :
    List.Forall₂ Shrinks frozen frozen :=
  List.forall₂_same.mpr fun segment _ => Shrinks.refl segment

theorem maskRemoved_spec (dropped : List (FrozenSegment Id Doc SegmentId)) (docIds : List Id)
    {replacement : FrozenSegment Id Doc SegmentId} (distinct : replacement.ids.Nodup) :
    (maskRemoved dropped docIds replacement).segmentId = replacement.segmentId ∧
      (maskRemoved dropped docIds replacement).documents = replacement.documents ∧
      ∀ row, row ∈ (maskRemoved dropped docIds replacement).survivors ↔
        row ∈ replacement.survivors ∧
          (row.1 ∈ docIds → dropped.any (fun other => other.hasDocument row.1) = true) := by
  induction docIds generalizing replacement with
  | nil => simp [maskRemoved]
  | cons docId rest ih =>
    rw [maskRemoved, List.foldl_cons, ← maskRemoved]
    split
    · next missing =>
      obtain ⟨named, held, rows⟩ := ih distinct
      refine ⟨named, held, fun row => ?_⟩
      rw [rows]
      apply and_congr_right
      intro member
      have live := (FrozenSegment.hasDocument_iff distinct).mpr (List.mem_map_of_mem member)
      have other : row.1 ≠ docId := by
        rintro rfl
        simp [live] at missing
      simp [other]
    · split
      · next still =>
        obtain ⟨named, held, rows⟩ := ih distinct
        refine ⟨named, held, fun row => ?_⟩
        rw [rows, List.mem_cons]
        apply and_congr_right
        intro _
        constructor
        · rintro masked (rfl | later)
          · exact still
          · exact masked later
        · exact fun masked later => masked (Or.inr later)
      · next gone =>
        have own : (replacement.tombstoneDocument docId).ids.Nodup := by simpa using distinct
        obtain ⟨named, held, rows⟩ := ih own
        refine ⟨by simpa using named, by simpa using held, fun row => ?_⟩
        rw [rows, FrozenSegment.tombstoneDocument_survivors distinct, Assoc.mem_erase, and_assoc,
          List.mem_cons]
        apply and_congr_right
        intro _
        constructor
        · rintro ⟨other, masked⟩ (same | later)
          · exact absurd same other
          · exact masked later
        · intro masked
          refine ⟨fun same => gone ?_, fun later => masked (Or.inr later)⟩
          exact same ▸ masked (Or.inl same)

/-- What holds between a running merge and the segments it read: it has every document
    that is still live in them, and nothing they never had. -/
structure Merge.Covers (merge : Merge Id Doc SegmentId)
    (frozen : List (FrozenSegment Id Doc SegmentId)) : Prop where
  distinct : (merge.documents.map Prod.fst).Nodup
  live : ∀ segment ∈ frozen, segment.segmentId ∈ merge.segmentIds →
    segment.survivors ⊆ merge.documents
  held : ∀ row ∈ merge.documents, ∃ segment ∈ frozen,
    segment.segmentId ∈ merge.segmentIds ∧ row.1 ∈ segment.ids

omit [DecidableEq Id] in
theorem Merge.Covers.shrink {merge : Merge Id Doc SegmentId}
    {frozen' : List (FrozenSegment Id Doc SegmentId)} (covers : merge.Covers frozen)
    (same : List.Forall₂ Shrinks frozen frozen') : merge.Covers frozen' where
  distinct := covers.distinct
  live segment' member picked := by
    obtain ⟨segment, before, shrinks⟩ := related_before same member
    exact fun row kept => covers.live segment before (shrinks.segmentId ▸ picked) (shrinks.survivors kept)
  held row member := by
    obtain ⟨segment, before, picked, listed⟩ := covers.held row member
    obtain ⟨segment', after, shrinks⟩ := related_after same before
    exact ⟨segment', after, shrinks.segmentId ▸ picked, shrinks.ids ▸ listed⟩

omit [DecidableEq Id] in
theorem Merge.Covers.add {merge : Merge Id Doc SegmentId}
    {segment : FrozenSegment Id Doc SegmentId} (covers : merge.Covers frozen)
    (apart : segment.segmentId ∉ merge.segmentIds) : merge.Covers (frozen ++ [segment]) where
  distinct := covers.distinct
  live other member picked := by
    rcases List.mem_append.mp member with earlier | new
    · exact covers.live other earlier picked
    · rw [List.mem_singleton.mp new] at picked
      exact absurd picked apart
  held row member := by
    obtain ⟨other, before, picked, listed⟩ := covers.held row member
    exact ⟨other, by simp [before], picked, listed⟩

variable [DecidableEq SegmentId]

theorem mem_maskRemoved {merge : Merge Id Doc SegmentId} (covers : merge.Covers frozen)
    (distinct : Distinct frozen) (segmentId : SegmentId) (row : Id × Doc) :
    let dropped := frozen.filter fun segment => segment.segmentId ∈ merge.segmentIds
    row ∈ (maskRemoved dropped (dropped.flatMap FrozenSegment.tombstonedDocIds)
        ⟨segmentId, merge.documents, []⟩).survivors ↔ row ∈ frozenRows dropped := by
  intro dropped
  have dropped_distinct : Distinct dropped := fun segment member =>
    distinct segment (List.mem_filter.mp member).1
  have fresh : (⟨segmentId, merge.documents, []⟩ : FrozenSegment Id Doc SegmentId).ids.Nodup :=
    covers.distinct
  obtain ⟨-, -, rows⟩ := maskRemoved_spec dropped
    (dropped.flatMap FrozenSegment.tombstonedDocIds) fresh
  rw [rows, survivors_fresh]
  have of_live : ∀ segment ∈ dropped, segment.survivors ⊆ merge.documents := by
    intro segment member
    obtain ⟨held, picked⟩ := List.mem_filter.mp member
    exact covers.live segment held (by simpa using picked)
  constructor
  · rintro ⟨member, masked⟩
    have shown : dropped.any (fun other => other.hasDocument row.1) = true := by
      obtain ⟨segment, before, picked, listed⟩ := covers.held row member
      have inside : segment ∈ dropped := List.mem_filter.mpr ⟨before, by simpa using picked⟩
      by_cases live : segment.hasDocument row.1 = true
      · exact List.any_eq_true.mpr ⟨segment, inside, live⟩
      · apply masked
        apply List.mem_flatMap.mpr
        refine ⟨segment, inside, ?_⟩
        exact (FrozenSegment.mem_tombstonedDocIds (dropped_distinct segment inside)).mpr
          ⟨listed, by simpa using live⟩
    -- The one that still has the id has the document the merge read.
    obtain ⟨other, inside, live⟩ := List.any_eq_true.mp shown
    obtain ⟨held, kept, same⟩ := List.mem_map.mp
      ((FrozenSegment.hasDocument_iff (dropped_distinct other inside)).mp live)
    have equal : held = row := by
      have first := Assoc.lookup_of_mem covers.distinct (of_live other inside kept)
      rw [same, Assoc.lookup_of_mem covers.distinct member] at first
      exact Prod.ext same (Option.some.inj first).symm
    exact List.mem_flatMap.mpr ⟨other, inside, equal ▸ kept⟩
  · intro shown
    obtain ⟨segment, inside, kept⟩ := List.mem_flatMap.mp shown
    refine ⟨of_live segment inside kept, fun _ => List.any_eq_true.mpr ⟨segment, inside, ?_⟩⟩
    exact (FrozenSegment.hasDocument_iff (dropped_distinct segment inside)).mpr
      (List.mem_map_of_mem kept)

theorem swap_perm {merge : Merge Id Doc SegmentId} (covers : merge.Covers frozen)
    (distinct : Distinct frozen) (apart : ((frozenRows frozen).map Prod.fst).Nodup)
    (segmentId : SegmentId) :
    (frozenRows (swapFrozenSegmentList frozen merge.segmentIds
      ⟨segmentId, merge.documents, []⟩)).Perm (frozenRows frozen) := by
  let dropped := frozen.filter fun segment => segment.segmentId ∈ merge.segmentIds
  let kept := frozen.filter fun segment => segment.segmentId ∉ merge.segmentIds
  let masked := maskRemoved dropped (dropped.flatMap FrozenSegment.tombstonedDocIds)
    ⟨segmentId, merge.documents, []⟩
  have parted : (dropped ++ kept).Perm frozen := by
    have halves := List.filter_append_perm
      (fun segment : FrozenSegment Id Doc SegmentId => decide (segment.segmentId ∈ merge.segmentIds))
      frozen
    simpa [dropped, kept] using halves
  have parted_rows : (frozenRows dropped ++ frozenRows kept).Perm (frozenRows frozen) := by
    rw [← frozenRows_append]
    exact parted.flatMap_right _
  have dropped_nodup : (frozenRows dropped).Nodup := by
    have whole := (parted_rows.map Prod.fst).nodup_iff.mpr apart
    rw [List.map_append] at whole
    exact (List.nodup_append.mp whole).1.of_map _
  have masked_nodup : masked.survivors.Nodup := by
    have fresh : (⟨segmentId, merge.documents, []⟩ : FrozenSegment Id Doc SegmentId).ids.Nodup :=
      covers.distinct
    obtain ⟨-, same, -⟩ := maskRemoved_spec dropped
      (dropped.flatMap FrozenSegment.tombstonedDocIds) fresh
    have listed : masked.documents = merge.documents := same
    have documents_nodup : masked.documents.Nodup := listed ▸ covers.distinct.of_map _
    exact documents_nodup.sublist masked.survivors_sublist
  have shown : masked.survivors.Perm (frozenRows dropped) :=
    (List.perm_ext_iff_of_nodup masked_nodup dropped_nodup).mpr
      (mem_maskRemoved covers distinct segmentId)
  calc frozenRows (kept ++ [masked])
      = frozenRows kept ++ masked.survivors := by
        rw [frozenRows_append]
        simp [frozenRows]
    _ |>.Perm (frozenRows kept ++ frozenRows dropped) := shown.append_left _
    _ |>.Perm (frozenRows frozen) := List.perm_append_comm.trans parted_rows

end Narsil.Composite
