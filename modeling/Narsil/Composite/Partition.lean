import Mathlib.Data.List.Nodup
import Narsil.Assoc.Entries

/-!
# Frozen segments

A frozen segment keeps its documents by ordinal and never changes them. A document goes
by a tombstone on its ordinal.
-/
namespace Narsil.Composite

variable {Id Doc SegmentId : Type} [DecidableEq Id]

/-- The id table beside the document source, both by ordinal, and the tombstoned
    ordinals in the order they arrived. -/
structure FrozenSegment (Id Doc SegmentId : Type) where
  segmentId : SegmentId
  documents : List (Id × Doc)
  tombstones : List Nat
  deriving DecidableEq, Repr

namespace FrozenSegment

def ids (segment : FrozenSegment Id Doc SegmentId) : List Id := segment.documents.map Prod.fst

def idAt (segment : FrozenSegment Id Doc SegmentId) (ordinal : Nat) : Option Id :=
  segment.ids[ordinal]?

def ordinalOf (segment : FrozenSegment Id Doc SegmentId) (docId : Id) : Option Nat :=
  segment.ids.findIdx? fun held => held = docId

def isTombstoned (segment : FrozenSegment Id Doc SegmentId) (ordinal : Nat) : Bool :=
  segment.tombstones.contains ordinal

def liveOrdinal (segment : FrozenSegment Id Doc SegmentId) (docId : Id) : Option Nat :=
  match segment.ordinalOf docId with
  | none => none
  | some ordinal => if segment.isTombstoned ordinal then none else some ordinal

def hasDocument (segment : FrozenSegment Id Doc SegmentId) (docId : Id) : Bool :=
  (segment.liveOrdinal docId).isSome

/-- The document an id reads, which is what a projection is taken of. -/
def projectedDocument (segment : FrozenSegment Id Doc SegmentId) (docId : Id) : Option Doc :=
  (segment.liveOrdinal docId).bind fun ordinal => segment.documents[ordinal]?.map Prod.snd

def tombstoneDocument (segment : FrozenSegment Id Doc SegmentId) (docId : Id) :
    FrozenSegment Id Doc SegmentId :=
  match segment.liveOrdinal docId with
  | none => segment
  | some ordinal => { segment with tombstones := segment.tombstones ++ [ordinal] }

def tombstonedDocIds (segment : FrozenSegment Id Doc SegmentId) : List Id :=
  segment.tombstones.filterMap segment.idAt

/-- The documents no tombstone masks, in ordinal order: what a merge keeps. -/
def survivors (segment : FrozenSegment Id Doc SegmentId) : List (Id × Doc) :=
  (segment.documents.zipIdx.filter fun row => !segment.isTombstoned row.2).map Prod.fst

section
variable {segment : FrozenSegment Id Doc SegmentId} {docId : Id} {ordinal : Nat}

omit [DecidableEq Id] in
theorem mem_survivors {row : Id × Doc} :
    row ∈ segment.survivors ↔
      ∃ ordinal, segment.documents[ordinal]? = some row ∧ segment.isTombstoned ordinal = false := by
  simp only [survivors, List.mem_map, List.mem_filter, Bool.not_eq_true']
  constructor
  · rintro ⟨⟨held, ordinal⟩, ⟨at_ordinal, untouched⟩, rfl⟩
    exact ⟨ordinal, List.mem_zipIdx_iff_getElem?.mp at_ordinal, untouched⟩
  · rintro ⟨ordinal, at_ordinal, untouched⟩
    exact ⟨(row, ordinal), ⟨List.mem_zipIdx_iff_getElem?.mpr at_ordinal, untouched⟩, rfl⟩

omit [DecidableEq Id] in
theorem survivors_sublist (segment : FrozenSegment Id Doc SegmentId) :
    segment.survivors.Sublist segment.documents := by
  have kept := (List.filter_sublist (p := fun row => !segment.isTombstoned row.2)
    (l := segment.documents.zipIdx)).map Prod.fst
  rwa [List.zipIdx_map_fst] at kept

omit [DecidableEq Id] in
theorem survivors_distinct (distinct : segment.ids.Nodup) : (segment.survivors.map Prod.fst).Nodup :=
  distinct.sublist (segment.survivors_sublist.map Prod.fst)

theorem ordinalOf_eq_some (distinct : segment.ids.Nodup) :
    segment.ordinalOf docId = some ordinal ↔ segment.ids[ordinal]? = some docId := by
  rw [ordinalOf, List.findIdx?_eq_some_iff_getElem]
  constructor
  · rintro ⟨bound, found, -⟩
    rw [List.getElem?_eq_getElem bound]
    exact congrArg some (by simpa using found)
  · intro held
    obtain ⟨bound, same⟩ := List.getElem?_eq_some_iff.mp held
    refine ⟨bound, by simpa using same, ?_⟩
    intro earlier before
    have apart : segment.ids[earlier] ≠ segment.ids[ordinal] := fun repeated =>
      absurd ((List.Nodup.getElem_inj_iff distinct).mp repeated) (Nat.ne_of_lt before)
    simpa [same] using apart

theorem liveOrdinal_eq_some (distinct : segment.ids.Nodup) :
    segment.liveOrdinal docId = some ordinal ↔
      segment.ids[ordinal]? = some docId ∧ segment.isTombstoned ordinal = false := by
  rw [liveOrdinal, ← ordinalOf_eq_some distinct]
  cases segment.ordinalOf docId with
  | none => simp
  | some found =>
    by_cases gone : segment.isTombstoned found = true
    · simp only [gone, if_true, reduceCtorEq, false_iff, not_and, Option.some.injEq]
      rintro rfl
      simp [gone]
    · simp only [gone, Bool.false_eq_true, if_false, Option.some.injEq]
      constructor
      · rintro rfl
        exact ⟨rfl, by simpa using gone⟩
      · exact fun same => same.1

theorem projectedDocument_eq (distinct : segment.ids.Nodup) (docId : Id) :
    segment.projectedDocument docId = Assoc.lookup segment.survivors docId := by
  apply Option.ext
  intro document
  rw [← Assoc.mem_iff_lookup (survivors_distinct distinct), mem_survivors, projectedDocument,
    Option.bind_eq_some_iff]
  constructor
  · rintro ⟨ordinal, live, read⟩
    obtain ⟨held, untouched⟩ := (liveOrdinal_eq_some distinct).mp live
    obtain ⟨⟨id, stored⟩, at_ordinal, rfl⟩ := Option.map_eq_some_iff.mp read
    rw [ids, List.getElem?_map, at_ordinal] at held
    cases held
    exact ⟨ordinal, at_ordinal, untouched⟩
  · rintro ⟨ordinal, at_ordinal, untouched⟩
    refine ⟨ordinal, (liveOrdinal_eq_some distinct).mpr ⟨?_, untouched⟩, by simp [at_ordinal]⟩
    simp [ids, at_ordinal]

theorem hasDocument_iff (distinct : segment.ids.Nodup) :
    segment.hasDocument docId = true ↔ docId ∈ segment.survivors.map Prod.fst := by
  rw [hasDocument, Option.isSome_iff_exists, List.mem_map]
  constructor
  · rintro ⟨ordinal, live⟩
    obtain ⟨held, untouched⟩ := (liveOrdinal_eq_some distinct).mp live
    rw [ids, List.getElem?_map] at held
    obtain ⟨row, at_ordinal, same⟩ := Option.map_eq_some_iff.mp held
    exact ⟨row, mem_survivors.mpr ⟨ordinal, at_ordinal, untouched⟩, same⟩
  · rintro ⟨row, member, rfl⟩
    obtain ⟨ordinal, at_ordinal, untouched⟩ := mem_survivors.mp member
    exact ⟨ordinal, (liveOrdinal_eq_some distinct).mpr ⟨by simp [ids, at_ordinal], untouched⟩⟩

theorem mem_tombstonedDocIds (distinct : segment.ids.Nodup) :
    docId ∈ segment.tombstonedDocIds ↔ docId ∈ segment.ids ∧ segment.hasDocument docId = false := by
  rw [tombstonedDocIds, List.mem_filterMap, ← Bool.not_eq_true, hasDocument_iff distinct]
  constructor
  · rintro ⟨ordinal, gone, held⟩
    refine ⟨List.mem_of_getElem? held, fun live => ?_⟩
    obtain ⟨row, member, rfl⟩ := List.mem_map.mp live
    obtain ⟨other, at_other, untouched⟩ := mem_survivors.mp member
    -- Both ordinals hold the id, so they are one ordinal, tombstoned and not.
    have first := (ordinalOf_eq_some distinct).mpr held
    have at_id : segment.ids[other]? = some row.1 := by simp [ids, at_other]
    have second := (ordinalOf_eq_some distinct).mpr at_id
    rw [first] at second
    cases second
    rw [isTombstoned, List.contains_iff_mem.mpr gone] at untouched
    cases untouched
  · rintro ⟨held, dead⟩
    obtain ⟨ordinal, at_ordinal⟩ := List.getElem?_of_mem held
    refine ⟨ordinal, ?_, at_ordinal⟩
    rw [ids, List.getElem?_map] at at_ordinal
    obtain ⟨row, found, rfl⟩ := Option.map_eq_some_iff.mp at_ordinal
    by_contra untouched
    apply dead
    refine List.mem_map_of_mem (mem_survivors.mpr ⟨ordinal, found, ?_⟩)
    simpa [isTombstoned] using untouched

omit [DecidableEq Id] in
theorem isTombstoned_append (segment : FrozenSegment Id Doc SegmentId) (added ordinal : Nat) :
    { segment with tombstones := segment.tombstones ++ [added] }.isTombstoned ordinal =
      (segment.isTombstoned ordinal || decide (ordinal = added)) := by
  simp [isTombstoned]

@[simp] theorem tombstoneDocument_segmentId (segment : FrozenSegment Id Doc SegmentId) (docId : Id) :
    (segment.tombstoneDocument docId).segmentId = segment.segmentId := by
  rw [tombstoneDocument]
  split <;> rfl

@[simp] theorem tombstoneDocument_documents (segment : FrozenSegment Id Doc SegmentId) (docId : Id) :
    (segment.tombstoneDocument docId).documents = segment.documents := by
  rw [tombstoneDocument]
  split <;> rfl

@[simp] theorem tombstoneDocument_ids (segment : FrozenSegment Id Doc SegmentId) (docId : Id) :
    (segment.tombstoneDocument docId).ids = segment.ids :=
  congrArg (List.map Prod.fst) (tombstoneDocument_documents segment docId)

theorem tombstoneDocument_survivors (distinct : segment.ids.Nodup) (docId : Id) :
    (segment.tombstoneDocument docId).survivors = Assoc.erase segment.survivors docId := by
  rw [tombstoneDocument]
  cases live : segment.liveOrdinal docId with
  | none =>
    symm
    apply Assoc.erase_of_not_mem
    rw [← hasDocument_iff distinct, hasDocument, live]
    simp
  | some ordinal =>
    obtain ⟨held, untouched⟩ := (liveOrdinal_eq_some distinct).mp live
    have only : ∀ row ∈ segment.documents.zipIdx, row.2 = ordinal ↔ row.1.1 = docId := by
      rintro ⟨row, at_row⟩ member
      have found := List.mem_zipIdx_iff_getElem?.mp member
      have at_id : segment.ids[at_row]? = some row.1 := by simpa [ids] using ⟨row.2, found⟩
      constructor
      · rintro rfl
        rw [at_id] at held
        exact Option.some.inj held
      · rintro rfl
        have first := (ordinalOf_eq_some distinct).mpr held
        rw [(ordinalOf_eq_some distinct).mpr at_id] at first
        exact Option.some.inj first
    dsimp only
    rw [survivors, survivors, Assoc.erase, List.filter_map, List.filter_filter]
    apply congrArg
    apply List.filter_congr
    intro row member
    rw [isTombstoned_append]
    by_cases same : row.2 = ordinal
    · simp [same, (only row member).mp same]
    · have apart : row.1.1 ≠ docId := fun equal => same ((only row member).mpr equal)
      simp [same, apart]

end

end FrozenSegment

end Narsil.Composite

/-!
## Composite partitions

A partition keeps a live tail beside frozen segments. A write to a document that a
segment holds tombstones it there, and a freeze turns the tail into a segment. A merge
reads the documents of some segments and takes their place at a later moment.
-/
namespace Narsil.Composite

inductive NarsilError (Id : Type)
  | docAlreadyExists (docId : Id)
  | docNotFound (docId : Id)
  | docValidationFailed (docId : Id)
  deriving DecidableEq, Repr

/-- What the schema decides about documents: which are accepted, and whether an update
    changes a text field. -/
structure Schema (Doc : Type) where
  accepts : Doc → Bool
  textFieldsChanged : Doc → Doc → Bool

variable {Id Doc SegmentId : Type} [DecidableEq Id] [DecidableEq SegmentId]

/-- The stored documents of a partition, each id once. -/
abbrev LivePartition (Id Doc : Type) := List (Id × Doc)

namespace LivePartition

variable (schema : Schema Doc) (live : LivePartition Id Doc)

def has (docId : Id) : Bool := (Assoc.lookup live docId).isSome

def insert (docId : Id) (document : Doc) : Except (NarsilError Id) (LivePartition Id Doc) :=
  if has live docId then .error (.docAlreadyExists docId)
  else if schema.accepts document then .ok (live ++ [(docId, document)])
  else .error (.docValidationFailed docId)

/-- An update that changes no text field keeps the document's place; any other stores
    the document anew. -/
def update (docId : Id) (document : Doc) : Except (NarsilError Id) (LivePartition Id Doc) :=
  match Assoc.lookup live docId with
  | none => .error (.docNotFound docId)
  | some stored =>
    if !schema.accepts document then .error (.docValidationFailed docId)
    else if schema.textFieldsChanged stored document then
      .ok (Assoc.erase live docId ++ [(docId, document)])
    else .ok (Assoc.set live docId document)

def remove (docId : Id) : Except (NarsilError Id) (LivePartition Id Doc) :=
  match Assoc.lookup live docId with
  | none => .error (.docNotFound docId)
  | some _ => .ok (Assoc.erase live docId)

end LivePartition

structure CompositePartition (Id Doc SegmentId : Type) where
  live : LivePartition Id Doc
  frozen : List (FrozenSegment Id Doc SegmentId)
  deriving DecidableEq, Repr

namespace CompositePartition

variable (schema : Schema Doc) (partition : CompositePartition Id Doc SegmentId)

/-- The first segment that holds the document live. -/
def frozenOwner (docId : Id) : Option (FrozenSegment Id Doc SegmentId) :=
  partition.frozen.find? fun segment => segment.hasDocument docId

/-- Tombstone a document in the segment `frozenOwner` finds. -/
def tombstoneInOwner : List (FrozenSegment Id Doc SegmentId) → Id →
    List (FrozenSegment Id Doc SegmentId)
  | [], _ => []
  | segment :: rest, docId =>
    if segment.hasDocument docId then segment.tombstoneDocument docId :: rest
    else segment :: tombstoneInOwner rest docId

def has (docId : Id) : Bool :=
  LivePartition.has partition.live docId || (partition.frozenOwner docId).isSome

def get (docId : Id) : Option Doc :=
  match partition.frozen.findSome? fun segment => segment.projectedDocument docId with
  | some document => some document
  | none => Assoc.lookup partition.live docId

def docIds : List Id :=
  partition.frozen.flatMap (fun segment => segment.survivors.map Prod.fst) ++
    partition.live.map Prod.fst

def insert (docId : Id) (document : Doc) :
    Except (NarsilError Id) (CompositePartition Id Doc SegmentId) :=
  match partition.frozenOwner docId with
  | some _ => .error (.docAlreadyExists docId)
  | none =>
    match LivePartition.insert schema partition.live docId document with
    | .error error => .error error
    | .ok live => .ok { partition with live := live }

def update (docId : Id) (document : Doc) :
    Except (NarsilError Id) (CompositePartition Id Doc SegmentId) :=
  match partition.frozenOwner docId with
  | none =>
    match LivePartition.update schema partition.live docId document with
    | .error error => .error error
    | .ok live => .ok { partition with live := live }
  | some _ =>
    -- The document moves to the tail before the segment's copy goes.
    match LivePartition.insert schema partition.live docId document with
    | .error error => .error error
    | .ok live => .ok ⟨live, tombstoneInOwner partition.frozen docId⟩

def remove (docId : Id) : Except (NarsilError Id) (CompositePartition Id Doc SegmentId) :=
  if LivePartition.has partition.live docId then
    match LivePartition.remove partition.live docId with
    | .error error => .error error
    | .ok live => .ok { partition with live := live }
  else
    match partition.frozenOwner docId with
    | none => .error (.docNotFound docId)
    | some _ => .ok { partition with frozen := tombstoneInOwner partition.frozen docId }

/-- Freeze the tail under a new segment id; `freeze` fails where no segment can be made. -/
def freezeLiveTail (freeze : Option SegmentId) : CompositePartition Id Doc SegmentId :=
  if partition.live.length = 0 then partition
  else
    match freeze with
    | none => partition
    | some segmentId => ⟨[], partition.frozen ++ [⟨segmentId, partition.live, []⟩]⟩

def frozenSegmentsById (segmentIds : List SegmentId) :
    Option (List (FrozenSegment Id Doc SegmentId)) :=
  segmentIds.mapM fun segmentId =>
    partition.frozen.reverse.find? fun segment => segment.segmentId = segmentId

end CompositePartition

/-- The documents a merge of the segments keeps, in the order of the segments. -/
def mergeDocuments (segments : List (FrozenSegment Id Doc SegmentId)) : List (Id × Doc) :=
  segments.flatMap FrozenSegment.survivors

/-- Tombstone in the replacement what the dropped segments no longer hold. -/
def maskRemoved (dropped : List (FrozenSegment Id Doc SegmentId)) (docIds : List Id)
    (replacement : FrozenSegment Id Doc SegmentId) : FrozenSegment Id Doc SegmentId :=
  docIds.foldl
    (fun masked docId =>
      if !masked.hasDocument docId then masked
      else if dropped.any fun other => other.hasDocument docId then masked
      else masked.tombstoneDocument docId)
    replacement

def swapFrozenSegmentList (frozen : List (FrozenSegment Id Doc SegmentId))
    (dropSegmentIds : List SegmentId) (replacement : FrozenSegment Id Doc SegmentId) :
    List (FrozenSegment Id Doc SegmentId) :=
  let dropped := frozen.filter fun segment => segment.segmentId ∈ dropSegmentIds
  let kept := frozen.filter fun segment => segment.segmentId ∉ dropSegmentIds
  kept ++ [maskRemoved dropped (dropped.flatMap FrozenSegment.tombstonedDocIds) replacement]

/-- A merge between the moment it read its segments and the moment it is swapped in. -/
structure Merge (Id Doc SegmentId : Type) where
  segmentIds : List SegmentId
  documents : List (Id × Doc)
  deriving DecidableEq, Repr

/-- One compaction of a partition runs at a time. -/
structure State (Id Doc SegmentId : Type) where
  partition : CompositePartition Id Doc SegmentId
  merging : Option (Merge Id Doc SegmentId)
  deriving DecidableEq, Repr

inductive Call (Id Doc SegmentId : Type)
  | insert (docId : Id) (document : Doc)
  | update (docId : Id) (document : Doc)
  | remove (docId : Id)
  | freezeLiveTail (freeze : Option SegmentId)
  | readSegments (segmentIds : List SegmentId)
  | swapSegments (segmentId : SegmentId)
  | abandonMerge
  deriving DecidableEq, Repr

def State.empty : State Id Doc SegmentId := ⟨⟨[], []⟩, none⟩

/-- What a call that may be refused leaves: a refused call changes nothing. -/
def State.after (state : State Id Doc SegmentId)
    (outcome : Except (NarsilError Id) (CompositePartition Id Doc SegmentId)) :
    State Id Doc SegmentId :=
  match outcome with
  | .error _ => state
  | .ok partition => { state with partition := partition }

/-- No segment of the partition has the id, as the id of a new segment is generated. -/
def Unused (partition : CompositePartition Id Doc SegmentId) (segmentId : SegmentId) : Prop :=
  ∀ segment ∈ partition.frozen, segment.segmentId ≠ segmentId

instance (partition : CompositePartition Id Doc SegmentId) (segmentId : SegmentId) :
    Decidable (Unused partition segmentId) :=
  inferInstanceAs (Decidable (∀ segment ∈ partition.frozen, segment.segmentId ≠ segmentId))

def next (schema : Schema Doc) (state : State Id Doc SegmentId) :
    Call Id Doc SegmentId → Option (State Id Doc SegmentId)
  | .insert docId document => some (state.after (state.partition.insert schema docId document))
  | .update docId document => some (state.after (state.partition.update schema docId document))
  | .remove docId => some (state.after (state.partition.remove docId))
  | .freezeLiveTail freeze =>
    if ∀ segmentId ∈ freeze, Unused state.partition segmentId then
      some { state with partition := state.partition.freezeLiveTail freeze }
    else none
  | .readSegments segmentIds =>
    if state.merging.isSome ∨ ¬ segmentIds.Nodup then none
    else
      (state.partition.frozenSegmentsById segmentIds).map fun segments =>
        { state with merging := some ⟨segmentIds, mergeDocuments segments⟩ }
  | .swapSegments segmentId =>
    match state.merging with
    | none => none
    | some merge =>
      if Unused state.partition segmentId then
        let replacement := ⟨segmentId, merge.documents, []⟩
        let frozen := swapFrozenSegmentList state.partition.frozen merge.segmentIds replacement
        some ⟨{ state.partition with frozen := frozen }, none⟩
      else none
  | .abandonMerge => some { state with merging := none }

/-- The call's effect on a plain map from ids to documents. -/
def Call.applied (schema : Schema Doc) (held : Id → Option Doc) :
    Call Id Doc SegmentId → Id → Option Doc
  | .insert docId document =>
    if (held docId).isNone ∧ schema.accepts document then
      fun other => if other = docId then some document else held other
    else held
  | .update docId document =>
    if (held docId).isSome ∧ schema.accepts document then
      fun other => if other = docId then some document else held other
    else held
  | .remove docId => fun other => if other = docId then none else held other
  | _ => held

def plainMap (schema : Schema Doc) (calls : List (Call Id Doc SegmentId)) : Id → Option Doc :=
  calls.foldl (Call.applied schema) fun _ => none

end Narsil.Composite
