import Narsil.Segment.SegmentFile

/-!
# Segments and log against the log alone

A segment file is a layer over the files before it. A checkpoint adds layers
that tell what its entries do, a merge keeps what the layers tell, and loading
them reads it back; so a recovered partition holds what the whole log makes,
apart from the vector fields of the documents that a segment gives.
-/
namespace Narsil.Segment

open Assoc Layered

variable {decode : Bytes → Document} {paths : List FieldPath} {file : SegmentFile}
  {files older window : List SegmentFile} {entries done : List ReplicationLogEntry} {id : String}
  {disk : Bool} {cuts : List Nat} {documents held : List (String × Document)}
  {tombstones : List String} {s s' : SegmentState}

/-! ### What an entry does -/

/-- What an entry makes of a document: nothing, gone, or a new one. -/
def outcome (decode : Bytes → Document) (paths : List FieldPath) (entry : ReplicationLogEntry)
    (id : String) : Option (Option Document) :=
  if entry.documentId = id then
    match entry.operation, entry.document with
    | .delete, _ => some none
    | .index, none => none
    | .index, some encoded => some (some (prepareDocumentVectors (decode encoded) paths))
  else none

/-- The newest entry that touches the document decides. -/
def outcomes (decode : Bytes → Document) (paths : List FieldPath) :
    List ReplicationLogEntry → String → Option (Option Document)
  | [], _ => none
  | entry :: rest, id => (outcomes decode paths rest id).or (outcome decode paths entry id)

/-- An `INDEX` entry without a document writes nothing. -/
def Writes (entry : ReplicationLogEntry) (id : String) : Prop :=
  entry.documentId = id ∧ (entry.operation = .delete ∨ entry.document ≠ none)

instance (entry : ReplicationLogEntry) (id : String) : Decidable (Writes entry id) :=
  inferInstanceAs (Decidable (_ ∧ _))

theorem outcome_isSome (entry : ReplicationLogEntry) :
    (outcome decode paths entry id).isSome = true ↔ Writes entry id := by
  unfold outcome Writes
  by_cases same : entry.documentId = id
  · cases entry.operation <;> cases entry.document <;> simp [same]
  · simp [same]

theorem outcomes_isSome (entries : List ReplicationLogEntry) :
    (outcomes decode paths entries id).isSome = true ↔ ∃ entry ∈ entries, Writes entry id := by
  induction entries with
  | nil => simp [outcomes]
  | cons entry rest ih =>
    rw [outcomes, Option.isSome_or, Bool.or_eq_true, ih, outcome_isSome]
    simp [or_comm]

private theorem lookup_without (held : List (String × Document)) (docId id : String) :
    lookup (held.filter fun d => d.1 ≠ docId) id = if docId = id then none else lookup held id := by
  have filtered := lookup_filter (fun key => key ≠ docId) held id
  by_cases same : docId = id <;> simp_all [eq_comm]

theorem lookup_applyEntry (held : List (String × Document)) (entry : ReplicationLogEntry) :
    lookup (applyEntry decode paths held entry) id
      = (outcome decode paths entry id).getD (lookup held id) := by
  unfold applyEntry outcome
  cases entry.operation with
  | delete =>
    rw [lookup_without]
    by_cases same : entry.documentId = id <;> simp [same]
  | index =>
    cases entry.document with
    | none => simp
    | some encoded =>
      simp only []
      rw [lookup_append, lookup_without]
      by_cases same : entry.documentId = id <;> simp [same, lookup]

theorem lookup_applyEntries (entries : List ReplicationLogEntry) (held : List (String × Document)) :
    lookup (applyEntries decode paths entries held) id
      = (outcomes decode paths entries id).getD (lookup held id) := by
  induction entries generalizing held with
  | nil => rfl
  | cons entry rest ih =>
    rw [applyEntries, List.foldl_cons]
    have later := ih (applyEntry decode paths held entry)
    rw [applyEntries] at later
    rw [later, lookup_applyEntry, outcomes]
    cases outcomes decode paths rest id <;> rfl

theorem applyEntries_append (entries rest : List ReplicationLogEntry)
    (held : List (String × Document)) :
    applyEntries decode paths (entries ++ rest) held
      = applyEntries decode paths rest (applyEntries decode paths entries held) :=
  List.foldl_append ..

/-! ### What the builder makes of a range -/

/-- A document as a segment file gives it back. -/
abbrev stored (paths : List FieldPath) (d : Document) : Document := decodeStoredDocument d paths

private theorem lookup_stored (documents : List (String × Document)) :
    lookup (documents.map fun d => (d.1, stored paths d.2)) id
      = (lookup documents id).map (stored paths) :=
  lookup_map_values (stored paths) documents id

/-- The layer that the builder's maps stand for. -/
def BuiltSegment.layer (paths : List FieldPath) (built : BuiltSegment) : Layer String Document :=
  ⟨built.live.map fun d => (d.1, stored paths d.2), built.deleted⟩

theorem buildStep_tells (built : BuiltSegment) (entry : ReplicationLogEntry) :
    ((buildStep decode paths built entry).layer paths).tells id
      = ((outcome decode paths entry id).map (Option.map (stored paths))).or
          ((built.layer paths).tells id) := by
  unfold buildStep outcome BuiltSegment.layer Layer.tells
  simp only [lookup_stored]
  cases entry.operation with
  | delete =>
    simp only [lookup_without, List.mem_insert_iff]
    by_cases same : entry.documentId = id
    · simp [same]
    · simp [same, Ne.symm same]
  | index =>
    cases entry.document with
    | none => simp
    | some encoded =>
      simp only [lookup_append, lookup_without]
      by_cases same : entry.documentId = id
      · simp [same, lookup, decodeStoredDocument_withoutVectors]
      · simp [same, lookup]

theorem build_tells (entries : List ReplicationLogEntry) (built : BuiltSegment) :
    ((entries.foldl (buildStep decode paths) built).layer paths).tells id
      = ((outcomes decode paths entries id).map (Option.map (stored paths))).or
          ((built.layer paths).tells id) := by
  induction entries generalizing built with
  | nil => rfl
  | cons entry rest ih =>
    rw [List.foldl_cons, ih, buildStep_tells, outcomes]
    cases outcomes decode paths rest id <;> rfl

theorem buildStep_nodup (built : BuiltSegment) (entry : ReplicationLogEntry)
    (nodup : (built.live.map Prod.fst).Nodup) :
    ((buildStep decode paths built entry).live.map Prod.fst).Nodup := by
  have kept : ((built.live.filter fun d => d.1 ≠ entry.documentId).map Prod.fst).Nodup :=
    nodup.sublist (List.filter_sublist.map _)
  unfold buildStep
  cases entry.operation with
  | delete => exact kept
  | index =>
    cases entry.document with
    | none => exact nodup
    | some encoded =>
      rw [List.map_append, List.nodup_append]
      refine ⟨kept, List.nodup_singleton _, ?_⟩
      rintro k hk k' hk' rfl
      obtain ⟨d, hd, rfl⟩ := List.mem_map.mp hk
      have other := (List.mem_filter.mp hd).2
      simp_all

theorem build_nodup (entries : List ReplicationLogEntry) (built : BuiltSegment)
    (nodup : (built.live.map Prod.fst).Nodup) :
    ((entries.foldl (buildStep decode paths) built).live.map Prod.fst).Nodup := by
  induction entries generalizing built with
  | nil => exact nodup
  | cons entry rest ih => exact ih _ (buildStep_nodup built entry nodup)

/-! ### Files as layers -/

def SegmentFile.layer (paths : List FieldPath) (file : SegmentFile) : Layer String Document :=
  ⟨file.documents.map fun d => (d.1, stored paths d.2), file.replaces⟩

abbrev layersOf (paths : List FieldPath) (files : List SegmentFile) : List (Layer String Document) :=
  files.map (SegmentFile.layer paths)

@[simp] theorem layer_keys (file : SegmentFile) : (file.layer paths).keys = file.ids := by
  simp [SegmentFile.layer, Layer.keys, SegmentFile.ids, Function.comp_def]

theorem layersOf_append (files files' : List SegmentFile) :
    layersOf paths (files ++ files') = layersOf paths files ++ layersOf paths files' := List.map_append

theorem removed_layersOf {k : String} :
    Removed (layersOf paths files) k ↔ ∃ file ∈ files, k ∈ file.replaces := by
  simp [Removed, layersOf, SegmentFile.layer]

theorem groupsOf_flatten {α : Type} (cuts : List Nat) (xs : List α) :
    (groupsOf cuts xs).flatten = xs := by
  induction cuts generalizing xs with
  | nil => cases xs <;> simp [groupsOf]
  | cons cut cuts ih =>
    cases xs with
    | nil => rfl
    | cons d rest => simp [groupsOf, ih]

private theorem filesOf_nil (paged : Bool) (tombstones : List String) :
    filesOf paged [] tombstones = if tombstones = [] then [] else [⟨[], tombstones, paged⟩] := rfl

theorem filesOf_documents (paged : Bool) (groups : List (List (String × Document)))
    (tombstones : List String) :
    (filesOf paged groups tombstones).flatMap SegmentFile.documents = groups.flatten := by
  cases groups with
  | nil =>
    rw [filesOf_nil]
    split <;> rfl
  | cons first rest => simp [filesOf, List.flatMap_map, List.flatMap_id']

theorem mem_filesOf {paged : Bool} {groups : List (List (String × Document))}
    (member : file ∈ filesOf paged groups tombstones) :
    file.paged = paged ∧ (file.tombstones = tombstones ∨ file.tombstones = []) := by
  cases groups with
  | nil =>
    rw [filesOf_nil] at member
    split at member
    · cases member
    · rw [List.mem_singleton.mp member]
      exact ⟨rfl, Or.inl rfl⟩
  | cons first rest =>
    rcases List.mem_cons.mp member with rfl | later
    · exact ⟨rfl, Or.inl rfl⟩
    · obtain ⟨group, -, rfl⟩ := List.mem_map.mp later
      exact ⟨rfl, Or.inr rfl⟩

theorem replaces_of_tombstones {k : String} (listed : k ∈ file.tombstones) :
    k ∈ file.replaces := by
  unfold SegmentFile.replaces
  split
  · exact listed
  · exact List.mem_append_left _ listed

private theorem mem_replaces {k : String} (gone : k ∈ file.replaces) :
    k ∈ file.tombstones ∨ k ∈ file.ids := by
  unfold SegmentFile.replaces at gone
  split at gone
  · exact Or.inl gone
  · exact List.mem_append.mp gone

theorem filesOf_spreads (paged : Bool) (groups : List (List (String × Document)))
    (nodup : (groups.flatten.map Prod.fst).Nodup) :
    Spreads (layersOf paths (filesOf paged groups tombstones))
      (groups.flatten.map fun d => (d.1, stored paths d.2)) tombstones where
  holds := by
    rw [← filesOf_documents paged groups tombstones, List.map_flatMap, List.flatMap_map]
    rfl
  nodup := by simpa [Function.comp_def] using nodup
  first := by
    intro k listed
    cases groups with
    | nil =>
      rw [filesOf_nil, if_neg (List.ne_nil_of_mem listed)]
      exact ⟨_, [], rfl, replaces_of_tombstones listed⟩
    | cons first rest => exact ⟨_, _, rfl, replaces_of_tombstones listed⟩
  own := by
    intro l hl k gone
    obtain ⟨file, hf, rfl⟩ := List.mem_map.mp hl
    rw [layer_keys]
    rcases mem_replaces gone with listed | own
    · rcases (mem_filesOf hf).2 with same | none
      · exact Or.inl (same ▸ listed)
      · rw [none] at listed
        cases listed
    · exact Or.inr own
  later := by
    intro l hl k gone
    cases groups with
    | nil =>
      rw [filesOf_nil] at hl
      split at hl <;> simp at hl
    | cons first rest =>
      obtain ⟨file, hf, rfl⟩ := List.mem_map.mp hl
      obtain ⟨group, -, rfl⟩ := List.mem_map.mp hf
      rw [layer_keys]
      rcases mem_replaces gone with listed | own
      · cases listed
      · exact own

theorem writeSegmentsOf_spreads (paths : List FieldPath) {paged merges : Bool}
    {written : List SegmentFile}
    (nodup : (documents.map Prod.fst).Nodup)
    (wrote : writeSegmentsOf paged merges cuts documents tombstones = some written) :
    Spreads (layersOf paths written) (documents.map fun d => (d.1, stored paths d.2)) tombstones
      ∧ ∀ file ∈ written, file.paged = paged := by
  unfold writeSegmentsOf at wrote
  simp only at wrote
  generalize (if (paged && merges) = true then [] else cuts) = sizes at wrote
  split at wrote
  · cases wrote
    have whole := groupsOf_flatten sizes documents
    refine ⟨?_, fun file member => (mem_filesOf member).1⟩
    have spreads : Spreads (layersOf paths (filesOf paged (groupsOf sizes documents) tombstones))
        ((groupsOf sizes documents).flatten.map fun d => (d.1, stored paths d.2)) tombstones :=
      filesOf_spreads paged _ (by rwa [whole])
    rwa [whole] at spreads
  · cases wrote

theorem writeSegmentsOf_files {paged merges : Bool} {written : List SegmentFile}
    (wrote : writeSegmentsOf paged merges cuts documents tombstones = some written) :
    (∀ file ∈ written, file.paged = paged) ∧
      ∀ id ∈ tombstones, ∃ first rest, written = first :: rest ∧ id ∈ first.tombstones := by
  unfold writeSegmentsOf at wrote
  simp only at wrote
  generalize (if (paged && merges) = true then [] else cuts) = sizes at wrote
  split at wrote
  · cases wrote
    refine ⟨fun file member => (mem_filesOf member).1, ?_⟩
    intro id listed
    cases groupsOf sizes documents with
    | nil =>
      rw [filesOf_nil, if_neg (List.ne_nil_of_mem listed)]
      exact ⟨_, _, rfl, listed⟩
    | cons first rest => exact ⟨_, _, rfl, listed⟩
  · cases wrote

/-! ### The invariant -/

/-- The files tell what the entries made, and can be loaded. -/
structure Checkpointed (decode : Bytes → Document) (paths : List FieldPath) (s : SegmentState)
    (entries : List ReplicationLogEntry) : Prop where
  exclusive : Exclusive (layersOf paths s.segments)
  single : ∀ file ∈ s.segments, file.ids.Nodup
  reads : ∀ id, read (layersOf paths s.segments) id
    = (lookup (applyEntries decode paths entries []) id).map (stored paths)
  keyword : s.disk = false → ∀ file ∈ s.segments, file.paged = false

/-- Files that tell what the entries made, whichever of them are paged. -/
structure Replays (decode : Bytes → Document) (paths : List FieldPath) (files : List SegmentFile)
    (entries : List ReplicationLogEntry) : Prop where
  exclusive : Exclusive (layersOf paths files)
  single : ∀ file ∈ files, file.ids.Nodup
  reads : ∀ id, read (layersOf paths files) id
    = (lookup (applyEntries decode paths entries []) id).map (stored paths)

theorem Replays.empty : Replays decode paths [] [] where
  exclusive := trivial
  single := by simp
  reads := fun _ => rfl

theorem Checkpointed.replays (h : Checkpointed decode paths s done) :
    Replays decode paths s.segments done := ⟨h.exclusive, h.single, h.reads⟩

theorem Checkpointed.empty (disk : Bool) : Checkpointed decode paths ⟨disk, []⟩ [] where
  exclusive := trivial
  single := by simp
  reads := fun _ => rfl
  keyword := by simp

private theorem Spreads.ids_nodup {entries : List (String × Document)} {removes : List String}
    (spreads : Spreads (layersOf paths files) entries removes) : ∀ file ∈ files, file.ids.Nodup := by
  intro file member
  have single := spreads.single _ (List.mem_map_of_mem member)
  rwa [layer_keys] at single

/-! ### A checkpoint -/

private theorem mem_tombstones {built : BuiltSegment} (absent : id ∉ built.live.map Prod.fst) :
    id ∈ built.tombstones ↔ id ∈ built.deleted := by
  unfold BuiltSegment.tombstones
  rw [List.mem_filter]
  exact ⟨fun both => both.1, fun listed => ⟨listed, by simpa using absent⟩⟩

theorem mem_tombstonesOfDelta {built : BuiltSegment} (absent : id ∉ built.live.map Prod.fst) :
    id ∈ tombstonesOfDelta disk older built ↔ id ∈ built.deleted := by
  rw [← mem_tombstones absent]
  unfold tombstonesOfDelta pagedTombstonesFor
  have skip : ∀ (keep : String → Bool),
      id ∉ (built.live.map Prod.fst).filter keep := fun keep member =>
    absent (List.mem_filter.mp member).1
  split
  · split
    · rfl
    · split
      · rw [List.mem_append]
        exact or_iff_left (skip _)
      · rw [List.mem_append]
        exact or_iff_left (skip _)
  · rfl

theorem tombstonesOfDelta_clears {built : BuiltSegment} {written : List SegmentFile}
    (spreads : Spreads (layersOf paths written) (built.live.map fun d => (d.1, stored paths d.2))
      (tombstonesOfDelta disk older built))
    (kind : ∀ file ∈ written, file.paged = disk) :
    ∀ l ∈ layersOf paths older, ∀ k ∈ l.keys,
      k ∈ (built.live.map fun d => (d.1, stored paths d.2)).map Prod.fst →
      Removed (layersOf paths written) k := by
  intro l hl k held own
  obtain ⟨holder, hh, rfl⟩ := List.mem_map.mp hl
  rw [layer_keys] at held
  cases disk with
  | false =>
    -- A keyword file takes its own ids away from the files before it.
    obtain ⟨l, hl, inLayer⟩ := spreads.held.mpr own
    obtain ⟨file, hf, rfl⟩ := List.mem_map.mp hl
    rw [layer_keys] at inLayer
    refine removed_layersOf.mpr ⟨file, hf, ?_⟩
    rw [SegmentFile.replaces, kind file hf]
    exact List.mem_append_right _ inLayer
  | true =>
    refine spreads.removed_of_mem ?_
    have live : k ∈ built.live.map Prod.fst := by simpa [Function.comp_def] using own
    have some : older ≠ [] := List.ne_nil_of_mem hh
    rw [tombstonesOfDelta, if_pos rfl, pagedTombstonesFor, if_neg some]
    by_cases deleted : k ∈ built.tombstones
    · split <;> exact List.mem_append_left _ deleted
    · split
      · refine List.mem_append_right _ (List.mem_filter.mpr ⟨live, ?_⟩)
        simpa using ⟨deleted, holder, hh, held⟩
      · exact List.mem_append_right _ (List.mem_filter.mpr ⟨live, by simpa using deleted⟩)

theorem lookup_applyEntries_stored (entries done : List ReplicationLogEntry) :
    (lookup (applyEntries decode paths (done ++ entries) []) id).map (stored paths)
      = (((outcomes decode paths entries id).map (Option.map (stored paths))).getD
          ((lookup (applyEntries decode paths done []) id).map (stored paths))) := by
  rw [applyEntries_append, lookup_applyEntries]
  cases outcomes decode paths entries id <;> rfl

theorem built_tells (entries : List ReplicationLogEntry) (id : String) :
    ((entries.foldl (buildStep decode paths) ⟨[], []⟩).layer paths).tells id
      = (outcomes decode paths entries id).map (Option.map (stored paths)) := by
  rw [build_tells]
  exact Option.or_none

theorem Replays.checkpoint {segments : List SegmentFile} (h : Replays decode paths files done)
    (wrote : writeLoggedChanges decode paths disk cuts files entries = some segments) :
    Replays decode paths segments (done ++ entries) := by
  unfold writeLoggedChanges buildSegmentFromEntries at wrote
  simp only at wrote
  have told : ∀ id, ((entries.foldl (buildStep decode paths) ⟨[], []⟩).layer paths).tells id
      = (outcomes decode paths entries id).map (Option.map (stored paths)) := built_tells entries
  have nodup : ((entries.foldl (buildStep decode paths) ⟨[], []⟩).live.map Prod.fst).Nodup :=
    build_nodup entries _ List.nodup_nil
  generalize entries.foldl (buildStep decode paths) ⟨[], []⟩ = built at wrote told nodup
  split at wrote
  next empty =>
    cases wrote
    split at empty
    next nothing =>
      -- Neither a document nor a deletion: the entries wrote nothing.
      refine ⟨h.exclusive, h.single, fun id => ?_⟩
      have absent : id ∉ built.live.map Prod.fst := by simp [nothing.1]
      have kept : id ∉ built.deleted := by
        rw [← mem_tombstones absent, nothing.2]
        exact List.not_mem_nil
      have silent : (built.layer paths).tells id = none := by
        rw [Layer.tells_of_not_keys]
        · exact if_neg kept
        · simpa [BuiltSegment.layer, Layer.keys, Function.comp_def] using absent
      rw [lookup_applyEntries_stored, ← told id, silent]
      exact h.reads id
    next => cases empty
  next built' some =>
    split at some
    next => cases some
    next =>
    cases some
    obtain ⟨written, wrote, rest⟩ := Option.bind_eq_some_iff.mp wrote
    obtain ⟨spreads, kind⟩ := writeSegmentsOf_spreads paths nodup wrote
    split at rest
    next =>
      cases rest
      constructor
      · rw [layersOf_append]
        exact exclusive_append_spread h.exclusive spreads (tombstonesOfDelta_clears spreads kind)
      · exact List.forall_mem_append.mpr ⟨h.single, Spreads.ids_nodup spreads⟩
      · intro id
        rw [layersOf_append, read_append_spread spreads, lookup_applyEntries_stored, ← told id]
        have same : (Layer.mk (built.live.map fun d => (d.1, stored paths d.2))
            (tombstonesOfDelta disk files built)).tells id = (built.layer paths).tells id :=
          Layer.tells_congr fun absent =>
            mem_tombstonesOfDelta (by simpa [Function.comp_def] using absent)
        rw [same, ← h.reads id]
        cases (built.layer paths).tells id <;> rfl
    next => cases rest

theorem writeLoggedChanges_written {segments : List SegmentFile}
    (wrote : writeLoggedChanges decode paths disk cuts files entries = some segments) :
    ∃ written, segments = files ++ written ∧ (∀ file ∈ written, file.paged = disk) ∧
      ∀ id, outcomes decode paths entries id = some none →
        ∃ first rest, written = first :: rest ∧ id ∈ first.tombstones := by
  unfold writeLoggedChanges buildSegmentFromEntries at wrote
  simp only at wrote
  have told : ∀ id, ((entries.foldl (buildStep decode paths) ⟨[], []⟩).layer paths).tells id
      = (outcomes decode paths entries id).map (Option.map (stored paths)) := built_tells entries
  generalize entries.foldl (buildStep decode paths) ⟨[], []⟩ = built at wrote told
  have deleted : ∀ id, outcomes decode paths entries id = some none →
      id ∉ built.live.map Prod.fst ∧ id ∈ built.tombstones := by
    intro id gone
    have answer := told id
    rw [gone] at answer
    have absent : id ∉ built.live.map Prod.fst := by
      intro live
      have key : id ∈ (built.layer paths).keys := by
        simpa [BuiltSegment.layer, Layer.keys, Function.comp_def] using live
      obtain ⟨v, -, tells⟩ := Layer.tells_of_keys key
      rw [tells] at answer
      cases answer
    refine ⟨absent, (mem_tombstones absent).mpr ?_⟩
    have silent : id ∉ (built.layer paths).keys := by
      simpa [BuiltSegment.layer, Layer.keys, Function.comp_def] using absent
    rw [Layer.tells_of_not_keys silent] at answer
    split at answer
    next listed => exact listed
    next => cases answer
  split at wrote
  next empty =>
    cases wrote
    split at empty
    next nothing =>
      refine ⟨[], by simp, by simp, ?_⟩
      intro id gone
      have listed := (deleted id gone).2
      rw [nothing.2] at listed
      cases listed
    next => cases empty
  next built' some =>
    split at some
    next => cases some
    next =>
    cases some
    obtain ⟨written, wrote_files, rest⟩ := Option.bind_eq_some_iff.mp wrote
    split at rest
    next =>
      cases rest
      obtain ⟨kind, first⟩ := writeSegmentsOf_files wrote_files
      refine ⟨written, rfl, kind, ?_⟩
      intro id gone
      obtain ⟨absent, listed⟩ := deleted id gone
      exact first id ((mem_tombstonesOfDelta absent).mpr ((mem_tombstones absent).mp listed))
    next => cases rest

theorem Checkpointed.checkpoint {segments : List SegmentFile}
    (h : Checkpointed decode paths s done)
    (wrote : writeLoggedChanges decode paths s.disk cuts s.segments entries = some segments) :
    Checkpointed decode paths { s with segments } (done ++ entries) := by
  have replays := h.replays.checkpoint wrote
  refine ⟨replays.exclusive, replays.single, replays.reads, ?_⟩
  intro memory
  obtain ⟨written, rfl, kind, -⟩ := writeLoggedChanges_written wrote
  exact List.forall_mem_append.mpr ⟨h.keyword memory, fun file hf => (kind file hf).trans memory⟩

/-! ### A merge -/

theorem survivors_layersOf (window : List SegmentFile) :
    survivors (layersOf paths window)
      = (timeOrdered window).map fun d => (d.1, stored paths d.2) := by
  induction window with
  | nil => rfl
  | cons file newer ih =>
    have split : layersOf paths (file :: newer) = file.layer paths :: layersOf paths newer := rfl
    rw [split, survivors, ih, timeOrdered, List.map_append, SegmentFile.layer, List.filter_map]
    congr 2
    refine List.filter_congr fun d _ => ?_
    simp [removed_layersOf]

private theorem merged_stored (documents : List (String × Document)) :
    (documents.map fun d => (d.1, mergedDocument d.2 paths)).map (fun d => (d.1, stored paths d.2))
      = documents.map fun d => (d.1, stored paths d.2) := by
  rw [List.map_map]
  exact List.map_congr_left fun d _ => by simp [decodeStoredDocument_merged]

private theorem mem_timeOrdered (exclusive : Exclusive (layersOf paths window)) {k : String}
    (told : tells (layersOf paths window) k ≠ some none) (known : tells (layersOf paths window) k ≠ none) :
    k ∈ (timeOrdered window).map Prod.fst := by
  have found := lookup_survivors exclusive k
  obtain ⟨answer, same⟩ := Option.ne_none_iff_exists'.mp known
  obtain ⟨v, rfl⟩ : ∃ v, answer = some v := by
    cases answer with
    | none => exact absurd same told
    | some v => exact ⟨v, rfl⟩
  rw [same, survivors_layersOf] at found
  have member : k ∈ ((timeOrdered window).map fun d => (d.1, stored paths d.2)).map Prod.fst := by
    refine lookup_isSome.mp ?_
    rw [found]
    rfl
  simpa [Function.comp_def] using member

/-- What a window removes, its merge removes: by a tombstone, or because the
merged file holds the document itself. -/
theorem mergeTombstones_keeps {start : Nat} {written : List SegmentFile} {k : String}
    (exclusive : Exclusive (layersOf paths window))
    (memory : disk = false → ∀ file ∈ window, file.paged = false)
    (spreads : Spreads (layersOf paths written) (survivors (layersOf paths window))
      (mergeTombstones disk (start == 0) window))
    (kind : ∀ file ∈ written, file.paged = disk) (below : start ≠ 0)
    (removed : Removed (layersOf paths window) k) : Removed (layersOf paths written) k := by
  have below : (start == 0) = false := by simpa using below
  cases disk with
  | true =>
    refine spreads.removed_of_mem ?_
    rw [mergeTombstones, if_pos rfl, below, if_neg Bool.false_ne_true, List.mem_eraseDups]
    exact List.mem_flatMap.mpr (removed_layersOf.mp removed)
  | false =>
    by_cases survives : k ∈ (timeOrdered window).map Prod.fst
    · have own : k ∈ (survivors (layersOf paths window)).map Prod.fst := by
        rw [survivors_layersOf]
        simpa [Function.comp_def] using survives
      obtain ⟨l, hl, inLayer⟩ := spreads.held.mpr own
      obtain ⟨file, hf, rfl⟩ := List.mem_map.mp hl
      rw [layer_keys] at inLayer
      refine removed_layersOf.mpr ⟨file, hf, ?_⟩
      rw [SegmentFile.replaces, kind file hf]
      exact List.mem_append_right _ inLayer
    · -- The window's last word on the id is a deletion, which is one of its tombstones.
      have gone : tells (layersOf paths window) k = some none := by
        by_contra told
        refine survives (mem_timeOrdered exclusive told fun silent => ?_)
        exact (not_held_of_tells silent).1 removed
      obtain ⟨l, hl, listed, notHeld⟩ := removes_of_gone gone
      obtain ⟨file, hf, rfl⟩ := List.mem_map.mp hl
      rw [layer_keys] at notHeld
      refine spreads.removed_of_mem ?_
      rw [mergeTombstones, if_neg Bool.false_ne_true, retainedTombstones, List.mem_eraseDups]
      refine List.mem_filter.mpr ⟨List.mem_flatMap.mpr ⟨file, hf, ?_⟩, by simpa using survives⟩
      exact (mem_replaces listed).resolve_right notHeld

theorem mergeTombstones_fresh {start : Bool} {k : String}
    (listed : k ∈ mergeTombstones disk start window) : Removed (layersOf paths window) k := by
  rw [removed_layersOf]
  unfold mergeTombstones at listed
  split at listed
  · split at listed
    · cases listed
    · exact List.mem_flatMap.mp (List.mem_eraseDups.mp listed)
  · rw [retainedTombstones, List.mem_eraseDups] at listed
    obtain ⟨file, hf, inFile⟩ := List.mem_flatMap.mp (List.mem_filter.mp listed).1
    exact ⟨file, hf, replaces_of_tombstones inFile⟩

theorem Replays.merges {pre written post : List SegmentFile}
    (h : Replays decode paths (pre ++ window ++ post) done)
    (wrote : writeSegmentsOf disk true cuts
      ((timeOrdered window).map fun d => (d.1, mergedDocument d.2 paths)) tombstones = some written)
    (fresh : ∀ k ∈ tombstones, Removed (layersOf paths window) k)
    (keeps : Exclusive (layersOf paths window) →
      Spreads (layersOf paths written) (survivors (layersOf paths window)) tombstones →
      (∀ file ∈ written, file.paged = disk) → pre ≠ [] →
      ∀ k, Removed (layersOf paths window) k → Removed (layersOf paths written) k) :
    Merges (layersOf paths pre) (layersOf paths window) (layersOf paths written) tombstones := by
  have exclusive := h.exclusive
  rw [layersOf_append, layersOf_append] at exclusive
  have inside := (exclusive_append.mp (exclusive_append.mp exclusive).1).2.1
  have nodup : (((timeOrdered window).map fun d => (d.1, mergedDocument d.2 paths)).map
      Prod.fst).Nodup := by
    have survive := nodup_survivors inside fun l hl => by
      obtain ⟨file, hf, rfl⟩ := List.mem_map.mp hl
      rw [layer_keys]
      exact h.single file (by simp [hf])
    rw [survivors_layersOf] at survive
    simpa [Function.comp_def] using survive
  obtain ⟨spreads, kind⟩ := writeSegmentsOf_spreads paths nodup wrote
  rw [merged_stored, ← survivors_layersOf] at spreads
  exact ⟨spreads, fresh, fun some k removed =>
    keeps inside spreads kind (fun none => some (by rw [none]; rfl)) k removed⟩

theorem Replays.merge {pre written post : List SegmentFile}
    (h : Replays decode paths (pre ++ window ++ post) done)
    (merges : Merges (layersOf paths pre) (layersOf paths window) (layersOf paths written) tombstones) :
    Replays decode paths (pre ++ written ++ post) done := by
  have exclusive := h.exclusive
  rw [layersOf_append, layersOf_append] at exclusive
  have inside := (exclusive_append.mp (exclusive_append.mp exclusive).1).2.1
  constructor
  · rw [layersOf_append, layersOf_append]
    exact exclusive_merge merges exclusive
  · intro file member
    rcases List.mem_append.mp member with before | after
    · rcases List.mem_append.mp before with old | new
      · exact h.single file (by simp [old])
      · exact Spreads.ids_nodup merges.spreads file new
    · exact h.single file (by simp [after])
  · intro id
    rw [layersOf_append, layersOf_append, read_merge merges inside, ← layersOf_append, ← layersOf_append]
    exact h.reads id

theorem window_split {α : Type} (files : List α) (start windowLength : Nat) :
    files.take start ++ (files.drop start).take windowLength ++ files.drop (start + windowLength)
      = files := by
  rw [List.append_assoc, ← List.drop_drop, List.take_append_drop, List.take_append_drop]

theorem Checkpointed.compact {start windowLength : Nat} {segments : List SegmentFile}
    (h : Checkpointed decode paths s done)
    (merged : compactPartitionSegments paths s.disk start windowLength cuts s.segments
      = some segments) : Checkpointed decode paths { s with segments } done := by
  have parts := (window_split s.segments start windowLength).symm
  unfold compactPartitionSegments at merged
  simp only at merged
  split at merged
  · cases merged
  obtain ⟨written, wrote, rest⟩ := Option.bind_eq_some_iff.mp merged
  cases rest
  have nothingBelow : s.segments.take start ≠ [] → start ≠ 0 := by
    rintro some rfl
    exact some rfl
  generalize (s.segments.drop start).take windowLength = window at *
  generalize s.segments.take start = pre at *
  generalize s.segments.drop (start + windowLength) = post at *
  have memory := h.keyword
  rw [parts] at memory
  have replays := h.replays
  rw [parts] at replays
  have later := replays.merge (replays.merges wrote (fun k listed => mergeTombstones_fresh listed)
    fun inside spreads kind some k removed =>
      mergeTombstones_keeps inside (fun memory' file hf => memory memory' file (by simp [hf]))
        spreads kind (nothingBelow some) removed)
  refine ⟨later.exclusive, later.single, later.reads, ?_⟩
  intro memory' file member
  rcases List.mem_append.mp member with before | after
  · rcases List.mem_append.mp before with old | new
    · exact memory memory' file (by simp [old])
    · exact ((writeSegmentsOf_files wrote).1 file new).trans memory'
  · exact memory memory' file (by simp [after])

/-! ### Loading -/

theorem loadSegment_attach (held : List (String × Document))
    (readable : disk = false → file.paged = false) :
    loadSegment paths disk held file = some (attach held (file.layer paths)) := by
  unfold loadSegment attach SegmentFile.layer SegmentFile.replaces
  cases paged : file.paged with
  | true =>
    have onDisk : disk = true := by
      by_contra memory
      rw [readable (by simpa using memory)] at paged
      cases paged
    simp [onDisk]
  | false =>
    have none : ¬ ∃ docId ∈ file.ids, docId ∈ ((held.filter fun d => d.1 ∉ file.tombstones).filter
        fun d => d.1 ∉ file.ids).map Prod.fst := by
      rintro ⟨docId, own, held⟩
      obtain ⟨d, hd, rfl⟩ := List.mem_map.mp held
      exact absurd own (by simpa using (List.mem_filter.mp hd).2)
    simp only [Bool.false_eq_true, if_false]
    rw [if_neg none, List.filter_filter]
    congr 2
    refine List.filter_congr fun d _ => ?_
    simp [Bool.and_comm, not_or]

theorem loadPartitionSegments_eq (readable : disk = false → ∀ file ∈ files, file.paged = false) :
    loadPartitionSegments paths disk files = some (load (layersOf paths files)) := by
  unfold loadPartitionSegments load
  generalize ([] : List (String × Document)) = held
  induction files generalizing held with
  | nil => rfl
  | cons file rest ih =>
    rw [List.foldlM_cons, loadSegment_attach held fun memory => readable memory file (by simp)]
    exact ih (fun memory later hl => readable memory later (by simp [hl])) _

/-! ### Runs -/

theorem nextSegments_checkpointed {action : SegmentAction}
    (h : Checkpointed decode paths s done)
    (step : nextSegments decode paths s action = some s') :
    Checkpointed decode paths s' (done ++ checkpointed [action]) := by
  cases action with
  | checkpoint entries cuts =>
    obtain ⟨segments, wrote, rfl⟩ := Option.map_eq_some_iff.mp step
    simpa [checkpointed] using h.checkpoint wrote
  | compact start windowLength cuts =>
    obtain ⟨segments, merged, rfl⟩ := Option.map_eq_some_iff.mp step
    simpa [checkpointed] using h.compact merged
  | storeTextOnDisk =>
    cases step
    simpa [checkpointed] using ⟨h.exclusive, h.single, h.reads, by simp⟩

theorem checkpointed_cons (action : SegmentAction) (rest : List SegmentAction) :
    checkpointed (action :: rest) = checkpointed [action] ++ checkpointed rest := by
  cases action <;> simp [checkpointed]

theorem run_checkpointed {actions : List SegmentAction} (h : Checkpointed decode paths s done)
    (reached : Transition.run (nextSegments decode paths) s actions = some s') :
    Checkpointed decode paths s' (done ++ checkpointed actions) := by
  induction actions generalizing s done with
  | nil =>
    cases reached
    simpa [checkpointed] using h
  | cons action rest ih =>
    rw [Transition.run_cons] at reached
    obtain ⟨mid, step, reached⟩ := Option.bind_eq_some_iff.mp reached
    rw [checkpointed_cons, ← List.append_assoc]
    exact ih (nextSegments_checkpointed h step) reached

/-- `{ embedding: null }` in MessagePack. -/
def nullVector : Bytes :=
  [0x81, 0xa9, 0x65, 0x6d, 0x62, 0x65, 0x64, 0x64, 0x69, 0x6e, 0x67, 0xc0]

def decodeNullVector : Bytes → Document := fun _ => [("embedding", .null)]

def indexEntry (seqNo : Nat) (documentId : String) : ReplicationLogEntry :=
  ⟨seqNo, 1, .index, 0, "articles", documentId, some nullVector, 0⟩

def deleteEntry (seqNo : Nat) (documentId : String) : ReplicationLogEntry :=
  ⟨seqNo, 1, .delete, 0, "articles", documentId, none, 0⟩

/-- A deletion and a reinsertion across three checkpoints, two of which are
merged above the oldest file. -/
def sampleSteps : List SegmentAction :=
  [.checkpoint [indexEntry 1 "a", indexEntry 2 "b"] [0],
    .checkpoint [deleteEntry 3 "a"] [],
    .checkpoint [indexEntry 4 "c", deleteEntry 5 "b"] [],
    .compact 2 2 []]

end Narsil.Segment
