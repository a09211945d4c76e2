import Narsil.Segment.PagedOpening

/-!
# What the tombstones of a paged file mask

Ranges of the log are written to files of either kind, and windows of files are merged
to paged ones. A paged file takes from the files before it its tombstones only, and they
name what those files still show of its documents and of the deletes of its entries. So
the opened files show what the entries leave, each document in the newest file that
holds it.
-/
namespace Narsil.Segment

open Assoc Layered Composite

/-- A file with the entries it stands for; of a write that takes several files the first
    one stands for all. -/
structure WrittenFile where
  file : SegmentFile
  range : List ReplicationLogEntry

def ranged (range : List ReplicationLogEntry) : List SegmentFile → List WrittenFile
  | [] => []
  | first :: rest => ⟨first, range⟩ :: rest.map fun file => ⟨file, []⟩

inductive PagedAction
  | write (paged : Bool) (entries : List ReplicationLogEntry) (cuts : List Nat)
  | merge (start windowLength : Nat) (dropsEveryTombstone : Bool)

variable (decode : Bytes → Document) (paths : List FieldPath)

/-- The new file's tombstones are what its sources replace. -/
def mergePagedWindow (dropsEveryTombstone : Bool) (window : List SegmentFile) : Option (List SegmentFile) :=
  writeSegmentsOf true true [] ((timeOrdered window).map fun d => (d.1, mergedDocument d.2 paths))
    (mergeTombstones true dropsEveryTombstone window)

/-- A write goes on top; a merge drops every tombstone only where no file lies below. -/
def nextFiles (s : List WrittenFile) : PagedAction → Option (List WrittenFile)
  | .write paged entries cuts =>
    (writeLoggedChanges decode paths paged cuts (s.map WrittenFile.file) entries).map fun segments =>
      s ++ ranged entries (segments.drop s.length)
  | .merge start windowLength dropsEveryTombstone =>
    if dropsEveryTombstone = true ∧ start ≠ 0 then none
    else
      let window := (s.drop start).take windowLength
      (mergePagedWindow paths dropsEveryTombstone (window.map WrittenFile.file)).map fun written =>
        s.take start ++ ranged (window.flatMap WrittenFile.range) written ++ s.drop (start + windowLength)

/-- The entries that the actions write. -/
def logged : List PagedAction → List ReplicationLogEntry
  | [] => []
  | .write _ entries _ :: rest => entries ++ logged rest
  | .merge _ _ _ :: rest => logged rest

variable {decode : Bytes → Document} {paths : List FieldPath} {below : List SegmentFile}
  {s s' window xs ys : List WrittenFile} {range done : List ReplicationLogEntry} {id : String}

@[simp] theorem ranged_files (range : List ReplicationLogEntry) (files : List SegmentFile) :
    (ranged range files).map WrittenFile.file = files := by
  cases files with
  | nil => rfl
  | cons first rest =>
    rw [ranged, List.map_cons, List.map_map]
    congr 1
    exact List.map_id _

/-- The file replaces what its entries delete of the files below. -/
def ListsDeletes (decode : Bytes → Document) (paths : List FieldPath) (below : List SegmentFile)
    (written : WrittenFile) : Prop :=
  ∀ id, outcomes decode paths written.range id = some none → Lives (layersOf paths below) id →
    id ∈ written.file.replaces

/-- Each file does, on top of those before it. -/
def AllListDeletes (decode : Bytes → Document) (paths : List FieldPath) :
    List SegmentFile → List WrittenFile → Prop
  | _, [] => True
  | below, written :: newer =>
    ListsDeletes decode paths below written ∧ AllListDeletes decode paths (below ++ [written.file]) newer

theorem allListDeletes_append :
    AllListDeletes decode paths below (xs ++ ys) ↔ AllListDeletes decode paths below xs ∧
      AllListDeletes decode paths (below ++ xs.map WrittenFile.file) ys := by
  induction xs generalizing below with
  | nil => simp [AllListDeletes]
  | cons written rest ih =>
    rw [List.cons_append, AllListDeletes, ih, AllListDeletes, and_assoc, List.map_cons,
      List.append_assoc, List.singleton_append]

theorem AllListDeletes.mono {below' : List SegmentFile} (h : AllListDeletes decode paths below xs)
    (fewer : ∀ id, Lives (layersOf paths below') id → Lives (layersOf paths below) id) :
    AllListDeletes decode paths below' xs := by
  induction xs generalizing below below' with
  | nil => trivial
  | cons written rest ih =>
    obtain ⟨own, later⟩ := h
    refine ⟨fun id deleted lives => own id deleted (fewer id lives), ih later ?_⟩
    intro id lives
    rw [layersOf_append, lives_append] at lives ⊢
    exact lives.imp_right fun both => ⟨fewer id both.1, both.2⟩

theorem ranged_listsDeletes {files : List SegmentFile}
    (listed : ∀ id, outcomes decode paths range id = some none → Lives (layersOf paths below) id →
      ∃ first rest, files = first :: rest ∧ id ∈ first.tombstones) :
    AllListDeletes decode paths below (ranged range files) := by
  have silent : ∀ (rest : List SegmentFile) (below : List SegmentFile),
      AllListDeletes decode paths below (rest.map fun file => ⟨file, []⟩) := by
    intro rest
    induction rest with
    | nil => exact fun _ => trivial
    | cons file rest ih => exact fun below => ⟨fun id deleted => (by cases deleted), ih (below ++ [file])⟩
  cases files with
  | nil => trivial
  | cons first rest =>
    refine ⟨?_, silent rest _⟩
    intro id deleted lives
    obtain ⟨_, _, same, member⟩ := listed id deleted lives
    cases same
    rw [SegmentFile.replaces]
    split
    · exact member
    · exact List.mem_append_left _ member

theorem outcomes_append (first rest : List ReplicationLogEntry) (id : String) :
    outcomes decode paths (first ++ rest) id =
      (outcomes decode paths rest id).or (outcomes decode paths first id) := by
  induction first with
  | nil => exact (Option.or_none).symm
  | cons entry later ih => rw [List.cons_append, outcomes, ih, outcomes, Option.or_assoc]

theorem removed_of_window (h : AllListDeletes decode paths below window)
    (deleted : outcomes decode paths (window.flatMap WrittenFile.range) id = some none)
    (lives : Lives (layersOf paths below) id) :
    Removed (layersOf paths (window.map WrittenFile.file)) id := by
  rw [removed_layersOf]
  induction window generalizing below with
  | nil => cases deleted
  | cons written rest ih =>
    obtain ⟨own, later⟩ := h
    by_cases here : id ∈ written.file.replaces
    · exact ⟨written.file, List.mem_cons_self, here⟩
    · rw [List.flatMap_cons, outcomes_append] at deleted
      rcases Option.or_eq_some_iff.mp deleted with by_rest | ⟨_, by_own⟩
      · have still : Lives (layersOf paths (below ++ [written.file])) id := by
          rw [layersOf_append, lives_append]
          refine Or.inr ⟨lives, ?_⟩
          rw [removed_layersOf]
          simpa using here
        obtain ⟨file, member, replaced⟩ := ih later by_rest still
        exact ⟨file, List.mem_cons_of_mem _ member, replaced⟩
      · exact absurd (own id by_own lives) here

structure Masked (decode : Bytes → Document) (paths : List FieldPath) (s : List WrittenFile)
    (entries : List ReplicationLogEntry) : Prop where
  replays : Replays decode paths (s.map WrittenFile.file) entries
  deletes : AllListDeletes decode paths [] s

theorem Masked.write {paged : Bool} {cuts : List Nat} {entries : List ReplicationLogEntry}
    {segments : List SegmentFile} (h : Masked decode paths s done)
    (wrote : writeLoggedChanges decode paths paged cuts (s.map WrittenFile.file) entries = some segments) :
    Masked decode paths (s ++ ranged entries (segments.drop s.length)) (done ++ entries) := by
  have replays := h.replays.checkpoint wrote
  obtain ⟨written, rfl, _, listed⟩ := writeLoggedChanges_written wrote
  have new : (s.map WrittenFile.file ++ written).drop s.length = written := by
    rw [List.drop_append_of_le_length (by simp), List.drop_eq_nil_of_le (by simp), List.nil_append]
  rw [new]
  constructor
  · rwa [List.map_append, ranged_files]
  · rw [allListDeletes_append]
    exact ⟨h.deletes, ranged_listsDeletes fun id deleted _ => listed id deleted⟩

theorem Masked.merge {start windowLength : Nat} {drops : Bool} {written : List SegmentFile}
    (h : Masked decode paths s done) (lowest : ¬ (drops = true ∧ start ≠ 0))
    (wrote : mergePagedWindow paths drops (((s.drop start).take windowLength).map WrittenFile.file)
      = some written) :
    Masked decode paths (s.take start
      ++ ranged (((s.drop start).take windowLength).flatMap WrittenFile.range) written
      ++ s.drop (start + windowLength)) done := by
  have parts := (window_split s start windowLength).symm
  have keeps_all : s.take start ≠ [] → drops = false := by
    intro some
    by_contra dropping
    apply lowest
    refine ⟨by simpa using dropping, ?_⟩
    rintro rfl
    exact some rfl
  have deletes := h.deletes
  have replays := h.replays
  rw [parts] at deletes replays
  rw [List.map_append, List.map_append] at replays
  generalize (s.drop start).take windowLength = window at *
  generalize s.take start = pre at *
  generalize s.drop (start + windowLength) = post at *
  have listed : pre.map WrittenFile.file ≠ [] → ∀ id,
      Removed (layersOf paths (window.map WrittenFile.file)) id →
        id ∈ mergeTombstones true drops (window.map WrittenFile.file) := by
    intro some id removed
    have keeps := keeps_all fun none => some (by rw [none]; rfl)
    rw [mergeTombstones, if_pos rfl, if_neg (by simp [keeps]), List.mem_eraseDups, List.mem_flatMap]
    exact removed_layersOf.mp removed
  have first := (writeSegmentsOf_files wrote).2
  have takes : pre.map WrittenFile.file ≠ [] → ∀ id,
      Removed (layersOf paths (window.map WrittenFile.file)) id → Removed (layersOf paths written) id := by
    intro some id removed
    obtain ⟨file, rest, rfl, member⟩ := first id (listed some id removed)
    exact removed_layersOf.mpr ⟨file, List.mem_cons_self, replaces_of_tombstones member⟩
  have merges := replays.merges wrote (fun k fresh => mergeTombstones_fresh fresh)
    fun _ _ _ some k removed => takes some k removed
  rw [allListDeletes_append, allListDeletes_append, List.nil_append] at deletes
  obtain ⟨⟨pre_lists, window_lists⟩, post_lists⟩ := deletes
  constructor
  · rw [List.map_append, List.map_append, ranged_files]
    exact replays.merge merges
  · rw [allListDeletes_append, allListDeletes_append, List.nil_append]
    refine ⟨⟨pre_lists, ranged_listsDeletes ?_⟩, post_lists.mono ?_⟩
    · intro id deleted lives
      have some : pre.map WrittenFile.file ≠ [] := by
        intro none
        rw [none] at lives
        exact lives
      exact first id (listed some id (removed_of_window window_lists deleted lives))
    · intro id lives
      rw [List.nil_append, List.map_append, ranged_files, layersOf_append] at lives
      rw [List.nil_append, List.map_append, layersOf_append]
      exact merges.lives lives

theorem Masked.next {action : PagedAction} (h : Masked decode paths s done)
    (step : nextFiles decode paths s action = some s') :
    Masked decode paths s' (done ++ logged [action]) := by
  cases action with
  | write paged entries cuts =>
    obtain ⟨segments, wrote, rfl⟩ := Option.map_eq_some_iff.mp step
    simpa [logged] using h.write wrote
  | merge start windowLength drops =>
    rw [nextFiles] at step
    split at step
    next => cases step
    next lowest =>
      obtain ⟨written, wrote, rfl⟩ := Option.map_eq_some_iff.mp step
      simpa [logged] using h.merge lowest wrote

theorem logged_cons (action : PagedAction) (rest : List PagedAction) :
    logged (action :: rest) = logged [action] ++ logged rest := by
  cases action <;> simp [logged]

theorem run_masked {actions : List PagedAction} (h : Masked decode paths s done)
    (reached : Transition.run (nextFiles decode paths) s actions = some s') :
    Masked decode paths s' (done ++ logged actions) := by
  induction actions generalizing s done with
  | nil =>
    cases reached
    simpa [logged] using h
  | cons action rest ih =>
    rw [Transition.run_cons] at reached
    obtain ⟨mid, step, reached⟩ := Option.bind_eq_some_iff.mp reached
    rw [logged_cons, ← List.append_assoc]
    exact ih (h.next step) reached

/-- The opened segments show the id in the newest file that holds it, and nowhere else. -/
def ShownInNewest (files : List SegmentFile) (partition : OpenedPartition) (id : String) : Prop :=
  ∃ place file, files[place]? = some file ∧ id ∈ file.ids ∧
    (∀ later other, place < later → files[later]? = some other → id ∉ other.ids) ∧
    (∃ segment ∈ partition.frozen, segment.segmentId = place) ∧
    ∀ segment ∈ partition.frozen, segment.hasDocument id = true ↔ segment.segmentId = place

def ShownNowhere (partition : OpenedPartition) (id : String) : Prop :=
  ∀ segment ∈ partition.frozen, segment.hasDocument id = false

section Shown
variable {files : List SegmentFile} {partition : OpenedPartition}

theorem Opened.get_eq (opened : Opened paths files partition) (exclusive : Exclusive (layersOf paths files))
    (id : String) : partition.get id = read (layersOf paths files) id := by
  rw [get_eq_lookup opened.distinct, CompositePartition.rows, opened.live, List.append_nil, opened.rows,
    lookup_load exclusive]

theorem Opened.has_iff_lives (opened : Opened paths files partition) :
    partition.has id = true ↔ Lives (layersOf paths files) id := by
  rw [has_iff_rows opened.live opened.distinct, opened.rows, load_eq_survivors]
  exact ⟨mem_survivors, survivors_of_lives⟩

theorem newest_of_masked (exclusive : Exclusive (layersOf paths files)) {place : Nat} {file : SegmentFile}
    (at_place : files[place]? = some file) (held : id ∈ file.ids)
    (kept : ∀ later other, place < later → files[later]? = some other → id ∉ other.replaces) :
    ∀ later other, place < later → files[later]? = some other → id ∉ other.ids := by
  induction files generalizing place with
  | nil => exact absurd at_place (by simp)
  | cons first rest ih =>
    obtain ⟨here, exclusive'⟩ := exclusive
    cases place with
    | zero =>
      obtain rfl := Option.some.inj at_place
      have silent : ¬ Removed (layersOf paths rest) id := by
        rw [removed_layersOf]
        rintro ⟨other, member, replaced⟩
        obtain ⟨later, at_later⟩ := List.getElem?_of_mem member
        exact kept (later + 1) other (Nat.succ_pos _) at_later replaced
      have nowhere := (here id (by rwa [layer_keys])).not_held silent
      intro later other after at_later
      obtain ⟨later, rfl⟩ := Nat.exists_eq_add_of_lt after
      have member : other ∈ rest := List.mem_of_getElem? (by simpa using at_later)
      have absent := nowhere _ (List.mem_map_of_mem member)
      rwa [layer_keys] at absent
    | succ place =>
      have kept' : ∀ later other, place < later → rest[later]? = some other → id ∉ other.replaces :=
        fun later other after at_later => kept (later + 1) other (Nat.succ_lt_succ after) at_later
      intro later other after at_later
      obtain ⟨later, rfl⟩ : ∃ before, later = before + 1 := ⟨later - 1, by omega⟩
      exact ih exclusive' at_place kept' later other (Nat.lt_of_succ_lt_succ after) at_later

theorem Opened.shown (opened : Opened paths files partition) (exclusive : Exclusive (layersOf paths files))
    (held : partition.has id = true) : ShownInNewest files partition id := by
  have row := (has_iff_rows opened.live opened.distinct id).mp held
  obtain ⟨segment, member, shown⟩ := (mem_frozenRows_keys opened.distinct).mp row
  have newest : ∀ segment ∈ partition.frozen, segment.hasDocument id = true →
      ∃ file, files[segment.segmentId]? = some file ∧ id ∈ file.ids ∧
        ∀ later other, segment.segmentId < later → files[later]? = some other → id ∉ other.ids := by
    intro segment member shown
    obtain ⟨file, at_place, documents⟩ := opened.placed segment member
    have listed := (FrozenSegment.hasDocument_iff (opened.distinct segment member)).mp shown
    have in_file : id ∈ file.ids := by
      have in_documents := List.map_subset Prod.fst segment.survivors_sublist.subset listed
      rw [documents, frozenSegmentOf, List.map_map] at in_documents
      exact in_documents
    exact ⟨file, at_place, in_file,
      newest_of_masked exclusive at_place in_file (opened.masked segment member id shown)⟩
  obtain ⟨file, at_place, in_file, none_later⟩ := newest segment member shown
  refine ⟨segment.segmentId, file, at_place, in_file, none_later, ⟨segment, member, rfl⟩, ?_⟩
  intro other other_member
  constructor
  · intro other_shown
    obtain ⟨other_file, other_at, in_other, none_after⟩ := newest other other_member other_shown
    rcases Nat.lt_trichotomy other.segmentId segment.segmentId with before | same | after
    · exact absurd in_file (none_after _ file before at_place)
    · exact same
    · exact absurd in_other (none_later _ other_file after other_at)
  · intro same
    have one := List.inj_on_of_nodup_map opened.once other_member member same
    rwa [one]

end Shown

/-- A keyword file, and two paged ones on top that are merged. -/
def pagedSteps : List PagedAction :=
  [.write false [indexEntry 1 "a", indexEntry 2 "b"] [],
    .write true [deleteEntry 3 "a", indexEntry 4 "b"] [],
    .write true [indexEntry 5 "a"] [],
    .merge 1 2 false]

end Narsil.Segment
