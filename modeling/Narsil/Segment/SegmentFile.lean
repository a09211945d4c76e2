import Mathlib.Data.Rat.Defs
import Narsil.Layered.Merging
import Narsil.Replication.Entry
import Narsil.Transition.Run

/-!
# Documents and their vector fields

A document as the MessagePack decoder and `restoreVectorFields` give it. A
partition keeps a document without the vectors that could be read from it; a
segment file keeps none of the fields that the schema declares as vectors,
whatever they hold.
-/
namespace Narsil.Segment

/-- A decoded value. A number is absent where it is not finite; a `Float32Array`
is given by its bit patterns. -/
inductive Value where
  | null
  | flag (value : Bool)
  | number (value : Option Rat)
  | text (value : String)
  | bytes (value : Bytes)
  | floats (bits : List Nat)
  | array (elements : List Value)
  | object (fields : List (String × Value))

abbrev Document := List (String × Value)

/-- A field path, split at its dots. -/
abbrev FieldPath := List String

def valueAt : FieldPath → Value → Option Value
  | [], v => some v
  | segment :: rest, .object fields =>
    (fields.find? fun f => f.1 = segment).bind fun f => valueAt rest f.2
  | _ :: _, _ => none

def getNestedValue (document : Document) (path : FieldPath) : Option Value :=
  valueAt path (.object document)

def isFiniteNumber : Value → Bool
  | .number value => value.isSome
  | _ => false

/-- `extractVectorFromDoc` reads a vector from the value. -/
def isVector : Value → Bool
  | .floats _ => true
  | .array elements => elements.all isFiniteNumber
  | _ => false

def removeAt : FieldPath → Value → Value
  | [], v => v
  | [segment], .object fields => .object (fields.filter fun f => f.1 ≠ segment)
  | segment :: next :: rest, .object fields =>
    .object (fields.map fun f => if f.1 = segment then (f.1, removeAt (next :: rest) f.2) else f)
  | _ :: _, v => v

def removeFieldAtPath (document : Document) (path : FieldPath) : Document :=
  match removeAt path (.object document) with
  | .object fields => fields
  | _ => document

def shallowCopyExcluding (document : Document) (paths : List FieldPath) : Document :=
  (paths.filter fun path => path.length ≠ 1).foldl removeFieldAtPath
    (document.filter fun f => [f.1] ∉ paths)

/-- The `partitionDoc` of `prepareDocumentVectors`. -/
def prepareDocumentVectors (document : Document) (vectorFieldPaths : List FieldPath) : Document :=
  let extracted := vectorFieldPaths.filter fun path => (getNestedValue document path).any isVector
  if extracted = [] then document else shallowCopyExcluding document extracted

def forbiddenKeys : List String := ["__proto__", "constructor", "prototype"]

/-- The fields of a decoded map but those to be skipped; `none` where the
function gives up and the document is decoded whole. -/
def decodeMapWithoutFields (document : Document) (skippedFields : List FieldPath) :
    Option Document :=
  if document = [] ∨ document.any (fun f => f.1 ∈ forbiddenKeys) then none
  else some (document.filter fun f => [f.1] ∉ skippedFields)

def everyVectorFieldIsTopLevel (vectorFieldPaths : List FieldPath) : Bool :=
  vectorFieldPaths.all (fun path => path.length = 1) && !vectorFieldPaths.isEmpty

def documentWithoutVectors (document : Document) (vectorFieldPaths : List FieldPath) : Document :=
  let skipped := if everyVectorFieldIsTopLevel vectorFieldPaths then
    decodeMapWithoutFields document vectorFieldPaths else none
  skipped.getD (prepareDocumentVectors document vectorFieldPaths)

/-- A stored document as a segment file reads it. -/
def decodeStoredDocument (document : Document) (discardedFields : List FieldPath) : Document :=
  discardedFields.foldl removeFieldAtPath document

def holdsADiscardedField (document : Document) (discardedFields : List FieldPath) : Bool :=
  discardedFields.any fun path => document.any fun f => path.head? = some f.1

/-- A merge copies stored bytes, unless a discarded field is among them. -/
def mergedDocument (document : Document) (discardedFields : List FieldPath) : Document :=
  if holdsADiscardedField document discardedFields then
    decodeStoredDocument document discardedFields
  else document

variable {document : Document} {path other : FieldPath} {paths : List FieldPath}

/-- What is left of a field when a path that starts with `segment` is removed. -/
private def dropAt (segment : String) (rest : FieldPath) (f : String × Value) :
    Option (String × Value) :=
  if f.1 = segment then if rest = [] then none else some (f.1, removeAt rest f.2) else some f

private theorem removeAt_object (segment : String) (rest : FieldPath) (fields : Document) :
    removeAt (segment :: rest) (.object fields) = .object (fields.filterMap (dropAt segment rest)) := by
  cases rest with
  | nil =>
    rw [removeAt, ← List.filterMap_eq_filter]
    congr 2
    funext f
    by_cases same : f.1 = segment <;> simp [dropAt, Option.guard, same]
  | cons next rest =>
    rw [removeAt, ← List.filterMap_eq_map]
    congr 2
    funext f
    by_cases same : f.1 = segment <;> simp [dropAt, same]

private theorem removeAt_other (path : FieldPath) {v : Value} (notObject : ∀ fields, v ≠ .object fields) :
    removeAt path v = v := by
  match path with
  | [] => rfl
  | [_] | _ :: _ :: _ =>
    cases v with
    | object fields => exact absurd rfl (notObject fields)
    | _ => rfl

theorem removeAt_comm (path other : FieldPath) (v : Value) :
    removeAt path (removeAt other v) = removeAt other (removeAt path v) := by
  induction path generalizing other v with
  | nil => rfl
  | cons p ps ih =>
    cases other with
    | nil => rfl
    | cons o os =>
      by_cases isObject : ∃ fields, v = .object fields
      · obtain ⟨fields, rfl⟩ := isObject
        rw [removeAt_object, removeAt_object, removeAt_object, removeAt_object,
          List.filterMap_filterMap, List.filterMap_filterMap]
        congr 2
        funext ⟨key, v⟩
        by_cases both : p = o
        · subst both
          by_cases here : key = p <;> by_cases endp : ps = [] <;> by_cases endo : os = [] <;>
            simp [dropAt, here, endp, endo, ih os v]
        · by_cases hp : key = p
          · subst hp
            by_cases endp : ps = [] <;> simp [dropAt, both, endp]
          · by_cases ho : key = o
            · subst ho
              by_cases endo : os = [] <;> simp [dropAt, hp, endo]
            · simp [dropAt, hp, ho]
      · have notObject : ∀ fields, v ≠ .object fields := fun fields same => isObject ⟨fields, same⟩
        rw [removeAt_other _ notObject, removeAt_other _ notObject, removeAt_other _ notObject]

theorem removeAt_idem (path : FieldPath) (v : Value) :
    removeAt path (removeAt path v) = removeAt path v := by
  induction path generalizing v with
  | nil => rfl
  | cons p ps ih =>
    by_cases isObject : ∃ fields, v = .object fields
    · obtain ⟨fields, rfl⟩ := isObject
      rw [removeAt_object, removeAt_object, List.filterMap_filterMap]
      congr 2
      funext f
      by_cases hp : f.1 = p <;> by_cases endp : ps = [] <;> simp [dropAt, hp, endp, ih f.2]
    · rw [removeAt_other _ fun fields same => isObject ⟨fields, same⟩,
        removeAt_other _ fun fields same => isObject ⟨fields, same⟩]

theorem object_removeFieldAtPath (document : Document) (path : FieldPath) :
    .object (removeFieldAtPath document path) = removeAt path (.object document) := by
  cases path with
  | nil => rfl
  | cons segment rest =>
    rw [removeFieldAtPath, removeAt_object]

theorem removeFieldAtPath_comm (document : Document) (path other : FieldPath) :
    removeFieldAtPath (removeFieldAtPath document other) path
      = removeFieldAtPath (removeFieldAtPath document path) other := by
  have same := removeAt_comm path other (.object document)
  rw [← object_removeFieldAtPath, ← object_removeFieldAtPath, ← object_removeFieldAtPath,
    ← object_removeFieldAtPath] at same
  exact Value.object.inj same

theorem removeFieldAtPath_idem (document : Document) (path : FieldPath) :
    removeFieldAtPath (removeFieldAtPath document path) path = removeFieldAtPath document path := by
  have same := removeAt_idem path (.object document)
  rw [← object_removeFieldAtPath, ← object_removeFieldAtPath] at same
  exact Value.object.inj same

theorem decodeStoredDocument_remove (document : Document) (paths : List FieldPath) (path : FieldPath) :
    decodeStoredDocument (removeFieldAtPath document path) paths
      = removeFieldAtPath (decodeStoredDocument document paths) path := by
  induction paths generalizing document with
  | nil => rfl
  | cons first rest ih =>
    have swap := removeFieldAtPath_comm document first path
    simp only [decodeStoredDocument, List.foldl_cons] at ih ⊢
    rw [swap, ih]

theorem decodeStoredDocument_idem (document : Document) (paths : List FieldPath) :
    decodeStoredDocument (decodeStoredDocument document paths) paths
      = decodeStoredDocument document paths := by
  induction paths generalizing document with
  | nil => rfl
  | cons first rest ih =>
    have step : ∀ d, decodeStoredDocument d (first :: rest)
        = decodeStoredDocument (removeFieldAtPath d first) rest := fun _ => rfl
    rw [step, step, decodeStoredDocument_remove, ih, ← decodeStoredDocument_remove,
      removeFieldAtPath_idem]

theorem decodeStoredDocument_merged (document : Document) (paths : List FieldPath) :
    decodeStoredDocument (mergedDocument document paths) paths = decodeStoredDocument document paths := by
  unfold mergedDocument
  split
  · exact decodeStoredDocument_idem document paths
  · rfl

private theorem decodeStoredDocument_topLevel (document : Document) (paths : List FieldPath)
    (topLevel : ∀ path ∈ paths, path.length = 1) :
    decodeStoredDocument document paths = document.filter fun f => [f.1] ∉ paths := by
  induction paths generalizing document with
  | nil => simp [decodeStoredDocument]
  | cons first rest ih =>
    obtain ⟨segment, rfl⟩ := List.length_eq_one_iff.mp (topLevel first (by simp))
    have here : removeFieldAtPath document [segment] = document.filter fun f => f.1 ≠ segment := rfl
    have step : decodeStoredDocument document ([segment] :: rest)
        = decodeStoredDocument (removeFieldAtPath document [segment]) rest := rfl
    rw [step, ih _ fun path hp => topLevel path (List.mem_cons_of_mem _ hp), here,
      List.filter_filter]
    refine List.filter_congr fun f _ => ?_
    simp [Bool.and_comm, not_or]

theorem decodeStoredDocument_withoutVectors (document : Document) (paths : List FieldPath) :
    decodeStoredDocument (documentWithoutVectors document paths) paths
      = decodeStoredDocument (prepareDocumentVectors document paths) paths := by
  by_cases topLevel : everyVectorFieldIsTopLevel paths = true
  · rw [documentWithoutVectors, if_pos topLevel]
    have single : ∀ path ∈ paths, path.length = 1 := by
      have both := (Bool.and_eq_true_iff.mp topLevel).1
      simpa using both
    unfold decodeMapWithoutFields
    split
    · rfl
    · rw [Option.getD_some, decodeStoredDocument_topLevel _ _ single,
        decodeStoredDocument_topLevel _ _ single, List.filter_filter]
      unfold prepareDocumentVectors
      simp only
      split
      · exact List.filter_congr fun f _ => by simp
      next extracted =>
        -- The extracted vectors are among the fields that the reader discards.
        rw [shallowCopyExcluding]
        have noNested : ((paths.filter fun path => (getNestedValue document path).any isVector).filter
            fun path => path.length ≠ 1) = [] := by
          refine List.filter_eq_nil_iff.mpr fun path hp => ?_
          simp [single path (List.mem_filter.mp hp).1]
        rw [noNested, List.foldl_nil, List.filter_filter]
        refine List.filter_congr fun f _ => ?_
        by_cases known : [f.1] ∈ paths <;> simp [known]
  · rw [documentWithoutVectors, if_neg topLevel, Option.getD_none]

end Narsil.Segment

/-!
## Segment files and the log

How a checkpoint turns a range of logged entries into segment files, how a
window of files is merged, and how recovery loads the files and replays the
rest of the log. An index with `textStorage: 'disk'` writes paged files and
reads keyword files beside them.
-/
namespace Narsil.Segment

open Assoc Layered

/-- MAX_SEGMENTS_PER_PARTITION -/
def maxSegmentsPerPartition : Nat := 65536

structure SegmentFile where
  documents : List (String × Document)
  tombstones : List String
  paged : Bool

def SegmentFile.ids (file : SegmentFile) : List String := file.documents.map Prod.fst

variable (decode : Bytes → Document) (vectorFieldPaths : List FieldPath)

/-- `applyIndexEntry` and `applyDeleteEntry`; `decode` stands for the MessagePack
decoder followed by `restoreVectorFields`. -/
def applyEntry (held : List (String × Document)) (entry : ReplicationLogEntry) :
    List (String × Document) :=
  match entry.operation, entry.document with
  | .delete, _ => held.filter fun d => d.1 ≠ entry.documentId
  | .index, none => held
  | .index, some encoded =>
    held.filter (fun d => d.1 ≠ entry.documentId)
      ++ [(entry.documentId, prepareDocumentVectors (decode encoded) vectorFieldPaths)]

def applyEntries (entries : List ReplicationLogEntry) (held : List (String × Document)) :
    List (String × Document) :=
  entries.foldl (applyEntry decode vectorFieldPaths) held

/-- The maps of the builder's loop: `live`, in insertion order, and `deleted`. -/
structure BuiltSegment where
  live : List (String × Document)
  deleted : List String

def buildStep (built : BuiltSegment) (entry : ReplicationLogEntry) : BuiltSegment :=
  match entry.operation, entry.document with
  | .delete, _ =>
    { live := built.live.filter fun d => d.1 ≠ entry.documentId
      deleted := built.deleted.insert entry.documentId }
  | .index, none => built
  | .index, some encoded =>
    { built with
      live := built.live.filter (fun d => d.1 ≠ entry.documentId)
        ++ [(entry.documentId, documentWithoutVectors (decode encoded) vectorFieldPaths)] }

def BuiltSegment.tombstones (built : BuiltSegment) : List String :=
  built.deleted.filter fun docId => docId ∉ built.live.map Prod.fst

/-- `none` where the range leaves neither a document nor a tombstone. -/
def buildSegmentFromEntries (entries : List ReplicationLogEntry) : Option BuiltSegment :=
  let built := entries.foldl (buildStep decode vectorFieldPaths) ⟨[], []⟩
  if built.live = [] ∧ built.tombstones = [] then none else some built

/-- Consecutive groups of the given sizes. How many documents a group takes
depends on encoded sizes, which the model leaves open. -/
def groupsOf {α : Type} : List Nat → List α → List (List α)
  | _, [] => []
  | [], d :: rest => [d :: rest]
  | cut :: cuts, d :: rest => (d :: rest.take cut) :: groupsOf cuts (rest.drop cut)

/-- The first file carries the tombstones. -/
def filesOf (paged : Bool) (groups : List (List (String × Document))) (tombstones : List String) :
    List SegmentFile :=
  match groups with
  | [] => if tombstones = [] then [] else [⟨[], tombstones, paged⟩]
  | first :: rest => ⟨first, tombstones, paged⟩ :: rest.map fun group => ⟨group, [], paged⟩

/-- A paged merge is one file whatever its size; a keyword file that comes out
too large is halved. -/
def writeSegmentsOf (paged mergesIntoOneFile : Bool) (cuts : List Nat)
    (documents : List (String × Document)) (tombstones : List String) : Option (List SegmentFile) :=
  let cuts := if paged && mergesIntoOneFile then [] else cuts
  let files := filesOf paged (groupsOf cuts documents) tombstones
  if files.length ≤ maxSegmentsPerPartition then some files else none

/-- A paged file names what it replaces: the deleted ids, and those of its own
that an older file holds, or may hold. -/
def pagedTombstonesFor (older : List SegmentFile) (ids deleted : List String) : List String :=
  if older = [] then deleted
  else if older.all SegmentFile.paged then
    deleted ++ ids.filter fun docId => docId ∉ deleted ∧ ∃ file ∈ older, docId ∈ file.ids
  else deleted ++ ids.filter fun docId => docId ∉ deleted

def tombstonesOfDelta (disk : Bool) (older : List SegmentFile) (built : BuiltSegment) : List String :=
  if disk then pagedTombstonesFor older (built.live.map Prod.fst) built.tombstones
  else built.tombstones

/-- `writeLoggedChanges` up to the compaction. -/
def writeLoggedChanges (disk : Bool) (cuts : List Nat) (segments : List SegmentFile)
    (entries : List ReplicationLogEntry) : Option (List SegmentFile) :=
  match buildSegmentFromEntries decode vectorFieldPaths entries with
  | none => some segments
  | some built => do
    let written ← writeSegmentsOf disk false cuts built.live (tombstonesOfDelta disk segments built)
    let segments := segments ++ written
    if segments.length ≤ maxSegmentsPerPartition then some segments else none

/-- The ids that a file takes away from the files before it. -/
def SegmentFile.replaces (file : SegmentFile) : List String :=
  if file.paged then file.tombstones else file.tombstones ++ file.ids

/-- The documents of a window once each newer file has removed what it replaces. -/
def timeOrdered : List SegmentFile → List (String × Document)
  | [] => []
  | file :: newer =>
    file.documents.filter (fun d => ¬ ∃ later ∈ newer, d.1 ∈ later.replaces) ++ timeOrdered newer

def retainedTombstones (window : List SegmentFile) : List String :=
  ((window.flatMap SegmentFile.tombstones).filter fun docId =>
    docId ∉ (timeOrdered window).map Prod.fst).eraseDups

def mergeTombstones (disk dropsEveryTombstone : Bool) (window : List SegmentFile) : List String :=
  if disk then
    if dropsEveryTombstone then [] else (window.flatMap SegmentFile.replaces).eraseDups
  else retainedTombstones window

/-- Merge the window of files from `start` on. An index in memory cannot read a
paged file. -/
def compactPartitionSegments (disk : Bool) (start windowLength : Nat) (cuts : List Nat)
    (segments : List SegmentFile) : Option (List SegmentFile) :=
  let window := (segments.drop start).take windowLength
  if !disk && window.any SegmentFile.paged then none
  else do
    let documents := (timeOrdered window).map fun d => (d.1, mergedDocument d.2 vectorFieldPaths)
    let written ← writeSegmentsOf disk true cuts documents (mergeTombstones disk (start == 0) window)
    some (segments.take start ++ written ++ segments.drop (start + windowLength))

def loadSegment (disk : Bool) (held : List (String × Document)) (file : SegmentFile) :
    Option (List (String × Document)) :=
  let documents := file.documents.map fun d => (d.1, decodeStoredDocument d.2 vectorFieldPaths)
  if file.paged then
    if disk then some (held.filter (fun d => d.1 ∉ file.tombstones) ++ documents) else none
  else
    let kept := (held.filter fun d => d.1 ∉ file.tombstones).filter fun d => d.1 ∉ file.ids
    -- requireNewSegmentDocuments
    if ∃ docId ∈ file.ids, docId ∈ kept.map Prod.fst then none else some (kept ++ documents)

def loadPartitionSegments (disk : Bool) (segments : List SegmentFile) :
    Option (List (String × Document)) :=
  segments.foldlM (loadSegment vectorFieldPaths disk) []

structure SegmentState where
  /-- `textStorage` is `'disk'`. -/
  disk : Bool
  segments : List SegmentFile

inductive SegmentAction where
  /-- A checkpoint of the next entries of the log. -/
  | checkpoint (entries : List ReplicationLogEntry) (cuts : List Nat)
  | compact (start windowLength : Nat) (cuts : List Nat)
  /-- The index is opened with its text on disk from here on. -/
  | storeTextOnDisk

def nextSegments (s : SegmentState) : SegmentAction → Option SegmentState
  | .checkpoint entries cuts =>
    (writeLoggedChanges decode vectorFieldPaths s.disk cuts s.segments entries).map fun segments =>
      { s with segments }
  | .compact start windowLength cuts =>
    (compactPartitionSegments vectorFieldPaths s.disk start windowLength cuts s.segments).map
      fun segments => { s with segments }
  | .storeTextOnDisk => some { s with disk := true }

/-- The entries that a list of steps has checkpointed. -/
def checkpointed : List SegmentAction → List ReplicationLogEntry
  | [] => []
  | .checkpoint entries _ :: rest => entries ++ checkpointed rest
  | _ :: rest => checkpointed rest

end Narsil.Segment
