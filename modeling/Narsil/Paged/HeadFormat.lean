import Narsil.Serialization.ValueCodec
import Mathlib.Data.List.Sort

/-!
# The head of a paged segment

The head lists where each section of the payload is. It stands in front of them, behind a prefix
with its length and checksum, so its own length decides the places it lists.
-/
namespace Narsil.Paged

open Serialization

abbrev PAGED_SEGMENT_HEAD_VERSION : Nat := 1
abbrev SEGMENT_PAGE_BYTES : Nat := 65536
abbrev SECTION_ALIGNMENT_BYTES : Nat := 4
abbrev PAYLOAD_PREFIX_BYTES : Nat := 8

inductive SectionName
  | tokens | tokenOffsets | documentFrequencies | postingOffsets | blockLists | blockListOffsets | blockSummaries
  | tokenTotals | fieldLengths | numeric | sizes | boolean | enum | geopoint | pattern | partialWords
  | documentBlocks | idSample | postings | positionOffsets | positions | documents | ids | idOffsets | idOrder
  | removalOffsets | removals | surfaceForms | seqNos | primaryTerms
  deriving DecidableEq

def SectionName.text : SectionName → String
  | .tokens => "tokens"
  | .tokenOffsets => "tokenOffsets"
  | .documentFrequencies => "documentFrequencies"
  | .postingOffsets => "postingOffsets"
  | .blockLists => "blockLists"
  | .blockListOffsets => "blockListOffsets"
  | .blockSummaries => "blockSummaries"
  | .tokenTotals => "tokenTotals"
  | .fieldLengths => "fieldLengths"
  | .numeric => "numeric"
  | .sizes => "sizes"
  | .boolean => "boolean"
  | .enum => "enum"
  | .geopoint => "geopoint"
  | .pattern => "pattern"
  | .partialWords => "partialWords"
  | .documentBlocks => "documentBlocks"
  | .idSample => "idSample"
  | .postings => "postings"
  | .positionOffsets => "positionOffsets"
  | .positions => "positions"
  | .documents => "documents"
  | .ids => "ids"
  | .idOffsets => "idOffsets"
  | .idOrder => "idOrder"
  | .removalOffsets => "removalOffsets"
  | .removals => "removals"
  | .surfaceForms => "surfaceForms"
  | .seqNos => "seqNos"
  | .primaryTerms => "primaryTerms"

structure FileSection where
  name : String
  offset : Nat
  length : Nat
  pageBytes : Nat
  checksums : Bytes
  deriving DecidableEq

/-- What the head says besides its version and sections. The schema is an object of field paths, as a validated
schema has them. -/
structure HeadFields where
  schema : List (String × String)
  tombstones : List String
  documentCount : Nat
  fieldNames : List String

structure HeadFields.Valid (fields : HeadFields) : Prop where
  distinct : (fields.schema.map Prod.fst).Nodup
  noPrototype : "__proto__" ∉ fields.schema.map Prod.fst

structure PagedSegmentHead where
  v : Nat
  fields : HeadFields
  sections : List FileSection

inductive ErrorCode
  | persistenceLoadFailed
  | envelopeVersionMismatch
  deriving DecidableEq

structure NarsilError where
  code : ErrorCode
  message : String

def loadFailed (message : String) : NarsilError := ⟨.persistenceLoadFailed, message⟩

/-- What a test that throws leaves. -/
def holds {α : Type} (found : Option α) (message : String) : Except NarsilError α :=
  match found with
  | some value => .ok value
  | none => .error (loadFailed message)

def checked (test : Bool) (message : String) : Except NarsilError Unit :=
  if test then .ok () else .error (loadFailed message)

/-- The named entries of an object; lists and bytes are objects without any. -/
def entriesOf : Decoded → Option Fields
  | .object fields => some fields
  | .array _ => some []
  | .binary _ => some []
  | _ => none

def byteCount (value : Option Decoded) : Option Nat := (Decoded.asNumber value).bind Number.safe

def isStringRecord : Option Decoded → Option (List (String × String))
  | some (.object fields) => fields.mapM fun field => (Decoded.asString (some field.2)).map (field.1, ·)
  | some (.binary []) => some []
  | _ => none

def isStringList : Option Decoded → Option (List String)
  | some (.array values) => values.mapM fun value => Decoded.asString (some value)
  | _ => none

section Decode
-- The language's `String`, for the values a message shows.
variable (shown : Option Decoded → String)

def pageSize (allowedPageBytes : List Nat) (value : Option Decoded) : Option Nat :=
  (byteCount value).filter fun pageBytes => allowedPageBytes.contains pageBytes

def pageCountOf (length pageBytes : Nat) : Nat := (length + pageBytes - 1) / pageBytes

def decodeSection (what : String) (allowedPageBytes : List Nat) (raw : Decoded) : Except NarsilError FileSection := do
  let entry ← holds (entriesOf raw) s!"The {what} lists a section that is not a map"
  let name ← holds ((Decoded.asString (entry.lookup "name")).filter (· ≠ "")) s!"The {what} lists a section without a name"
  let invalidPlace := s!"The {what} gives section \"{name}\" an invalid place"
  let offset ← holds (byteCount (entry.lookup "offset")) invalidPlace
  let length ← holds (byteCount (entry.lookup "length")) invalidPlace
  let size := shown (entry.lookup "pageBytes")
  let pageBytes ← holds (pageSize allowedPageBytes (entry.lookup "pageBytes"))
    s!"The {what} gives section \"{name}\" a page size of {size}"
  let checksums ← holds (Decoded.asBinary (entry.lookup "checksums")) s!"The {what} gives section \"{name}\" no checksums"
  checked (decide (checksums.length = pageCountOf length pageBytes * 4))
    s!"The {what} gives section \"{name}\" {checksums.length} bytes of checksums"
  return ⟨name, offset, length, pageBytes, checksums⟩

/-- Each name once, and each section within the payload. -/
def checkSections (what : String) (payloadLength : Nat) : List String → List FileSection → Except NarsilError Unit
  | _, [] => .ok ()
  | names, section_ :: rest => do
    checked (!names.contains section_.name) s!"The {what} repeats section \"{section_.name}\""
    checked (decide (section_.offset + section_.length ≤ payloadLength))
      s!"The {what} ends section \"{section_.name}\" outside the payload"
    checkSections what payloadLength (section_.name :: names) rest

def checkOverlaps (what : String) : List FileSection → Except NarsilError Unit
  | before :: after :: rest => do
    checked (decide (before.offset + before.length ≤ after.offset))
      s!"The {what} overlaps section \"{before.name}\" with \"{after.name}\""
    checkOverlaps what (after :: rest)
  | _ => .ok ()

def decodeSections (payloadLength : Nat) (what : String) (allowedPageBytes : List Nat) (raw : Option Decoded) :
    Except NarsilError (List FileSection) := do
  let values ← holds (match raw with | some (.array values) => some values | _ => none) s!"The {what} holds no section list"
  let sections ← values.mapM (decodeSection shown what allowedPageBytes)
  checkSections what payloadLength [] sections
  checkOverlaps what (sections.mergeSort fun left right => decide (left.offset ≤ right.offset))
  return sections

def SEGMENT_PAGE_SIZES : List Nat := [SEGMENT_PAGE_BYTES]

/-- An integer that is not below zero, however large. -/
def wholeNumber : Option Decoded → Option Nat
  | some (.number (.integer value)) => if 0 ≤ value then some value.toNat else none
  | _ => none

def decodePagedSegmentHead (codec : ValueCodec) (head : Bytes) (payloadLength : Nat) (what : String) :
    Except NarsilError PagedSegmentHead :=
  match codec.decode head with
  | .error message => .error (loadFailed s!"The head of {what} is not MessagePack: {message}")
  | .ok raw => do
    let entry ← holds (entriesOf raw) s!"The head of {what} is not a map"
    let layout := shown (entry.lookup "v")
    if byteCount (entry.lookup "v") ≠ some PAGED_SEGMENT_HEAD_VERSION then
      throw ⟨.envelopeVersionMismatch,
        s!"The head of {what} was written in layout {layout}, and this build reads layout {PAGED_SEGMENT_HEAD_VERSION} alone"⟩
    let schema ← holds (isStringRecord (entry.lookup "schema")) s!"The head of {what} holds no schema"
    let tombstones ← holds (isStringList (entry.lookup "tombstones")) s!"The head of {what} holds no tombstone list"
    let fieldNames ← holds (isStringList (entry.lookup "fieldNames")) s!"The head of {what} holds no field names"
    let documentCount ← holds (wholeNumber (entry.lookup "documentCount"))
      s!"The head of {what} holds an invalid document count"
    checked (decide (documentCount ≤ 0xffffffff)) s!"The head of {what} holds a document count above uint32"
    let sections ← decodeSections shown payloadLength s!"head of {what}" SEGMENT_PAGE_SIZES (entry.lookup "sections")
    return ⟨PAGED_SEGMENT_HEAD_VERSION, ⟨schema, tombstones, documentCount, fieldNames⟩, sections⟩

end Decode

def alignedUp (offset : Nat) : Nat :=
  let excess := offset % SECTION_ALIGNMENT_BYTES
  if excess = 0 then offset else offset + SECTION_ALIGNMENT_BYTES - excess

structure PlannedSection where
  name : SectionName
  length : Nat
  checksums : Bytes

structure EncodedSegmentHead where
  head : Bytes
  prefixBytes : Bytes
  sections : List FileSection
  payloadLength : Nat

def placeSections : List PlannedSection → Nat → List FileSection
  | [], _ => []
  | planned :: rest, cursor =>
    let offset := alignedUp cursor
    ⟨planned.name.text, offset, planned.length, SEGMENT_PAGE_BYTES, planned.checksums⟩ ::
      placeSections rest (offset + planned.length)

def countValue (value : Nat) : Decoded := .number (.integer value)

def sectionValue (placed : FileSection) : Decoded :=
  .object [("name", .string placed.name), ("offset", countValue placed.offset), ("length", countValue placed.length),
    ("pageBytes", countValue placed.pageBytes), ("checksums", .binary placed.checksums)]

def headValue (fields : HeadFields) (sections : List FileSection) : Decoded :=
  .object [("v", countValue PAGED_SEGMENT_HEAD_VERSION),
    ("schema", .object (fields.schema.map fun field => (field.1, .string field.2))),
    ("tombstones", .array (fields.tombstones.map .string)), ("documentCount", countValue fields.documentCount),
    ("fieldNames", .array (fields.fieldNames.map .string)), ("sections", .array (sections.map sectionValue))]

/-- `setUint32`, little-endian; more than it holds is cut off. -/
def uint32LE (value : Nat) : Bytes :=
  [value.toUInt8, (value / 2 ^ 8).toUInt8, (value / 2 ^ 16).toUInt8, (value / 2 ^ 24).toUInt8]

def payloadEnd (sectionsStart : Nat) (sections : List FileSection) : Nat :=
  match sections.getLast? with
  | none => sectionsStart
  | some last => last.offset + last.length

/-- The loop from a length of the head: nothing without fuel, and an error where the head cannot be encoded. -/
def headFrom (codec : ValueCodec) (fields : HeadFields) (planned : List PlannedSection) :
    Nat → Nat → Option (Option EncodedSegmentHead)
  | 0, _ => none
  | fuel + 1, headLength =>
    let sectionsStart := alignedUp (PAYLOAD_PREFIX_BYTES + headLength)
    let sections := placeSections planned sectionsStart
    match codec.encode (headValue fields sections) with
    | none => some none
    | some head =>
      if head.length ≠ headLength then headFrom codec fields planned fuel head.length
      else some (some ⟨head, uint32LE head.length ++ uint32LE (crc32 head), sections, payloadEnd sectionsStart sections⟩)

def encodePagedSegmentHead (codec : ValueCodec) (fields : HeadFields) (planned : List PlannedSection) (fuel : Nat) :
    Option (Option EncodedSegmentHead) := headFrom codec fields planned fuel 0

end Narsil.Paged
