import Narsil.Paged.HeadLayout
import Narsil.Serialization.ValueForms

/-!
# Reading a paged head back
-/
namespace Narsil.Paged

open Serialization

section Accepted
variable {shown : Option Decoded → String} {what : String} {payloadLength : Nat}

theorem bind_ok {ε α β : Type} {made : Except ε α} {next : α → Except ε β} {result : β} :
    (made >>= next) = .ok result ↔ ∃ value, made = .ok value ∧ next value = .ok result := by
  cases made with
  | error thrown => exact ⟨nofun, fun ⟨_, same, _⟩ => nomatch same⟩
  | ok value => exact ⟨fun same => ⟨value, rfl, same⟩, fun ⟨_, same, result⟩ => Except.ok.inj same ▸ result⟩

@[simp] theorem checked_ok {test : Bool} {message : String} {result : Unit} :
    checked test message = .ok result ↔ test = true := by
  cases test with
  | false => exact ⟨nofun, nofun⟩
  | true => simp [checked]

def Sized (placed : FileSection) : Prop :=
  placed.checksums.length = pageCountOf placed.length placed.pageBytes * 4

theorem decodeSection_sized {allowed : List Nat} {raw : Decoded} {placed : FileSection}
    (decodes : decodeSection shown what allowed raw = .ok placed) : Sized placed := by
  simp only [decodeSection, bind_ok, checked_ok, decide_eq_true_eq] at decodes
  obtain ⟨-, -, name, -, offset, -, length, -, pageBytes, -, checksums, -, -, sized, same⟩ := decodes
  cases same
  exact sized

theorem mapM_sized {allowed : List Nat} {values : List Decoded} {sections : List FileSection}
    (decodes : values.mapM (decodeSection shown what allowed) = .ok sections) : ∀ placed ∈ sections, Sized placed := by
  induction values generalizing sections with
  | nil =>
    cases decodes
    exact fun placed member => (List.not_mem_nil member).elim
  | cons value values ih =>
    simp only [List.mapM_cons, bind_ok] at decodes
    obtain ⟨placed, first, rest, later, same⟩ := decodes
    cases same
    exact List.forall_mem_cons.mpr ⟨decodeSection_sized first, ih later⟩

theorem checkSections_ok {names : List String} {sections : List FileSection} {result : Unit} :
    checkSections what payloadLength names sections = .ok result ↔
      (sections.map FileSection.name).Nodup ∧
        ∀ placed ∈ sections, placed.name ∉ names ∧ placed.offset + placed.length ≤ payloadLength := by
  induction sections generalizing names with
  | nil => simp [checkSections]
  | cons first rest ih =>
    rw [List.forall_mem_cons, List.map_cons, List.nodup_cons]
    simp only [checkSections, bind_ok, checked_ok, ih, Bool.not_eq_true', List.contains_eq_mem, decide_eq_false_iff_not,
      decide_eq_true_eq, List.mem_cons, List.mem_map, not_or, not_exists, not_and]
    constructor
    · rintro ⟨-, new, -, within, distinct, others⟩
      exact ⟨⟨fun placed member same => (others placed member).1.1 same, distinct⟩, ⟨new, within⟩,
        fun placed member => ⟨(others placed member).1.2, (others placed member).2⟩⟩
    · rintro ⟨⟨apart, distinct⟩, ⟨new, within⟩, others⟩
      exact ⟨(), new, (), within, distinct, fun placed member =>
        ⟨⟨apart placed member, (others placed member).1⟩, (others placed member).2⟩⟩

theorem checkOverlaps_apart {sections : List FileSection}
    (apart : sections.Pairwise fun before after => before.offset + before.length ≤ after.offset) :
    checkOverlaps what sections = .ok () := by
  induction sections with
  | nil => rfl
  | cons before rest ih =>
    cases rest with
    | nil => rfl
    | cons after rest =>
      obtain ⟨first, others⟩ := List.pairwise_cons.mp apart
      rw [checkOverlaps, checked, decide_eq_true (first after List.mem_cons_self)]
      exact ih others

theorem decodeSections_accepts {allowed : List Nat} {raw : Option Decoded} {sections : List FileSection}
    (decodes : decodeSections shown payloadLength what allowed raw = .ok sections) :
    (sections.map FileSection.name).Nodup ∧ ∀ placed ∈ sections, Sized placed := by
  obtain ⟨values, -, decodes⟩ := bind_ok.mp decodes
  obtain ⟨placed, all, decodes⟩ := bind_ok.mp decodes
  obtain ⟨_, checks, decodes⟩ := bind_ok.mp decodes
  obtain ⟨-, -, same⟩ := bind_ok.mp decodes
  cases same
  exact ⟨(checkSections_ok.mp checks).1, mapM_sized all⟩

/-- A head that is read names each section once, with the checksums of its pages, and counts its documents in 32 bits. -/
theorem decodePagedSegmentHead_accepts {codec : ValueCodec} {head : Bytes} {read : PagedSegmentHead}
    (decodes : decodePagedSegmentHead shown codec head payloadLength what = .ok read) :
    (read.sections.map FileSection.name).Nodup ∧ (∀ placed ∈ read.sections, Sized placed) ∧
      read.fields.documentCount ≤ 0xffffffff := by
  rw [decodePagedSegmentHead] at decodes
  split at decodes
  · cases decodes
  · obtain ⟨entry, -, decodes⟩ := bind_ok.mp decodes
    simp only at decodes
    split at decodes
    · obtain ⟨_, thrown, -⟩ := bind_ok.mp decodes
      cases thrown
    · obtain ⟨schema, -, decodes⟩ := bind_ok.mp decodes
      obtain ⟨tombstones, -, decodes⟩ := bind_ok.mp decodes
      obtain ⟨fieldNames, -, decodes⟩ := bind_ok.mp decodes
      obtain ⟨documentCount, -, decodes⟩ := bind_ok.mp decodes
      obtain ⟨_, bounded, decodes⟩ := bind_ok.mp decodes
      obtain ⟨sections, read_sections, same⟩ := bind_ok.mp decodes
      cases same
      obtain ⟨distinct, sized⟩ := decodeSections_accepts read_sections
      exact ⟨distinct, sized, of_decide_eq_true (checked_ok.mp bounded)⟩

end Accepted

section Written
variable {shown : Option Decoded → String} {what : String} {fields : HeadFields} {sections : List FileSection}

theorem byteCount_count {value : Nat} (safe : value ≤ maxSafeInteger) : byteCount (some (countValue value)) = some value := by
  have within : (0 : Int) ≤ value ∧ (value : Int) ≤ maxSafeInteger := ⟨by omega, by omega⟩
  simp only [byteCount, countValue, Decoded.asNumber, Option.bind_some, Number.safe]
  rw [if_pos within, Int.toNat_natCast]

theorem isStringList_texts (texts : List String) : isStringList (some (.array (texts.map .string))) = some texts := by
  simp only [isStringList]
  induction texts with
  | nil => rfl
  | cons text texts ih =>
    rw [List.map_cons, List.mapM_cons, ih]
    rfl

theorem isStringRecord_texts (record : List (String × String)) :
    isStringRecord (some (.object (record.map fun field => (field.1, .string field.2)))) = some record := by
  simp only [isStringRecord]
  induction record with
  | nil => rfl
  | cons field record ih =>
    rw [List.map_cons, List.mapM_cons, ih]
    rfl

/-- A section that a head of a payload may list. -/
structure Listable (placed : FileSection) : Prop where
  named : placed.name ≠ ""
  offset_safe : placed.offset ≤ maxSafeInteger
  length_safe : placed.length ≤ maxSafeInteger
  page : placed.pageBytes = SEGMENT_PAGE_BYTES
  sized : Sized placed

theorem decodeSection_written {placed : FileSection} (listable : Listable placed) :
    decodeSection shown what SEGMENT_PAGE_SIZES (sectionValue placed) = .ok placed := by
  obtain ⟨name, offset, length, pageBytes, checksums⟩ := placed
  obtain ⟨named, offset_safe, length_safe, page, sized⟩ := listable
  simp only [Sized] at named offset_safe length_safe page sized
  subst page
  have name_found : (Decoded.asString (some (Decoded.string name))).filter (· ≠ "") = some name := by
    simp [Decoded.asString, named]
  have page_found : pageSize SEGMENT_PAGE_SIZES (some (countValue SEGMENT_PAGE_BYTES)) = some SEGMENT_PAGE_BYTES := by
    rw [pageSize, byteCount_count (by decide)]
    rfl
  have lookups : List.lookup "name" [("name", Decoded.string name), ("offset", countValue offset),
        ("length", countValue length), ("pageBytes", countValue SEGMENT_PAGE_BYTES), ("checksums", .binary checksums)] =
          some (.string name) ∧
      List.lookup "offset" [("name", Decoded.string name), ("offset", countValue offset),
        ("length", countValue length), ("pageBytes", countValue SEGMENT_PAGE_BYTES), ("checksums", .binary checksums)] =
          some (countValue offset) ∧
      List.lookup "length" [("name", Decoded.string name), ("offset", countValue offset),
        ("length", countValue length), ("pageBytes", countValue SEGMENT_PAGE_BYTES), ("checksums", .binary checksums)] =
          some (countValue length) ∧
      List.lookup "pageBytes" [("name", Decoded.string name), ("offset", countValue offset),
        ("length", countValue length), ("pageBytes", countValue SEGMENT_PAGE_BYTES), ("checksums", .binary checksums)] =
          some (countValue SEGMENT_PAGE_BYTES) ∧
      List.lookup "checksums" [("name", Decoded.string name), ("offset", countValue offset),
        ("length", countValue length), ("pageBytes", countValue SEGMENT_PAGE_BYTES), ("checksums", .binary checksums)] =
          some (.binary checksums) := by
    simp [List.lookup_cons]
  obtain ⟨isName, isOffset, isLength, isPage, isChecksums⟩ := lookups
  simp only [decodeSection, sectionValue, entriesOf, isName, isOffset, isLength, isPage, isChecksums, name_found,
    byteCount_count offset_safe, byteCount_count length_safe, page_found, Decoded.asBinary, sized, holds, bind, Except.bind,
    checked, decide_true, if_true]
  rfl

theorem decodeSections_written {payloadLength : Nat} (listable : ∀ placed ∈ sections, Listable placed)
    (distinct : (sections.map FileSection.name).Nodup)
    (apart : sections.Pairwise fun before after => before.offset + before.length ≤ after.offset)
    (within : ∀ placed ∈ sections, placed.offset + placed.length ≤ payloadLength) :
    decodeSections shown payloadLength what SEGMENT_PAGE_SIZES (some (.array (sections.map sectionValue))) =
      .ok sections := by
  have all : (sections.map sectionValue).mapM (decodeSection shown what SEGMENT_PAGE_SIZES) = .ok sections := by
    clear distinct apart within
    induction sections with
    | nil => rfl
    | cons placed rest ih =>
      obtain ⟨first, others⟩ := List.forall_mem_cons.mp listable
      rw [List.map_cons, List.mapM_cons, decodeSection_written first, ih others]
      rfl
  have checks : checkSections what payloadLength [] sections = .ok () :=
    checkSections_ok.mpr ⟨distinct, fun placed member => ⟨List.not_mem_nil, within placed member⟩⟩
  have sorted : sections.mergeSort (fun left right => decide (left.offset ≤ right.offset)) = sections := by
    refine List.mergeSort_of_pairwise (apart.imp fun {before after} ends => decide_eq_true ?_)
    omega
  simp only [decodeSections, holds, bind, Except.bind, all, checks, sorted, checkOverlaps_apart apart]
  rfl

theorem headValue_plain (valid : fields.Valid) (counted : fields.documentCount ≤ maxSafeInteger)
    (listable : ∀ placed ∈ sections, Listable placed) : (headValue fields sections).Plain := by
  have texts : ∀ texts : List String, (Decoded.array (texts.map .string)).Plain := by
    refine fun texts => .array fun value member => ?_
    obtain ⟨text, -, rfl⟩ := List.mem_map.mp member
    exact .string text
  have schema : (Decoded.object (fields.schema.map fun field => (field.1, .string field.2))).Plain := by
    have keys : (fields.schema.map fun field => (field.1, Decoded.string field.2)).map Prod.fst =
        fields.schema.map Prod.fst := by
      rw [List.map_map]
      rfl
    refine .object (keys ▸ valid.distinct) (keys ▸ valid.noPrototype) fun field member => ?_
    obtain ⟨entry, -, rfl⟩ := List.mem_map.mp member
    exact .string _
  have placed : ∀ value ∈ sections.map sectionValue, value.Plain := by
    intro value member
    obtain ⟨placed, inside, rfl⟩ := List.mem_map.mp member
    obtain ⟨-, offset_safe, length_safe, page, -⟩ := listable placed inside
    refine .object (by simp) (by simp) ?_
    rw [page]
    simp only [List.forall_mem_cons]
    exact ⟨.string _, .count offset_safe, .count length_safe, .count (by decide), .binary _, nofun⟩
  refine .object (by simp) (by simp) ?_
  simp only [List.forall_mem_cons]
  exact ⟨.count (by decide), schema, texts _, .count counted, texts _, .array placed, nofun⟩

theorem decodePagedSegmentHead_written {codec : ValueCodec} {head : Bytes} {payloadLength : Nat}
    (decodes : codec.decode head = .ok (headValue fields sections)) (counted : fields.documentCount ≤ 0xffffffff)
    (listable : ∀ placed ∈ sections, Listable placed) (distinct : (sections.map FileSection.name).Nodup)
    (apart : sections.Pairwise fun before after => before.offset + before.length ≤ after.offset)
    (within : ∀ placed ∈ sections, placed.offset + placed.length ≤ payloadLength) :
    decodePagedSegmentHead shown codec head payloadLength what = .ok ⟨PAGED_SEGMENT_HEAD_VERSION, fields, sections⟩ := by
  obtain ⟨schema, tombstones, documentCount, fieldNames⟩ := fields
  have lookups : ∀ schemaValue tombstonesValue countValue' namesValue sectionsValue : Decoded,
      let entry := [("v", countValue PAGED_SEGMENT_HEAD_VERSION), ("schema", schemaValue),
        ("tombstones", tombstonesValue), ("documentCount", countValue'), ("fieldNames", namesValue),
        ("sections", sectionsValue)]
      entry.lookup "v" = some (countValue PAGED_SEGMENT_HEAD_VERSION) ∧ entry.lookup "schema" = some schemaValue ∧
        entry.lookup "tombstones" = some tombstonesValue ∧ entry.lookup "documentCount" = some countValue' ∧
        entry.lookup "fieldNames" = some namesValue ∧ entry.lookup "sections" = some sectionsValue := by
    intro schemaValue tombstonesValue countValue' namesValue sectionsValue entry
    simp [entry, List.lookup_cons]
  obtain ⟨isVersion, isSchema, isTombstones, isCount, isNames, isSections⟩ := lookups
    (.object (schema.map fun field => (field.1, .string field.2))) (.array (tombstones.map .string))
    (countValue documentCount) (.array (fieldNames.map .string)) (.array (sections.map sectionValue))
  have counts : wholeNumber (some (countValue documentCount)) = some documentCount := by
    simp [wholeNumber, countValue]
  rw [decodePagedSegmentHead, decodes]
  simp only [headValue, entriesOf, isVersion, isSchema, isTombstones, isCount, isNames, isSections, holds, bind, Except.bind,
    isStringList_texts, isStringRecord_texts, counts, decodeSections_written listable distinct apart within, checked,
    decide_eq_true counted, if_true, @byteCount_count PAGED_SEGMENT_HEAD_VERSION (by decide), ne_eq,
    not_true_eq_false, if_false]
  rfl

end Written

/-- The head that is returned lists the planned sections behind it, aligned and one behind the other, in a payload
that ends with the last. -/
structure Laid (codec : ValueCodec) (fields : HeadFields) (planned : List PlannedSection) (encoded : EncodedSegmentHead) :
    Prop where
  reproduces : codec.encode (headAt fields planned encoded.head.length) = some encoded.head
  lists : headAt fields planned encoded.head.length = headValue fields encoded.sections
  asPlanned : encoded.sections.map (fun placed => (placed.name, placed.length, placed.checksums)) =
    planned.map fun section_ => (section_.name.text, section_.length, section_.checksums)
  aligned : ∀ placed ∈ encoded.sections,
    placed.offset % SECTION_ALIGNMENT_BYTES = 0 ∧ placed.pageBytes = SEGMENT_PAGE_BYTES
  follow : ∀ placed ∈ encoded.sections, PAYLOAD_PREFIX_BYTES + encoded.head.length ≤ placed.offset
  apart : encoded.sections.Pairwise fun before after => before.offset + before.length ≤ after.offset
  within : ∀ placed ∈ encoded.sections, placed.offset + placed.length ≤ encoded.payloadLength
  holdsHead : PAYLOAD_PREFIX_BYTES + encoded.head.length ≤ encoded.payloadLength
  prefixed : encoded.prefixBytes = uint32LE encoded.head.length ++ uint32LE (crc32 encoded.head)

/-- Each section planned once, with four bytes of checksum for each of its pages, and documents counted in 32 bits. -/
structure Readable (fields : HeadFields) (planned : List PlannedSection) : Prop where
  distinct : (planned.map fun section_ => section_.name.text).Nodup
  sized : ∀ section_ ∈ planned, section_.checksums.length = pageCountOf section_.length SEGMENT_PAGE_BYTES * 4
  counted : fields.documentCount ≤ 0xffffffff

section Layouts
variable {codec : ValueCodec} {fields : HeadFields} {planned : List PlannedSection} {encoded : EncodedSegmentHead}
  {shown : Option Decoded → String} {what : String}

theorem laid_of_fixed {fixed : Nat} (gives : lengthAt codec fields planned fixed = fixed)
    (found : encodedAt codec fields planned fixed = some encoded) : Laid codec fields planned encoded := by
  obtain ⟨head, encodes, rfl⟩ := Option.map_eq_some_iff.mp found
  have length : head.length = fixed := by
    rw [lengthAt, encodes] at gives
    exact gives
  subst length
  have start := alignedUp_le (PAYLOAD_PREFIX_BYTES + head.length)
  obtain ⟨within, ends⟩ := @placeSections_within (alignedUp (PAYLOAD_PREFIX_BYTES + head.length)) planned
  exact {
    reproduces := encodes
    lists := rfl
    asPlanned := placeSections_kept _ _
    aligned := placeSections_aligned
    follow := fun placed member => Nat.le_trans start (placeSections_follow placed member)
    apart := placeSections_apart
    within := within
    holdsHead := Nat.le_trans start ends
    prefixed := rfl }

theorem Laid.names (laid : Laid codec fields planned encoded) :
    encoded.sections.map FileSection.name = planned.map fun section_ => section_.name.text := by
  have same := congrArg (List.map Prod.fst) laid.asPlanned
  rwa [List.map_map, List.map_map] at same

theorem Laid.sized_iff (laid : Laid codec fields planned encoded) : (∀ placed ∈ encoded.sections, Sized placed) ↔
    ∀ section_ ∈ planned, section_.checksums.length = pageCountOf section_.length SEGMENT_PAGE_BYTES * 4 := by
  have inPlan : ∀ entry : String × Nat × Bytes,
      (∃ placed ∈ encoded.sections, (placed.name, placed.length, placed.checksums) = entry) ↔
        ∃ section_ ∈ planned, (section_.name.text, section_.length, section_.checksums) = entry := by
    intro entry
    rw [← List.mem_map, ← List.mem_map, laid.asPlanned]
  constructor
  · intro sized section_ member
    obtain ⟨placed, inside, same⟩ := (inPlan _).mpr ⟨section_, member, rfl⟩
    obtain ⟨-, length, checksums⟩ := by simpa only [Prod.mk.injEq] using same
    rw [← length, ← checksums, ← (laid.aligned placed inside).2]
    exact sized placed inside
  · intro sized placed inside
    obtain ⟨section_, member, same⟩ := (inPlan _).mp ⟨placed, inside, rfl⟩
    obtain ⟨-, length, checksums⟩ := by simpa only [Prod.mk.injEq] using same
    rw [Sized, ← length, ← checksums, (laid.aligned placed inside).2]
    exact sized section_ member

theorem text_ne_empty (name : SectionName) : name.text ≠ "" := by
  cases name <;> decide

theorem Laid.listable (laid : Laid codec fields planned encoded) (readable : Readable fields planned)
    (safe : encoded.payloadLength ≤ maxSafeInteger) : ∀ placed ∈ encoded.sections, Listable placed := by
  intro placed member
  have ends := laid.within placed member
  have named : placed.name ∈ planned.map fun section_ => section_.name.text :=
    laid.names ▸ List.mem_map_of_mem member
  obtain ⟨section_, -, same⟩ := List.mem_map.mp named
  exact ⟨same ▸ text_ne_empty _, by omega, by omega, (laid.aligned placed member).2,
    laid.sized_iff.mpr readable.sized placed member⟩

theorem Laid.reads_iff (laid : Laid codec fields planned encoded) (valid : fields.Valid)
    (safe : encoded.payloadLength ≤ maxSafeInteger) :
    decodePagedSegmentHead shown codec encoded.head encoded.payloadLength what =
      .ok ⟨PAGED_SEGMENT_HEAD_VERSION, fields, encoded.sections⟩ ↔ Readable fields planned := by
  constructor
  · intro reads
    obtain ⟨distinct, sized, counted⟩ := decodePagedSegmentHead_accepts reads
    exact ⟨laid.names ▸ distinct, laid.sized_iff.mp sized, counted⟩
  · intro readable
    have listable := laid.listable readable safe
    have counted : fields.documentCount ≤ maxSafeInteger := Nat.le_trans readable.counted (by decide)
    have decodes := codec.decode_encode (laid.lists ▸ headValue_plain valid counted listable) laid.reproduces
    exact decodePagedSegmentHead_written (laid.lists ▸ decodes) readable.counted listable
      (laid.names ▸ readable.distinct) laid.apart laid.within

theorem lays_out {head : Bytes} (encodable : codec.encode (headAt fields planned 0) = some head) :
    ∃ fuel encoded, (∀ more, fuel ≤ more → encodePagedSegmentHead codec fields planned more = some (some encoded)) ∧
      Laid codec fields planned encoded := by
  let bound := head.length + 9 * 5 * planned.length * 6
  obtain ⟨fixed, settled, gives⟩ := Climbing.settles (fun grows => lengthAt_mono encodable grows)
    (lengthAt_bound encodable) (Nat.zero_le _) (show bound - 0 < bound + 1 by omega)
  obtain ⟨bytes, encodes, -, -⟩ := encodes_at encodable fixed
  have found : ∃ encoded, encodedAt codec fields planned fixed = some encoded := by
    rw [encodedAt, encodes]
    exact ⟨_, rfl⟩
  obtain ⟨encoded, found⟩ := found
  refine ⟨bound + 1, encoded, fun more enough => ?_, laid_of_fixed gives found⟩
  rw [encodePagedSegmentHead, headFrom_eq encodable, Climbing.settleFrom_more settled enough, Option.map_some, found]

end Layouts

/-- The loop ends, with a head wherever the package can encode one, and what it returns is laid out as planned. The head
reads back as it is exactly where each section is planned once, with the checksums of its pages, and the documents are
counted in 32 bits. -/
theorem encodePagedSegmentHead_lays_out (codec : ValueCodec) (shown : Option Decoded → String) (what : String)
    (fields : HeadFields) (planned : List PlannedSection) :
    ∃ fuel answer, (∀ more, fuel ≤ more → encodePagedSegmentHead codec fields planned more = some answer) ∧
      (answer.isSome = (codec.encode (headAt fields planned 0)).isSome) ∧
      ∀ encoded, answer = some encoded → Laid codec fields planned encoded ∧
        (fields.Valid → encoded.payloadLength ≤ maxSafeInteger →
          (decodePagedSegmentHead shown codec encoded.head encoded.payloadLength what =
            .ok ⟨PAGED_SEGMENT_HEAD_VERSION, fields, encoded.sections⟩ ↔ Readable fields planned)) := by
  cases encodable : codec.encode (headAt fields planned 0) with
  | none =>
    refine ⟨1, none, fun more enough => ?_, rfl, nofun⟩
    obtain ⟨fuel, rfl⟩ := Nat.exists_eq_add_of_le' enough
    have here : codec.encode (headValue fields (placeSections planned (alignedUp (PAYLOAD_PREFIX_BYTES + 0)))) = none :=
      encodable
    rw [encodePagedSegmentHead, headFrom]
    simp only [here]
  | some head =>
    obtain ⟨fuel, encoded, found, laid⟩ := lays_out encodable
    refine ⟨fuel, some encoded, found, rfl, fun other same => ?_⟩
    cases same
    exact ⟨laid, laid.reads_iff⟩

/-- Two sections of one name are laid out, and the head that lists them is refused. -/
theorem repeatedSection_refused :
    ¬ ∀ (fields : HeadFields) (planned : List PlannedSection) (fuel : Nat) (encoded : EncodedSegmentHead),
      encodePagedSegmentHead shortestForms fields planned fuel = some (some encoded) →
        decodePagedSegmentHead (fun _ => "") shortestForms encoded.head encoded.payloadLength "the segment" =
          .ok ⟨PAGED_SEGMENT_HEAD_VERSION, fields, encoded.sections⟩ := by
  intro all
  have encodable : (shortestForms.encode (headAt ⟨[], [], 0, []⟩ [⟨.tokens, 0, []⟩, ⟨.tokens, 0, []⟩] 0)).isSome = true := by
    decide
  obtain ⟨head, encodable⟩ := Option.isSome_iff_exists.mp encodable
  obtain ⟨fuel, encoded, found, laid⟩ := lays_out encodable
  obtain ⟨distinct, -, -⟩ := decodePagedSegmentHead_accepts (all _ _ fuel encoded (found fuel (Nat.le_refl _)))
  rw [laid.names] at distinct
  revert distinct
  decide

end Narsil.Paged
