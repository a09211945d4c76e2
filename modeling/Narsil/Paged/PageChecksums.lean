import Narsil.Paged.HeadFormat
import Narsil.Serialization.Crc32Combine

/-!
# Checksums of pages

A section of a paged file has a checksum for each page, one after the other. Together they make
that of the whole section, and one by one they tell a damaged page.
-/
namespace Narsil.Paged

open Serialization

/-- The bytes of a page, fewer on the last one. -/
def pageOf (bytes : Bytes) (pageBytes page : Nat) : Bytes := (bytes.drop (page * pageBytes)).take pageBytes

def pageChecksums (bytes : Bytes) (pageBytes : Nat) : Bytes :=
  ((List.range (pageCountOf bytes.length pageBytes)).map fun page => crc32 (pageOf bytes pageBytes page)).flatMap
    uint32LE

/-- The bits of the four bytes do not overlap, so joining them is adding them. -/
def uint32At (bytes : Bytes) (offset : Nat) : Nat :=
  (bytes.getD offset 0).toNat + (bytes.getD (offset + 1) 0).toNat * 2 ^ 8 + (bytes.getD (offset + 2) 0).toNat * 2 ^ 16 +
    (bytes.getD (offset + 3) 0).toNat * 2 ^ 24

def checksumOfPage (section_ : FileSection) (page : Nat) : Nat := uint32At section_.checksums (page * 4)

theorem uint32At_flatMap {values : List Nat} {place value : Nat} (here : values[place]? = some value)
    (small : value < 2 ^ 32) : uint32At (values.flatMap uint32LE) (place * 4) = value := by
  induction values generalizing place with
  | nil => cases here
  | cons first rest ih =>
    cases place with
    | zero =>
      cases here
      simp only [uint32At, List.flatMap_cons, uint32LE, Nat.zero_mul, Nat.zero_add, List.cons_append, List.nil_append,
        List.getD_cons_zero, List.getD_cons_succ, UInt8.toNat_ofNat']
      omega
    | succ place =>
      rw [← ih here, Nat.succ_mul]
      rfl

theorem mem_pages {byteLength pageBytes page : Nat} (positive : 0 < pageBytes) :
    page < pageCountOf byteLength pageBytes ↔ page * pageBytes < byteLength := by
  rw [pageCountOf, Nat.lt_div_iff_mul_lt positive]
  omega

theorem pageValue {bytes : Bytes} {pageBytes page : Nat} (positive : 0 < pageBytes)
    (inside : page * pageBytes < bytes.length) :
    uint32At (pageChecksums bytes pageBytes) (page * 4) = crc32 (pageOf bytes pageBytes page) := by
  refine uint32At_flatMap ?_ (crc32_lt _)
  rw [List.getElem?_map, List.getElem?_range ((mem_pages positive).mpr inside)]
  rfl

/-- The checksums are as many bytes as the head of a file asks of the section. -/
theorem pageChecksums_length (bytes : Bytes) (pageBytes : Nat) :
    (pageChecksums bytes pageBytes).length = pageCountOf bytes.length pageBytes * 4 := by
  have four (values : List Nat) : (values.flatMap uint32LE).length = values.length * 4 := by
    induction values with
    | nil => rfl
    | cons first rest ih =>
      rw [List.flatMap_cons, List.length_append, ih, List.length_cons, Nat.succ_mul, Nat.add_comm]
      rfl
  rw [pageChecksums, four, List.length_map, List.length_range]

/-- The loop over the pages still to come. -/
def acrossFrom (checksums : Bytes) (byteLength pageBytes : Nat) :
    List Nat → Nat × List Operator → Nat × List Operator
  | [], whole => whole
  | page :: rest, (whole, operators) => acrossFrom checksums byteLength pageBytes rest
      (crc32Combine operators whole (uint32At checksums (page * 4)) (min pageBytes (byteLength - page * pageBytes)))

def checksumAcrossPages (operators : List Operator) (checksums : Bytes) (byteLength pageBytes : Nat) :
    Nat × List Operator :=
  acrossFrom checksums byteLength pageBytes (List.range ((checksums.length + 3) / 4)) (0, operators)

theorem acrossFrom_spec {bytes : Bytes} {pageBytes count page : Nat} {operators : List Operator}
    (positive : 0 < pageBytes) (powers : Powers operators)
    (inside : page + count ≤ pageCountOf bytes.length pageBytes) :
    (acrossFrom (pageChecksums bytes pageBytes) bytes.length pageBytes (List.range' page count)
      (crc32 (bytes.take (page * pageBytes)), operators)).1 = crc32 (bytes.take ((page + count) * pageBytes)) := by
  induction count generalizing page operators with
  | zero => rfl
  | succ count ih =>
    have here : page * pageBytes < bytes.length := (mem_pages positive).mp (by omega)
    have length : min pageBytes (bytes.length - page * pageBytes) = (pageOf bytes pageBytes page).length := by
      rw [pageOf, List.length_take, List.length_drop]
    have joined : bytes.take (page * pageBytes) ++ pageOf bytes pageBytes page =
        bytes.take ((page + 1) * pageBytes) := by
      rw [pageOf, Nat.succ_mul, List.take_add]
    have combined := crc32Combine_spec powers (bytes.take (page * pageBytes)) (pageOf bytes pageBytes page)
    have kept := (combineFrom_spec operators (UInt32.ofNat (crc32 (bytes.take (page * pageBytes))))
      (pageOf bytes pageBytes page).length 0 powers).2
    rw [List.range'_succ, acrossFrom, pageValue positive here, length]
    rw [joined] at combined
    have next := @ih (page + 1) _ kept (by omega)
    rw [← combined, Nat.add_right_comm] at next
    exact next

/-- The checksums of the pages make that of all the bytes, whatever was combined before. -/
theorem checksumAcrossPages_whole (calls : List (Nat × Nat × Nat)) (bytes : Bytes) (pageBytes : Nat)
    (positive : 0 < pageBytes) : (checksumAcrossPages (operatorsAfter [] calls) (pageChecksums bytes pageBytes)
      bytes.length pageBytes).1 = crc32 bytes := by
  have powers : Powers (operatorsAfter [] calls) := operatorsAfter_powers calls fun _ _ here => by cases here
  have length : ((pageChecksums bytes pageBytes).length + 3) / 4 = pageCountOf bytes.length pageBytes := by
    rw [pageChecksums_length]
    omega
  have whole : bytes.length ≤ pageCountOf bytes.length pageBytes * pageBytes := by
    by_contra more
    exact Nat.lt_irrefl _ ((mem_pages positive).mpr (Nat.lt_of_not_le more))
  have nothing : crc32 [] = 0 := by decide
  have run := @acrossFrom_spec bytes pageBytes (pageCountOf bytes.length pageBytes) 0 _ positive powers (by omega)
  rw [Nat.zero_add, List.take_of_length_le whole, Nat.zero_mul, List.take_zero, nothing] at run
  rw [checksumAcrossPages, length, List.range_eq_range']
  exact run

/-- Three pages, the last of one byte. -/
theorem checksumAcrossPages_whole_three :
    (checksumAcrossPages (operatorsAfter [] [(7, 5, 3)]) (pageChecksums [1, 2, 3, 4, 5] 2) 5 2).1 =
      crc32 [1, 2, 3, 4, 5] :=
  checksumAcrossPages_whole [(7, 5, 3)] [1, 2, 3, 4, 5] 2 (by decide)

abbrev HEADER_SIZE : Nat := 32

inductive SectionFault
  | unreadable (offset : Nat)
  | pageMismatch (page : Nat)
  deriving DecidableEq

def SectionFault.message (path : String) (section_ : FileSection) : SectionFault → String
  | .unreadable offset => "The file \"" ++ path ++ "\" cannot be read at byte " ++ toString offset
  | .pageMismatch page => "Page " ++ toString page ++ " of section \"" ++ section_.name ++ "\" of the file \"" ++
      path ++ "\" does not match its checksum"

/-- The disk has nothing where the file is gone. -/
def readFileRange (disk : Option Bytes) (offset length : Nat) : Except SectionFault Bytes :=
  match disk with
  | none => .error (.unreadable offset)
  | some bytes =>
    if length = 0 ∨ offset + length ≤ bytes.length then .ok ((bytes.drop offset).take length)
    else .error (.unreadable offset)

def requirePageChecksum (section_ : FileSection) (page : Nat) (bytes : Bytes) : Except SectionFault Unit :=
  if crc32 bytes = checksumOfPage section_ page then .ok () else .error (.pageMismatch page)

/-- The loop of `readWholeSectionChecked` over the pages still to come. -/
def checkPages (section_ : FileSection) (target : Bytes) : List Nat → Except SectionFault Unit
  | [] => .ok ()
  | page :: rest => do
    requirePageChecksum section_ page (pageOf target section_.pageBytes page)
    checkPages section_ target rest

def readWholeSectionChecked (disk : Option Bytes) (section_ : FileSection) : Except SectionFault Bytes := do
  let target ←
    if section_.length > 0 then readFileRange disk (HEADER_SIZE + section_.offset) section_.length else .ok []
  checkPages section_ target (List.range (pageCountOf section_.length section_.pageBytes))
  return target

/-- A section as it is laid for these bytes. -/
structure WrittenSection (section_ : FileSection) (contents : Bytes) : Prop where
  positive : 0 < section_.pageBytes
  length : section_.length = contents.length
  written : section_.checksums = pageChecksums contents section_.pageBytes

theorem checkPages_ok {section_ : FileSection} {target : Bytes} {pages : List Nat} :
    checkPages section_ target pages = .ok () ↔
      ∀ page ∈ pages, crc32 (pageOf target section_.pageBytes page) = checksumOfPage section_ page := by
  induction pages with
  | nil => exact ⟨fun _ page here => absurd here List.not_mem_nil, fun _ => rfl⟩
  | cons page rest ih =>
    rw [List.forall_mem_cons, ← ih, checkPages, requirePageChecksum]
    split
    · next equal => exact ⟨fun later => ⟨equal, later⟩, fun both => both.2⟩
    · next other => exact ⟨fun failed => (by cases failed), fun both => absurd both.1 other⟩

theorem readFileRange_length {disk : Option Bytes} {offset length : Nat} {found : Bytes} (positive : 0 < length)
    (read : readFileRange disk offset length = .ok found) : found.length = length := by
  cases disk with
  | none => cases read
  | some bytes =>
    rw [readFileRange] at read
    split at read
    · cases read
      rw [List.length_take, List.length_drop]
      omega
    · cases read

/-- Bytes are known from their pages. -/
theorem eq_of_pages {bytes others : Bytes} {pageBytes : Nat} (positive : 0 < pageBytes)
    (length : bytes.length = others.length)
    (same : ∀ page, page * pageBytes < bytes.length → pageOf bytes pageBytes page = pageOf others pageBytes page) :
    bytes = others := by
  have byte (list : Bytes) (i : Nat) : (pageOf list pageBytes (i / pageBytes))[i % pageBytes]? = list[i]? := by
    rw [pageOf, List.getElem?_take, if_pos (Nat.mod_lt i positive), List.getElem?_drop, Nat.mul_comm, Nat.div_add_mod]
  apply List.ext_getElem?
  intro i
  by_cases inside : i < bytes.length
  · rw [← byte, ← byte others, same _ (Nat.lt_of_le_of_lt (Nat.div_mul_le_self i pageBytes) inside)]
  · rw [List.getElem?_eq_none (by omega), List.getElem?_eq_none (by omega)]

/-- On a disk with at most one damaged run in each page, a section that is read whole is the one
written, and it is refused only where it is damaged or cannot be read. -/
theorem readWholeSectionChecked_reads {section_ : FileSection} {contents : Bytes}
    (laid : WrittenSection section_ contents) (disk : Option Bytes)
    (served : ∀ found, readFileRange disk (HEADER_SIZE + section_.offset) section_.length = .ok found →
      ∀ page, page * section_.pageBytes < section_.length →
        Damaged (pageOf contents section_.pageBytes page) (pageOf found section_.pageBytes page)) :
    readWholeSectionChecked disk section_ = .ok contents ∨
      readFileRange disk (HEADER_SIZE + section_.offset) section_.length ≠ .ok contents ∧
        ∃ fault, readWholeSectionChecked disk section_ = .error fault := by
  have length := laid.length
  have checksums : ∀ page ∈ List.range (pageCountOf section_.length section_.pageBytes),
      page * section_.pageBytes < contents.length ∧
        checksumOfPage section_ page = crc32 (pageOf contents section_.pageBytes page) := fun page here => by
    have inside := (mem_pages laid.positive).mp (List.mem_range.mp here)
    rw [length] at inside
    rw [checksumOfPage, laid.written]
    exact ⟨inside, pageValue laid.positive inside⟩
  have intact : checkPages section_ contents (List.range (pageCountOf section_.length section_.pageBytes)) = .ok () :=
    checkPages_ok.mpr fun page here => (checksums page here).2.symm
  rw [readWholeSectionChecked]
  by_cases some_bytes : section_.length > 0
  · rw [if_pos some_bytes]
    cases found : readFileRange disk (HEADER_SIZE + section_.offset) section_.length with
    | error fault => exact Or.inr ⟨fun same => (by cases same), fault, rfl⟩
    | ok target =>
      cases checked : checkPages section_ target (List.range (pageCountOf section_.length section_.pageBytes)) with
      | error fault =>
        refine Or.inr ⟨fun same => ?_, fault, by simp only [checked, bind, Except.bind]⟩
        cases same
        rw [intact] at checked
        cases checked
      | ok done =>
        -- Every page that passes is the one written, so the bytes are.
        have target_length := readFileRange_length some_bytes found
        have same : target = contents := by
          refine eq_of_pages laid.positive (target_length.trans length) fun page inside => ?_
          rw [target_length] at inside
          have here := List.mem_range.mpr ((mem_pages laid.positive).mpr inside)
          have equal := (checkPages_ok.mp checked page here).trans (checksums page here).2
          exact (served target found page inside).same equal
        exact Or.inl (by simp only [same, intact, bind, Except.bind, pure, Except.pure])
  · have nothing : contents = [] := List.length_eq_zero_iff.mp (by omega)
    rw [nothing] at intact ⊢
    rw [if_neg some_bytes]
    exact Or.inl (by simp only [intact, bind, Except.bind, pure, Except.pure])

/-- The second byte of the only page is another. -/
theorem readWholeSectionChecked_reads_damaged :
    readWholeSectionChecked (some (List.replicate 32 0 ++ [1, 9])) ⟨"ids", 0, 2, 2, pageChecksums [1, 2] 2⟩ =
        .ok [1, 2] ∨
      readFileRange (some (List.replicate 32 0 ++ [1, 9])) 32 2 ≠ .ok [1, 2] ∧ ∃ fault,
        readWholeSectionChecked (some (List.replicate 32 0 ++ [1, 9])) ⟨"ids", 0, 2, 2, pageChecksums [1, 2] 2⟩ =
          .error fault := by
  refine @readWholeSectionChecked_reads _ [1, 2] ⟨by decide, rfl, rfl⟩ _ fun found read page inside => ?_
  obtain rfl : page = 0 := by dsimp only at inside; omega
  cases read
  exact ⟨[1], [2], [9], [], rfl, rfl, rfl, by decide⟩

end Narsil.Paged
