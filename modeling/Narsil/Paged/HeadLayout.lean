import Narsil.Iteration.Climbing
import Narsil.Paged.HeadFormat

/-!
# Laying out a paged head

A longer head moves the sections up and never makes their places shorter to write, so the length
of the head climbs to one that gives itself.
-/
namespace Narsil.Paged

open Serialization

section Places
variable {offset less more start : Nat} {planned : List PlannedSection}

theorem alignedUp_aligned (offset : Nat) : alignedUp offset % SECTION_ALIGNMENT_BYTES = 0 := by
  simp only [alignedUp, SECTION_ALIGNMENT_BYTES]
  split <;> omega

theorem alignedUp_le (offset : Nat) : offset ≤ alignedUp offset := by
  simp only [alignedUp, SECTION_ALIGNMENT_BYTES]
  split <;> omega

theorem alignedUp_mono (grows : less ≤ more) : alignedUp less ≤ alignedUp more := by
  simp only [alignedUp, SECTION_ALIGNMENT_BYTES]
  split <;> split <;> omega

theorem placeSections_length (planned : List PlannedSection) (start : Nat) :
    (placeSections planned start).length = planned.length := by
  induction planned generalizing start with
  | nil => rfl
  | cons first rest ih => rw [placeSections, List.length_cons, List.length_cons, ih]

theorem placeSections_kept (planned : List PlannedSection) (start : Nat) :
    (placeSections planned start).map (fun placed => (placed.name, placed.length, placed.checksums)) =
      planned.map fun section_ => (section_.name.text, section_.length, section_.checksums) := by
  induction planned generalizing start with
  | nil => rfl
  | cons first rest ih => rw [placeSections, List.map_cons, List.map_cons, ih]

theorem placeSections_aligned : ∀ placed ∈ placeSections planned start,
    placed.offset % SECTION_ALIGNMENT_BYTES = 0 ∧ placed.pageBytes = SEGMENT_PAGE_BYTES := by
  induction planned generalizing start with
  | nil => exact fun placed member => (List.not_mem_nil member).elim
  | cons first rest ih => exact List.forall_mem_cons.mpr ⟨⟨alignedUp_aligned _, rfl⟩, ih⟩

theorem placeSections_follow : ∀ placed ∈ placeSections planned start, start ≤ placed.offset := by
  induction planned generalizing start with
  | nil => exact fun placed member => (List.not_mem_nil member).elim
  | cons first rest ih =>
    have up := alignedUp_le start
    refine List.forall_mem_cons.mpr ⟨up, fun placed member => ?_⟩
    have behind := ih placed member
    omega

theorem placeSections_apart : (placeSections planned start).Pairwise fun before after =>
    before.offset + before.length ≤ after.offset := by
  induction planned generalizing start with
  | nil => exact List.Pairwise.nil
  | cons first rest ih => exact List.pairwise_cons.mpr ⟨placeSections_follow, ih⟩

theorem placeSections_within : (∀ placed ∈ placeSections planned start,
    placed.offset + placed.length ≤ payloadEnd start (placeSections planned start)) ∧
      start ≤ payloadEnd start (placeSections planned start) := by
  induction planned generalizing start with
  | nil => exact ⟨fun placed member => (List.not_mem_nil member).elim, Nat.le_refl _⟩
  | cons first rest ih =>
    have up := alignedUp_le start
    obtain ⟨within, later⟩ := @ih (alignedUp start + first.length)
    have same : payloadEnd start (placeSections (first :: rest) start) =
        payloadEnd (alignedUp start + first.length) (placeSections rest (alignedUp start + first.length)) := by
      rw [placeSections, payloadEnd, payloadEnd, List.getLast?_cons]
      cases (placeSections rest (alignedUp start + first.length)).getLast? <;> rfl
    rw [same]
    refine ⟨List.forall_mem_cons.mpr ⟨later, within⟩, ?_⟩
    omega

end Places

section Lengths
variable {codec : ValueCodec} {fields : HeadFields} {planned : List PlannedSection} {less more : Nat}

theorem sections_longer (grows : less ≤ more) : List.Forall₂ (codec.Longer (9 * 5))
    ((placeSections planned less).map sectionValue) ((placeSections planned more).map sectionValue) := by
  induction planned generalizing less more with
  | nil => exact .nil
  | cons first rest ih =>
    have up := alignedUp_mono grows
    refine .cons (ValueCodec.Longer.object (.cons ⟨rfl, .same _⟩ (.cons ⟨rfl, .count up⟩ (.cons ⟨rfl, .same _⟩
      (.cons ⟨rfl, .same _⟩ (.cons ⟨rfl, .same _⟩ .nil))))) ) (ih ?_)
    omega

theorem head_longer (grows : less ≤ more) : codec.Longer (9 * 5 * planned.length * 6)
    (headValue fields (placeSections planned less)) (headValue fields (placeSections planned more)) := by
  have sections := ValueCodec.Longer.array (@sections_longer codec planned less more grows)
  rw [List.length_map, placeSections_length] at sections
  exact ValueCodec.Longer.object (.cons ⟨rfl, .same _⟩ (.cons ⟨rfl, .same _⟩ (.cons ⟨rfl, .same _⟩
    (.cons ⟨rfl, .same _⟩ (.cons ⟨rfl, .same _⟩ (.cons ⟨rfl, sections⟩ .nil))))))

def headAt (fields : HeadFields) (planned : List PlannedSection) (headLength : Nat) : Decoded :=
  headValue fields (placeSections planned (alignedUp (PAYLOAD_PREFIX_BYTES + headLength)))

def lengthAt (codec : ValueCodec) (fields : HeadFields) (planned : List PlannedSection) (headLength : Nat) : Nat :=
  ((codec.encode (headAt fields planned headLength)).map List.length).getD 0

/-- What the loop ends with. -/
def encodedAt (codec : ValueCodec) (fields : HeadFields) (planned : List PlannedSection) (headLength : Nat) :
    Option EncodedSegmentHead :=
  (codec.encode (headAt fields planned headLength)).map fun head =>
    let sectionsStart := alignedUp (PAYLOAD_PREFIX_BYTES + headLength)
    let sections := placeSections planned sectionsStart
    ⟨head, uint32LE head.length ++ uint32LE (crc32 head), sections, payloadEnd sectionsStart sections⟩

theorem headAt_longer (grows : less ≤ more) : codec.Longer (9 * 5 * planned.length * 6)
    (headAt fields planned less) (headAt fields planned more) := by
  apply head_longer
  apply alignedUp_mono
  omega

section Encodable
variable {head : Bytes} (encodable : codec.encode (headAt fields planned 0) = some head)
include encodable

theorem encodes_at (headLength : Nat) : ∃ bytes, codec.encode (headAt fields planned headLength) = some bytes ∧
    lengthAt codec fields planned headLength = bytes.length ∧ bytes.length ≤ head.length + 9 * 5 * planned.length * 6 := by
  obtain ⟨bytes, found, -, most⟩ := headAt_longer (Nat.zero_le headLength) head encodable
  exact ⟨bytes, found, by rw [lengthAt, found]; rfl, most⟩

theorem lengthAt_mono (grows : less ≤ more) : lengthAt codec fields planned less ≤ lengthAt codec fields planned more := by
  obtain ⟨bytes, found, length, -⟩ := encodes_at encodable less
  obtain ⟨longer, other, least, -⟩ := headAt_longer grows bytes found
  rw [length, lengthAt, other]
  exact least

theorem lengthAt_bound (headLength : Nat) :
    lengthAt codec fields planned headLength ≤ head.length + 9 * 5 * planned.length * 6 := by
  obtain ⟨bytes, -, length, most⟩ := encodes_at encodable headLength
  rwa [length]

theorem headFrom_eq (fuel headLength : Nat) : headFrom codec fields planned fuel headLength =
    (Climbing.settleFrom (lengthAt codec fields planned) fuel headLength).map (encodedAt codec fields planned) := by
  induction fuel generalizing headLength with
  | zero => rfl
  | succ fuel ih =>
    obtain ⟨bytes, found, length, -⟩ := encodes_at encodable headLength
    have here : codec.encode (headValue fields
        (placeSections planned (alignedUp (PAYLOAD_PREFIX_BYTES + headLength)))) = some bytes := found
    rw [headFrom, Climbing.settleFrom, length]
    simp only [here]
    by_cases same : bytes.length = headLength
    · rw [if_neg (not_not.mpr same), if_pos same, Option.map_some, encodedAt, found]
      rfl
    · rw [if_pos same, if_neg same, ih]

end Encodable
end Lengths

end Narsil.Paged
