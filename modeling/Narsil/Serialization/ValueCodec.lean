import Narsil.Serialization.Decoded
import Mathlib.Data.List.Forall2

/-!
# The MessagePack package on decoded values

An array or an object is its head and what it holds, one behind the other; a longer number never
makes a value shorter.
-/
namespace Narsil.Serialization

/-- The lengths the format can state. -/
abbrev lengthLimit : Nat := 2 ^ 32

/-- Values that come back as they are: counts, texts, bytes, and lists and objects of such, an object
having each of its keys once and none of them the prototype's. -/
inductive Decoded.Plain : Decoded → Prop
  | count {value : Nat} (safe : value ≤ maxSafeInteger) : Plain (.number (.integer value))
  | string (text : String) : Plain (.string text)
  | binary (bytes : Bytes) : Plain (.binary bytes)
  | array {values : List Decoded} (plain : ∀ value ∈ values, Plain value) : Plain (.array values)
  | object {fields : List (String × Decoded)} (distinct : (fields.map Prod.fst).Nodup)
      (noPrototype : "__proto__" ∉ fields.map Prod.fst) (plain : ∀ field ∈ fields, Plain field.2) : Plain (.object fields)

/-- `encode` throws where a text, a list or bytes are too long for the format. -/
structure ValueCodec where
  encode : Decoded → Option Bytes
  decode : Bytes → Except String Decoded
  count : Nat → Bytes
  arrayHead : Nat → Bytes
  objectHead : Nat → Bytes
  encode_count : ∀ value : Nat, encode (.number (.integer value)) = some (count value)
  encode_array : ∀ values, encode (.array values) =
    if values.length < lengthLimit then (values.mapM encode).map fun parts => arrayHead values.length ++ parts.flatten
    else none
  encode_object : ∀ fields, encode (.object fields) =
    if fields.length < lengthLimit then
      (fields.mapM fun field => (encode (.string field.1)).bind fun key => (encode field.2).map (key ++ ·)).map
        fun parts => objectHead fields.length ++ parts.flatten
    else none
  count_mono : ∀ {less more : Nat}, less ≤ more → (count less).length ≤ (count more).length
  count_bound : ∀ value, (count value).length ≤ 9
  decode_encode : ∀ {value bytes}, value.Plain → encode value = some bytes → decode bytes = .ok value

namespace ValueCodec

variable (codec : ValueCodec)

/-- Wherever the first value has an encoding the second has one, longer by at most so many bytes. -/
def Longer (by_at_most : Nat) (value other : Decoded) : Prop := ∀ bytes, codec.encode value = some bytes →
  ∃ more, codec.encode other = some more ∧ bytes.length ≤ more.length ∧ more.length ≤ bytes.length + by_at_most

variable {codec} {size : Nat}

theorem Longer.same (value : Decoded) : codec.Longer size value value :=
  fun bytes encoded => ⟨bytes, encoded, Nat.le_refl _, Nat.le_add_right _ _⟩

theorem Longer.count {less more : Nat} (grows : less ≤ more) :
    codec.Longer 9 (.number (.integer less)) (.number (.integer more)) := by
  intro bytes encoded
  rw [codec.encode_count] at encoded
  cases encoded
  have bound := codec.count_bound more
  exact ⟨_, codec.encode_count more, codec.count_mono grows, by omega⟩

theorem parts_longer {α : Type} {make : α → Option Bytes} {items others : List α}
    (pairs : List.Forall₂ (fun item other => ∀ bytes, make item = some bytes → ∃ more, make other = some more ∧
      bytes.length ≤ more.length ∧ more.length ≤ bytes.length + size) items others)
    {parts : List Bytes} (made : items.mapM make = some parts) :
    ∃ longer, others.mapM make = some longer ∧ parts.flatten.length ≤ longer.flatten.length ∧
      longer.flatten.length ≤ parts.flatten.length + size * items.length := by
  induction pairs generalizing parts with
  | nil =>
    cases made
    exact ⟨[], rfl, Nat.le_refl _, Nat.le_refl _⟩
  | @cons item other items others first _ ih =>
    simp only [List.mapM_cons, Option.bind_eq_bind, Option.pure_def, Option.bind_eq_some_iff, Option.some.injEq] at made
    obtain ⟨bytes, encoded, rest, later, rfl⟩ := made
    obtain ⟨more, found, least, most⟩ := first bytes encoded
    obtain ⟨longer, all, least', most'⟩ := ih later
    refine ⟨more :: longer, ?_, ?_, ?_⟩
    · simp only [List.mapM_cons, found, all, Option.bind_eq_bind, Option.bind_some, Option.pure_def]
    · simp only [List.flatten_cons, List.length_append]
      omega
    · simp only [List.flatten_cons, List.length_append, List.length_cons, Nat.mul_succ]
      omega

theorem Longer.array {values others : List Decoded} (pairs : List.Forall₂ (codec.Longer size) values others) :
    codec.Longer (size * values.length) (.array values) (.array others) := by
  intro bytes encoded
  rw [codec.encode_array] at encoded
  split at encoded
  · next fits =>
    obtain ⟨parts, made, rfl⟩ := Option.map_eq_some_iff.mp encoded
    obtain ⟨longer, all, least, most⟩ := parts_longer pairs made
    refine ⟨codec.arrayHead others.length ++ longer.flatten, ?_, ?_, ?_⟩
    · rw [codec.encode_array, if_pos (pairs.length_eq ▸ fits), all, Option.map_some]
    · rw [List.length_append, List.length_append, pairs.length_eq]
      omega
    · rw [List.length_append, List.length_append, pairs.length_eq]
      rw [pairs.length_eq] at most
      omega
  · cases encoded

theorem Longer.object {fields others : List (String × Decoded)}
    (pairs : List.Forall₂ (fun field other => field.1 = other.1 ∧ codec.Longer size field.2 other.2) fields others) :
    codec.Longer (size * fields.length) (.object fields) (.object others) := by
  intro bytes encoded
  rw [codec.encode_object] at encoded
  split at encoded
  · next fits =>
    obtain ⟨parts, made, rfl⟩ := Option.map_eq_some_iff.mp encoded
    have step : ∀ field other : String × Decoded, field.1 = other.1 ∧ codec.Longer size field.2 other.2 →
        ∀ bytes, ((codec.encode (.string field.1)).bind fun key => (codec.encode field.2).map (key ++ ·)) = some bytes →
          ∃ more, ((codec.encode (.string other.1)).bind fun key => (codec.encode other.2).map (key ++ ·)) = some more ∧
            bytes.length ≤ more.length ∧ more.length ≤ bytes.length + size := by
      rintro field other ⟨same, longer⟩ bytes encoded
      obtain ⟨key, isKey, held⟩ := Option.bind_eq_some_iff.mp encoded
      obtain ⟨value, isValue, rfl⟩ := Option.map_eq_some_iff.mp held
      obtain ⟨more, found, least, most⟩ := longer value isValue
      refine ⟨key ++ more, ?_, ?_, ?_⟩
      · rw [← same, isKey, Option.bind_some, found, Option.map_some]
      · rw [List.length_append, List.length_append]
        omega
      · rw [List.length_append, List.length_append]
        omega
    obtain ⟨longer, all, least, most⟩ := parts_longer (pairs.imp step) made
    refine ⟨codec.objectHead others.length ++ longer.flatten, ?_, ?_, ?_⟩
    · rw [codec.encode_object, if_pos (pairs.length_eq ▸ fits), all, Option.map_some]
    · rw [List.length_append, List.length_append, pairs.length_eq]
      omega
    · rw [List.length_append, List.length_append, pairs.length_eq]
      rw [pairs.length_eq] at most
      omega
  · cases encoded

end ValueCodec

end Narsil.Serialization
