import Narsil.Assoc.Groups
import Narsil.Serialization.MapFields

/-!
# Decoding a map with and without some of its fields
-/
namespace Narsil.Serialization

open MessagePack Narsil.Ordering

/-- A decoder of the format: it takes whole values, and a map of strings becomes an object, the
later of two fields of a name counting. The name of the prototype is refused. -/
structure MessagePackDecoder (α : Type) where
  decode : Bytes → Option α
  object : List (JsString × α) → α
  whole : ∀ {bytes : Bytes} {value : α}, decode bytes = some value → Whole bytes
  map : ∀ {head : Bytes} {pairs : List MapPair} {texts : List JsString}, MapHead head pairs.length →
    (∀ pair ∈ pairs, pair.Good) → (pairs.mapM fun pair => utf8Text? pair.key) = some texts →
    decode (head ++ pairs.flatMap MapPair.bytes) =
      if PROTO ∈ texts then none
      else (pairs.mapM fun pair => decode pair.value).map fun values => object (setAll [] (texts.zip values))
  object_inj : ∀ {fields others : List (JsString × α)}, (fields.map Prod.fst).Nodup → (others.map Prod.fst).Nodup →
    object fields = object others → fields.Perm others

section Agreement
variable {α : Type} (library : MessagePackDecoder α) (bytes : Bytes)

/-- The document that is returned is the decoded one without the fields. -/
def DocumentsAgree : Prop := ∀ skippedFields document value,
  decodeMapWithoutFields library.decode skippedFields bytes = .ok (some document) → library.decode bytes = some value →
    ∃ fields : List (JsString × α), (fields.map Prod.fst).Nodup ∧ value = library.object fields ∧
      document = fields.filter fun field => field.1 ∉ skippedFields

/-- The keys that are returned are those of the decoded map. -/
def KeysAgree : Prop := ∀ keys value,
  topLevelMapKeys bytes = .ok (some keys) → library.decode bytes = some value →
    ∃ fields : List (JsString × α), (fields.map Prod.fst).Nodup ∧ value = library.object fields ∧
      ∀ key, key ∈ keys ↔ key ∈ fields.map Prod.fst

/-- The bytes of a map of strings that decodes, one of its keys beginning with a byte order mark. -/
def MarkedKey : Prop := library.decode bytes ≠ none ∧ ∃ (head : Bytes) (pairs : List MapPair) (texts : List JsString),
  MapHead head pairs.length ∧ (∀ pair ∈ pairs, pair.Good) ∧ bytes = head ++ pairs.flatMap MapPair.bytes ∧
    (pairs.mapM fun pair => utf8Text? pair.key) = some texts ∧ ∃ text ∈ texts, text.head? = some BYTE_ORDER_MARK

end Agreement

section Fields
variable {α : Type} {decode : Bytes → Option α} {skippedFields : List JsString}

theorem setAll_filter (document fields : List (JsString × α)) (keep : JsString → Prop) [DecidablePred keep] :
    (setAll document fields).filter (fun field => keep field.1) =
      setAll (document.filter fun field => keep field.1) (fields.filter fun field => keep field.1) := by
  induction fields generalizing document with
  | nil => rfl
  | cons field fields ih =>
    have step : setAll document (field :: fields) = setAll (Assoc.set document field.1 field.2) fields := rfl
    rw [step, ih, Assoc.filter_set]
    by_cases kept : keep field.1
    · rw [if_pos kept, List.filter_cons_of_pos (by simpa using kept)]
      rfl
    · rw [if_neg kept, List.filter_cons_of_neg (by simpa using kept)]

theorem setAll_distinct {document : List (JsString × α)} (distinct : (document.map Prod.fst).Nodup)
    (fields : List (JsString × α)) : ((setAll document fields).map Prod.fst).Nodup := by
  induction fields generalizing document with
  | nil => exact distinct
  | cons field fields ih => exact ih (Assoc.set_distinct distinct _ _)

theorem no_fields : (([] : List (JsString × α)).map Prod.fst).Nodup := List.nodup_nil

theorem mem_keys_setAll (document fields : List (JsString × α)) (key : JsString) :
    key ∈ (setAll document fields).map Prod.fst ↔ key ∈ document.map Prod.fst ∨ key ∈ fields.map Prod.fst := by
  induction fields generalizing document with
  | nil => simp [setAll]
  | cons field fields ih =>
    have step : setAll document (field :: fields) = setAll (Assoc.set document field.1 field.2) fields := rfl
    rw [step, ih, Assoc.mem_keys_set, List.map_cons, List.mem_cons]
    tauto

theorem mem_addKeys (keys texts : List JsString) (key : JsString) :
    key ∈ texts.foldl addKey keys ↔ key ∈ keys ∨ key ∈ texts := by
  induction texts generalizing keys with
  | nil => simp
  | cons text texts ih =>
    rw [List.foldl_cons, ih, List.mem_cons, addKey]
    split
    next known =>
      constructor
      · rintro (old | new)
        · exact .inl old
        · exact .inr (.inr new)
      · rintro (old | rfl | new)
        · exact .inl old
        · exact .inl known
        · exact .inr new
    next => rw [List.mem_append, List.mem_singleton, or_assoc]

theorem mapM_cons_some {β γ : Type} {f : β → Option γ} {item : β} {items : List β} {all : List γ} :
    (item :: items).mapM f = some all ↔ ∃ made rest, f item = some made ∧ items.mapM f = some rest ∧ all = made :: rest := by
  simp only [List.mapM_cons, Option.bind_eq_bind, Option.pure_def, Option.bind_eq_some_iff, Option.some.injEq]
  constructor
  · rintro ⟨made, first, rest, others, rfl⟩
    exact ⟨made, rest, first, others, rfl⟩
  · rintro ⟨made, rest, first, others, rfl⟩
    exact ⟨made, first, rest, others, rfl⟩

theorem mapM_length {β γ : Type} {f : β → Option γ} {items : List β} {all : List γ} (made : items.mapM f = some all) :
    all.length = items.length := by
  induction items generalizing all with
  | nil =>
    cases made
    rfl
  | cons item items ih =>
    obtain ⟨first, rest, -, others, rfl⟩ := mapM_cons_some.mp made
    rw [List.length_cons, List.length_cons, ih others]

theorem mapM_texts {pairs : List MapPair} {keys : List JsString}
    (read : (pairs.mapM fun pair => decodeKey pair.key) = some keys) :
    ∃ texts, (pairs.mapM fun pair => utf8Text? pair.key) = some texts ∧ keys = texts.map withoutMark := by
  induction pairs generalizing keys with
  | nil =>
    cases read
    exact ⟨[], rfl, rfl⟩
  | cons pair pairs ih =>
    obtain ⟨key, rest, first, others, rfl⟩ := mapM_cons_some.mp read
    obtain ⟨text, made, rfl⟩ := Option.map_eq_some_iff.mp first
    obtain ⟨texts, later, rfl⟩ := ih others
    exact ⟨text :: texts, mapM_cons_some.mpr ⟨text, texts, made, later, rfl⟩, rfl⟩

theorem mapM_keys {pairs : List MapPair} {texts : List JsString}
    (made : (pairs.mapM fun pair => utf8Text? pair.key) = some texts) :
    (pairs.mapM fun pair => decodeKey pair.key) = some (texts.map withoutMark) := by
  induction pairs generalizing texts with
  | nil =>
    cases made
    rfl
  | cons pair pairs ih =>
    obtain ⟨text, rest, first, others, rfl⟩ := mapM_cons_some.mp made
    exact mapM_cons_some.mpr ⟨_, _, by rw [decodeKey, first]; rfl, ih others, rfl⟩

theorem mapM_fieldOf_keys {pairs : List MapPair} {fields : List (List (JsString × α))}
    (read : pairs.mapM (fieldOf decode skippedFields) = some fields) :
    ∃ keys, (pairs.mapM fun pair => decodeKey pair.key) = some keys := by
  induction pairs generalizing fields with
  | nil => exact ⟨[], rfl⟩
  | cons pair pairs ih =>
    obtain ⟨field, rest, first, others, rfl⟩ := mapM_cons_some.mp read
    obtain ⟨key, found, -⟩ := Option.bind_eq_some_iff.mp first
    obtain ⟨keys, later⟩ := ih others
    exact ⟨key :: keys, mapM_cons_some.mpr ⟨key, keys, found, later, rfl⟩⟩

theorem withoutMark_of_unmarked {text : JsString} (unmarked : text.head? ≠ some BYTE_ORDER_MARK) :
    withoutMark text = text := if_neg unmarked

theorem fields_eq {pairs : List MapPair} {texts : List JsString} {values : List α} {fields : List (List (JsString × α))}
    (made : (pairs.mapM fun pair => utf8Text? pair.key) = some texts)
    (decoded : (pairs.mapM fun pair => decode pair.value) = some values)
    (read : pairs.mapM (fieldOf decode skippedFields) = some fields)
    (unmarked : ∀ text ∈ texts, text.head? ≠ some BYTE_ORDER_MARK) :
    fields.flatten = (texts.zip values).filter fun field => field.1 ∉ skippedFields := by
  induction pairs generalizing texts values fields with
  | nil =>
    cases made
    cases read
    rfl
  | cons pair pairs ih =>
    obtain ⟨text, texts, first, laterTexts, rfl⟩ := mapM_cons_some.mp made
    obtain ⟨value, values, firstValue, laterValues, rfl⟩ := mapM_cons_some.mp decoded
    obtain ⟨field, fields, firstField, laterFields, rfl⟩ := mapM_cons_some.mp read
    obtain ⟨plain, others⟩ := List.forall_mem_cons.mp unmarked
    rw [List.flatten_cons, ih laterTexts laterValues laterFields others, List.zip_cons_cons]
    rw [fieldOf, decodeKey, first, Option.map_some, Option.bind_some, withoutMark_of_unmarked plain] at firstField
    split at firstField
    · cases firstField
    · split at firstField
      next skipped =>
        cases firstField
        rw [List.filter_cons_of_neg (by simpa using skipped), List.nil_append]
      next kept =>
        rw [firstValue] at firstField
        cases firstField
        rw [List.filter_cons_of_pos (by simpa using kept), List.singleton_append]

end Fields

theorem Good.whole {pair : MapPair} (good : pair.Good) : Wholes 2 pair.bytes := by
  have key := Whole.value (.str good.isKey) .none
  rw [List.append_nil] at key
  have both := Wholes.more key (.more good.isValue .none)
  rwa [List.append_nil] at both

theorem wholes_pairs {pairs : List MapPair} (goods : ∀ pair ∈ pairs, pair.Good) :
    Wholes (2 * pairs.length) (pairs.flatMap MapPair.bytes) := by
  induction pairs with
  | nil => exact .none
  | cons pair pairs ih =>
    obtain ⟨good, goods⟩ := List.forall_mem_cons.mp goods
    rw [List.flatMap_cons, List.length_cons, Nat.mul_succ, Nat.add_comm]
    exact (Good.whole good).append (ih goods)

theorem map_whole {head : Bytes} {pairs : List MapPair} (isHead : MapHead head pairs.length)
    (goods : ∀ pair ∈ pairs, pair.Good) : Whole (head ++ pairs.flatMap MapPair.bytes) := by
  have all := @Whole.value head [] _ _ (.map isHead) (wholes_pairs goods)
  rwa [List.append_nil] at all

theorem whole_unique {value behind : Bytes} (isValue : Whole value) (isWhole : Whole (value ++ behind)) : behind = [] := by
  have first := (readValue_spec (value ++ behind) value behind).mpr ⟨isValue, rfl⟩
  have all := (readValue_spec (value ++ behind) (value ++ behind) []).mpr ⟨isWhole, (List.append_nil _).symm⟩
  rw [first, Option.some.injEq, Prod.mk.injEq] at all
  exact all.2

section Agreement
variable {α : Type} (library : MessagePackDecoder α) {bytes head : Bytes} {pairs : List MapPair} {texts : List JsString}

theorem MessagePackDecoder.decode_map {value : α} (isHead : MapHead head pairs.length)
    (goods : ∀ pair ∈ pairs, pair.Good) (made : (pairs.mapM fun pair => utf8Text? pair.key) = some texts)
    (decodes : library.decode (head ++ pairs.flatMap MapPair.bytes) = some value) :
    ∃ values, (pairs.mapM fun pair => library.decode pair.value) = some values ∧
      value = library.object (setAll [] (texts.zip values)) := by
  rw [library.map isHead goods made] at decodes
  split at decodes
  · cases decodes
  · obtain ⟨values, all, rfl⟩ := Option.map_eq_some_iff.mp decodes
    exact ⟨values, all, rfl⟩

theorem keys_setAll_zip {values : List α} (length : values.length = texts.length) (key : JsString) :
    key ∈ (setAll [] (texts.zip values)).map Prod.fst ↔ key ∈ texts := by
  rw [mem_keys_setAll, List.map_fst_zip (Nat.le_of_eq length.symm), List.map_nil]
  simp

theorem lengths {values : List α} (made : (pairs.mapM fun pair => utf8Text? pair.key) = some texts)
    (decoded : (pairs.mapM fun pair => library.decode pair.value) = some values) : values.length = texts.length :=
  (mapM_length decoded).trans (mapM_length made).symm

theorem documents_agree (unmarked : ¬ MarkedKey library bytes) : DocumentsAgree library bytes := by
  intro skippedFields document value skips decodes
  rw [decodeMapWithoutFields_eq, Except.ok.injEq, Option.bind_eq_some_iff] at skips
  obtain ⟨⟨pairs, behind⟩, read, found⟩ := skips
  simp only [Option.ite_none_left_eq_some, Option.bind_eq_some_iff] at found
  obtain ⟨-, fields, made, found⟩ := found
  split at found
  · next nothing =>
    subst nothing
    cases found
    obtain ⟨head, isHead, goods, rfl⟩ := (readMap_spec _ _ _).mp read
    rw [List.append_nil] at decodes unmarked
    obtain ⟨keys, isKeys⟩ := mapM_fieldOf_keys made
    obtain ⟨texts, isTexts, -⟩ := mapM_texts isKeys
    have plain : ∀ text ∈ texts, text.head? ≠ some BYTE_ORDER_MARK := by
      intro text member isMarked
      exact unmarked ⟨by rw [decodes]; exact Option.some_ne_none _, head, pairs, texts, isHead, goods, rfl, isTexts,
        text, member, isMarked⟩
    obtain ⟨values, isValues, rfl⟩ := library.decode_map isHead goods isTexts decodes
    refine ⟨_, setAll_distinct no_fields _, rfl, ?_⟩
    rw [fields_eq isTexts isValues made plain]
    exact (setAll_filter [] (texts.zip values) (· ∉ skippedFields)).symm
  · cases found

theorem keys_agree (unmarked : ¬ MarkedKey library bytes) : KeysAgree library bytes := by
  intro keys value found decodes
  rw [topLevelMapKeys_eq, Except.ok.injEq, Option.bind_eq_some_iff] at found
  obtain ⟨⟨pairs, behind⟩, read, found⟩ := found
  obtain ⟨read_keys, isKeys, rfl⟩ := Option.map_eq_some_iff.mp found
  obtain ⟨texts, isTexts, rfl⟩ := mapM_texts isKeys
  obtain ⟨head, isHead, goods, rfl⟩ := (readMap_spec _ _ _).mp read
  have isWhole := library.whole decodes
  rw [← List.append_assoc] at isWhole
  obtain rfl := whole_unique (map_whole isHead goods) isWhole
  rw [List.append_nil] at decodes unmarked
  have plain : texts.map withoutMark = texts := by
    refine List.map_congr_left (fun text member => withoutMark_of_unmarked fun isMarked => unmarked ?_) |>.trans
      (List.map_id texts)
    exact ⟨by rw [decodes]; exact Option.some_ne_none _, head, pairs, texts, isHead, goods, rfl, isTexts, text, member,
      isMarked⟩
  obtain ⟨values, isValues, rfl⟩ := library.decode_map isHead goods isTexts decodes
  refine ⟨_, setAll_distinct no_fields _, rfl, fun key => ?_⟩
  rw [plain, mem_addKeys, keys_setAll_zip (lengths library isTexts isValues)]
  simp

theorem unmarked_of_same (same : ∀ key, key ∈ texts.map withoutMark ↔ key ∈ texts) :
    ∀ text ∈ texts, text.head? ≠ some BYTE_ORDER_MARK := by
  have longer : ∀ size, ∀ text ∈ texts, text.head? = some BYTE_ORDER_MARK →
      ∃ other ∈ texts, other.head? = some BYTE_ORDER_MARK ∧ size + text.length ≤ other.length := by
    intro size
    induction size with
    | zero => exact fun text member isMarked => ⟨text, member, isMarked, by omega⟩
    | succ size ih =>
      intro text member isMarked
      obtain ⟨other, isOther, marked, length⟩ := ih text member isMarked
      obtain ⟨next, isNext, left⟩ := List.mem_map.mp ((same other).mpr isOther)
      by_cases nextMarked : next.head? = some BYTE_ORDER_MARK
      · refine ⟨next, isNext, nextMarked, ?_⟩
        rw [withoutMark, if_pos nextMarked] at left
        rw [← left, List.length_drop] at length
        have positive : 0 < next.length := by
          cases next with
          | nil => cases nextMarked
          | cons => simp
        omega
      · rw [withoutMark_of_unmarked nextMarked] at left
        exact absurd (left ▸ marked) nextMarked
  intro text member isMarked
  obtain ⟨other, isOther, -, tooLong⟩ := longer (texts.flatten.length + 1) text member isMarked
  have bound := (List.sublist_flatten_of_mem isOther).length_le
  omega

theorem unmarked_of_keys (agree : KeysAgree library bytes) : ¬ MarkedKey library bytes := by
  rintro ⟨decodes, head, pairs, texts, isHead, goods, rfl, isTexts, text, member, isMarked⟩
  obtain ⟨value, decodes⟩ := Option.ne_none_iff_exists'.mp decodes
  obtain ⟨values, isValues, same⟩ := library.decode_map isHead goods isTexts decodes
  have read : readMap (head ++ pairs.flatMap MapPair.bytes) = some (pairs, []) :=
    (readMap_spec _ _ _).mpr ⟨head, isHead, goods, by rw [List.append_nil]⟩
  have found : topLevelMapKeys (head ++ pairs.flatMap MapPair.bytes) =
      .ok (some ((texts.map withoutMark).foldl addKey [])) := by
    rw [topLevelMapKeys_eq, read]
    simp only [Option.bind_some, mapM_keys isTexts, Option.map_some]
  obtain ⟨fields, distinct, isObject, keys⟩ := agree _ _ found decodes
  have all := library.object_inj (setAll_distinct no_fields _) distinct (same.symm.trans isObject)
  refine unmarked_of_same (fun key => ?_) text member isMarked
  have key_found := keys key
  rw [mem_addKeys, ← (all.map Prod.fst).mem_iff, keys_setAll_zip (lengths library isTexts isValues)] at key_found
  simpa using key_found

end Agreement

/-- The end of a value is found exactly where a whole value is, without a read beyond the bytes. Skipping fields and
reading keys agree with decoding in full but for the maps with a key that begins with a byte order mark. -/
theorem skipping_agrees {α : Type} (library : MessagePackDecoder α) (bytes : Bytes) :
    (∀ start, ∃ answer, endOfValue bytes start = .ok answer ∧ ∀ finish, answer = some finish ↔
      ∃ value, Whole value ∧ value <+: bytes.drop start ∧ finish = start + value.length) ∧
    (DocumentsAgree library bytes ∧ KeysAgree library bytes ↔ ¬ MarkedKey library bytes) :=
  ⟨endOfValue_spec bytes, fun agree => unmarked_of_keys library agree.2,
    fun unmarked => ⟨documents_agree library unmarked, keys_agree library unmarked⟩⟩

/-- An object, or any other value as its bytes. -/
inductive Tree
  | other (bytes : Bytes)
  | object (fields : List (JsString × Tree))

def decodeTree : Nat → Bytes → Option Tree
  | 0, _ => none
  | fuel + 1, bytes =>
    match readValue bytes with
    | some (_, []) =>
      match readMap bytes with
      | none => some (.other bytes)
      | some (pairs, _) =>
        match pairs.mapM fun pair => utf8Text? pair.key with
        | none => some (.other bytes)
        | some texts =>
          if PROTO ∈ texts then none
          else (pairs.mapM fun pair => decodeTree fuel pair.value).map fun values => .object (setAll [] (texts.zip values))
    | _ => none

theorem mapM_congr {β γ : Type} {f g : β → Option γ} {items : List β} (same : ∀ item ∈ items, f item = g item) :
    items.mapM f = items.mapM g := by
  induction items with
  | nil => rfl
  | cons item items ih =>
    obtain ⟨first, others⟩ := List.forall_mem_cons.mp same
    rw [List.mapM_cons, List.mapM_cons, first, ih others]

theorem value_shorter {bytes : Bytes} {pairs : List MapPair} {behind : Bytes} (read : readMap bytes = some (pairs, behind))
    {pair : MapPair} (member : pair ∈ pairs) : pair.value.length < bytes.length := by
  obtain ⟨head, isHead, -, rfl⟩ := (readMap_spec _ _ _).mp read
  have positive := List.length_pos_iff.mpr (Head.ne_nil (.map isHead))
  have within : pair.bytes.length ≤ (pairs.flatMap MapPair.bytes).length := by
    rw [List.flatMap_def]
    exact (List.sublist_flatten_of_mem (List.mem_map_of_mem member)).length_le
  rw [pair.bytes_length] at within
  simp only [List.length_append]
  omega

theorem decodeTree_fuel {fuel more : Nat} {bytes : Bytes} (enough : bytes.length < fuel) (enough' : bytes.length < more) :
    decodeTree fuel bytes = decodeTree more bytes := by
  induction fuel generalizing more bytes with
  | zero => omega
  | succ fuel ih =>
    obtain ⟨more, rfl⟩ := Nat.exists_eq_succ_of_ne_zero (Nat.ne_of_gt (Nat.lt_of_le_of_lt (Nat.zero_le _) enough'))
    rw [decodeTree, decodeTree]
    cases read : readMap bytes with
    | none => rfl
    | some found =>
      have same : (found.1.mapM fun pair => decodeTree fuel pair.value) = found.1.mapM fun pair => decodeTree more pair.value := by
        refine mapM_congr fun pair member => ?_
        have shorter := value_shorter read member
        exact ih (by omega) (by omega)
      simp only [same]

def treeDecoder : MessagePackDecoder Tree where
  decode bytes := decodeTree (bytes.length + 1) bytes
  object := .object
  whole := by
    intro bytes value decodes
    rw [decodeTree] at decodes
    split at decodes
    next first read =>
      obtain ⟨isValue, same⟩ := (readValue_spec _ _ _).mp read
      rw [List.append_nil] at same
      exact same ▸ isValue
    next => cases decodes
  map := by
    intro head pairs texts isHead goods isTexts
    have isWhole := map_whole isHead goods
    have isValue := (readValue_spec _ _ []).mpr ⟨isWhole, (List.append_nil _).symm⟩
    have read : readMap (head ++ pairs.flatMap MapPair.bytes) = some (pairs, []) :=
      (readMap_spec _ _ _).mpr ⟨head, isHead, goods, by rw [List.append_nil]⟩
    have same : (pairs.mapM fun pair => decodeTree (head ++ pairs.flatMap MapPair.bytes).length pair.value) =
        pairs.mapM fun pair => decodeTree (pair.value.length + 1) pair.value :=
      mapM_congr fun pair member => decodeTree_fuel (value_shorter read member) (Nat.lt_succ_self _)
    rw [decodeTree, isValue]
    simp only [read, isTexts, same]
  object_inj := fun _ _ same => Tree.object.inj same ▸ List.Perm.refl _

/-- A document with a key behind a byte order mark: the mark is lost. -/
theorem markedKey_loses_mark : ¬ ∀ bytes, DocumentsAgree treeDecoder bytes := by
  intro all
  have isHead : MapHead [0x81] 1 := @MapHead.fix 1 (by decide)
  have good : MapPair.Good ⟨[0xa4], [0xef, 0xbb, 0xbf, 0x61], [0x01]⟩ :=
    ⟨@StrHead.fix 4 (by decide), @Whole.value [0x01] [] [] 0 (.fixint (.inl (by decide))) .none⟩
  have goods : ∀ pair ∈ [(⟨[0xa4], [0xef, 0xbb, 0xbf, 0x61], [0x01]⟩ : MapPair)], pair.Good := by
    simpa using good
  have read : readMap [0x81, 0xa4, 0xef, 0xbb, 0xbf, 0x61, 0x01] = some ([⟨[0xa4], [0xef, 0xbb, 0xbf, 0x61], [0x01]⟩], []) :=
    (readMap_spec _ _ _).mpr ⟨_, isHead, goods, rfl⟩
  have one : treeDecoder.decode [0x01] = some (.other [0x01]) := by
    have isValue := (readValue_spec [0x01] _ []).mpr ⟨good.isValue, rfl⟩
    have noMap : readMap [0x01] = none := by decide
    simp only [treeDecoder, decodeTree, isValue, noMap]
  have skips : decodeMapWithoutFields treeDecoder.decode [] [0x81, 0xa4, 0xef, 0xbb, 0xbf, 0x61, 0x01] =
      .ok (some [([0x61], .other [0x01])]) := by
    have key : decodeKey [0xef, 0xbb, 0xbf, 0x61] = some [0x61] := by decide
    have field : fieldOf treeDecoder.decode [] ⟨[0xa4], [0xef, 0xbb, 0xbf, 0x61], [0x01]⟩ = some [([0x61], .other [0x01])] := by
      have free : ¬ ([0x61] : JsString) ∈ FORBIDDEN_KEYS := by decide
      rw [fieldOf, key, Option.bind_some, if_neg free, if_neg List.not_mem_nil, one]
      rfl
    rw [decodeMapWithoutFields_eq, read]
    simp [field, setAll, Assoc.set]
  have isTexts : ([(⟨[0xa4], [0xef, 0xbb, 0xbf, 0x61], [0x01]⟩ : MapPair)].mapM fun pair => utf8Text? pair.key) =
      some [[BYTE_ORDER_MARK, 0x61]] := by
    decide
  have decodes : treeDecoder.decode [0x81, 0xa4, 0xef, 0xbb, 0xbf, 0x61, 0x01] =
      some (.object [([BYTE_ORDER_MARK, 0x61], .other [0x01])]) := by
    have law := treeDecoder.map isHead goods isTexts
    have free : ¬ PROTO ∈ [[BYTE_ORDER_MARK, 0x61]] := by decide
    rw [if_neg free] at law
    simp only [List.mapM_cons, List.mapM_nil, one, Option.pure_def, Option.bind_eq_bind, Option.bind_some,
      Option.map_some] at law
    exact law
  obtain ⟨fields, -, isObject, same⟩ := all _ [] _ _ skips decodes
  have isFields := Tree.object.inj isObject
  rw [← isFields] at same
  have keys := congrArg (List.map Prod.fst) same
  revert keys
  decide

end Narsil.Serialization
