import Narsil.Export.Documents
import Narsil.Export.Lines

/-!
# A document comes back from its line

The tree that a value's line holds, the line as the text of that tree, and untagging as
its inverse.
-/
namespace Narsil.Export

open Narsil.Ordering (JsString ascii)
open Narsil.Serialization

theorem Time.seconds_eq (time : Time) : time.seconds = time.milliseconds / 1000 := by
  have within := time.within
  rw [MAX_DATE_MILLISECONDS] at within
  have rounded := Binary64.floor_round_div_thousand (n := time.milliseconds) (by omega)
  rw [Time.seconds, MILLISECONDS_PER_SECOND]
  exact_mod_cast rounded

theorem Time.seconds_small (time : Time) : |time.seconds| < 2 ^ 53 := by
  have within := abs_le.mp time.within
  rw [MAX_DATE_MILLISECONDS] at within
  rw [abs_lt, time.seconds_eq]
  omega

theorem Time.nanoseconds_within (time : Time) : 0 ≤ time.nanoseconds ∧ time.nanoseconds ≤ MAX_NANOSECONDS := by
  rw [Time.nanoseconds, time.seconds_eq, MILLISECONDS_PER_SECOND, NANOSECONDS_PER_MILLISECOND, MAX_NANOSECONDS]
  omega

theorem Time.nanoseconds_small (time : Time) : |time.nanoseconds| < 2 ^ 53 := by
  have within := time.nanoseconds_within
  rw [MAX_NANOSECONDS] at within
  rw [abs_lt]
  omega

def integerNumber (n : ℤ) (small : |n| < 2 ^ 53) : Double where
  value := n
  exact := Binary64.round_intCast small
  small := by
    have cast : |(n : ℚ)| = ((|n| : ℤ) : ℚ) := by push_cast; rfl
    rw [cast]
    calc ((|n| : ℤ) : ℚ) < 2 ^ 53 := by exact_mod_cast small
      _ < 2 ^ 1024 := pow_lt_pow_right₀ (by norm_num) (by norm_num)

mutual

/-- The tree that the line of an exportable value holds. -/
def taggedValue : Value → Json
  | .undefined | .null | .foreign _ | .date none => .null
  | .boolean value => .boolean value
  | .number (.finite value) => .number (.finite value)
  | .number .negativeZero => .number .negativeZero
  | .number value => .map [(NUMBER_TAG, .string value.text)]
  | .string value => .string value
  | .date (some time) =>
    .map [(DATE_TAG, .list [.number (.finite (integerNumber time.seconds time.seconds_small)),
      .number (.finite (integerNumber time.nanoseconds time.nanoseconds_small))])]
  | .bytes value => .map [(BYTES_TAG, .string (encodeBase64 value))]
  | .list values => .list (taggedList values)
  | .map entries =>
    if looksTagged entries then .map [(OBJECT_TAG, .map (taggedEntries entries))] else .map (taggedEntries entries)

def taggedList : List Value → List Json
  | [] => []
  | value :: values => taggedValue value :: taggedList values

def taggedEntries : List (JsString × Value) → List (JsString × Json)
  | [] => []
  | (key, value) :: entries =>
    if value.isDefined then (key, taggedValue value) :: taggedEntries entries else taggedEntries entries

end

mutual

/-- A value without the entries that are undefined, at every depth. -/
def withoutUndefined : Value → Value
  | .list values => .list (withoutUndefinedList values)
  | .map entries => .map (withoutUndefinedEntries entries)
  | value => value

def withoutUndefinedList : List Value → List Value
  | [] => []
  | value :: values => withoutUndefined value :: withoutUndefinedList values

def withoutUndefinedEntries : List (JsString × Value) → List (JsString × Value)
  | [] => []
  | (key, value) :: entries =>
    if value.isDefined then (key, withoutUndefined value) :: withoutUndefinedEntries entries
    else withoutUndefinedEntries entries

end

/-- What an export carries: values JSON has or a tag stands for, in at most so many levels
of lists and maps. -/
inductive Exportable : ℕ → Value → Prop where
  | null (levels : ℕ) : Exportable levels .null
  | boolean (levels : ℕ) (value : Bool) : Exportable levels (.boolean value)
  | number (levels : ℕ) (value : JsNumber) : Exportable levels (.number value)
  | string (levels : ℕ) (value : JsString) : Exportable levels (.string value)
  | date (levels : ℕ) (time : Time) : Exportable levels (.date (some time))
  | bytes (levels : ℕ) (value : List UInt8) : Exportable levels (.bytes value)
  | list {levels : ℕ} {values : List Value} (each : ∀ value ∈ values, Exportable levels value) :
    Exportable (levels + 1) (.list values)
  | map {levels : ℕ} {entries : List (JsString × Value)} (listed : Listed entries)
    (each : ∀ entry ∈ entries, entry.2.isDefined → Exportable levels entry.2) :
    Exportable (levels + 1) (.map entries)

theorem taggedList_eq (values : List Value) : taggedList values = values.map taggedValue := by
  induction values with
  | nil => rfl
  | cons value values ih => rw [taggedList, ih, List.map_cons]

theorem taggedEntries_eq (entries : List (JsString × Value)) :
    taggedEntries entries = (definedEntries entries).map fun entry => (entry.1, taggedValue entry.2) := by
  induction entries with
  | nil => rfl
  | cons entry entries ih =>
    rw [definedEntries, taggedEntries, List.filter_cons]
    split
    · rw [ih, List.map_cons]
      rfl
    · exact ih

theorem definedEntries_mem {entries : List (JsString × Value)} {entry : JsString × Value} :
    entry ∈ definedEntries entries ↔ entry ∈ entries ∧ entry.2.isDefined := List.mem_filter

theorem taggedEntries_listed {entries : List (JsString × Value)} (listed : Listed entries) :
    Listed (taggedEntries entries) := by
  rw [taggedEntries_eq, Listed, List.pairwise_map]
  exact List.Pairwise.sublist List.filter_sublist listed

theorem Exportable.written {levels : ℕ} {value : Value} (exportable : Exportable levels value) :
    (taggedValue value).Written := by
  have single (tag : JsString) (value : Json) (written : value.Written) : (Json.map [(tag, value)]).Written :=
    .map (List.pairwise_singleton _ _) fun entry member => by
      rw [List.mem_singleton.mp member]
      exact written
  induction exportable with
  | null levels => exact .null
  | boolean levels value => exact .boolean value
  | number levels value =>
    cases value with
    | finite number => exact .finite number
    | negativeZero => exact .negativeZero
    | infinity negative => exact single _ _ (.string _)
    | nan => exact single _ _ (.string _)
  | string levels value => exact .string value
  | date levels time =>
    refine single _ _ (.list fun part member => ?_)
    rcases List.mem_pair.mp member with rfl | rfl <;> exact .finite _
  | bytes levels value => exact single _ _ (.string _)
  | list each ih =>
    rw [taggedValue, taggedList_eq]
    refine .list fun value member => ?_
    obtain ⟨source, kept, rfl⟩ := List.mem_map.mp member
    exact ih source kept
  | map listed each ih =>
    rename_i levels entries
    have inner : (Json.map (taggedEntries entries)).Written := by
      refine .map (taggedEntries_listed listed) fun entry member => ?_
      rw [taggedEntries_eq] at member
      obtain ⟨source, kept, rfl⟩ := List.mem_map.mp member
      obtain ⟨member, defined⟩ := definedEntries_mem.mp kept
      exact ih source member defined
    rw [taggedValue]
    split
    · exact single _ _ inner
    · exact inner

theorem stringText_encodeBase64 (bytes : List UInt8) :
    stringText (encodeBase64 bytes) = QUOTE :: (encodeBase64 bytes ++ [QUOTE]) := by
  have plain : (PAD :: ALPHABET).all (fun unit => decide (quoteUnit unit = [unit] ∧
      Narsil.Ordering.isHighSurrogate unit = false)) = true := by decide
  exact stringText_plain fun unit member =>
    of_decide_eq_true (List.all_eq_true.mp plain unit (encodeBase64_mem bytes unit member))

theorem tagText_eq {tag : JsString} (plain : stringText tag = QUOTE :: (tag ++ [QUOTE])) (value : Json) :
    (Json.map [(tag, value)]).text = tagText tag value.text := by
  simp [Json.text, Json.entryTexts, joinedParts, plain, tagText]

theorem tags_plain : stringText DATE_TAG = QUOTE :: (DATE_TAG ++ [QUOTE]) ∧
    stringText BYTES_TAG = QUOTE :: (BYTES_TAG ++ [QUOTE]) ∧
    stringText NUMBER_TAG = QUOTE :: (NUMBER_TAG ++ [QUOTE]) ∧
    stringText OBJECT_TAG = QUOTE :: (OBJECT_TAG ++ [QUOTE]) := by decide

theorem encodeNumber_tagged (value : JsNumber) (path docId : JsString) :
    encodeNumber value path { docId, tagged := true } = .ok (taggedValue (.number value)).text := by
  have quoted (text : JsString) (plain : stringText text = QUOTE :: (text ++ [QUOTE])) :
      tagText NUMBER_TAG (QUOTE :: (text ++ [QUOTE])) = (Json.map [(NUMBER_TAG, .string text)]).text := by
    rw [tagText_eq tags_plain.2.2.1, Json.text, plain]
  cases value with
  | finite number => rfl
  | negativeZero => rfl
  | infinity negative =>
    rw [taggedValue, ← quoted _ (by cases negative <;> decide)]
    · rfl
    · simp
    · simp
  | nan =>
    rw [taggedValue, ← quoted _ (by decide)]
    · rfl
    · simp
    · simp

theorem encodeList_tagged {target : JsonLineTarget} {values : List Value}
    (each : ∀ value ∈ values, ∀ path, encodeValue target value path = .ok (taggedValue value).text)
    (path : JsString) (index : ℕ) : encodeList target values path index = .ok (Json.texts (taggedList values)) := by
  induction values generalizing index with
  | nil => rfl
  | cons value values ih =>
    have later := ih (fun other member => each other (List.mem_cons_of_mem _ member)) (index + 1)
    rw [encodeList, each value (List.mem_cons_self ..), later]
    rfl

theorem encodeEntries_tagged {target : JsonLineTarget} {entries : List (JsString × Value)}
    (each : ∀ entry ∈ entries, entry.2.isDefined → ∀ path,
      encodeValue target entry.2 path = .ok (taggedValue entry.2).text) (path : JsString) :
    encodeEntries target entries path = .ok (Json.entryTexts (taggedEntries entries)) := by
  induction entries with
  | nil => rfl
  | cons entry entries ih =>
    obtain ⟨key, value⟩ := entry
    have later := ih fun other member => each other (List.mem_cons_of_mem _ member)
    rw [encodeEntries, taggedEntries, later]
    split
    next defined =>
      rw [each (key, value) (List.mem_cons_self ..) defined]
      rfl
    next => rfl

theorem Exportable.encoded {levels : ℕ} {value : Value} (exportable : Exportable levels value) (docId path : JsString) :
    encodeValue { docId, tagged := true } value path = .ok (taggedValue value).text := by
  induction exportable generalizing path with
  | null levels => rfl
  | boolean levels value => rfl
  | number levels value => exact encodeNumber_tagged value path docId
  | string levels value => rfl
  | date levels time =>
    rw [taggedValue, tagText_eq tags_plain.1]
    simp [encodeValue, encodeDate, Json.text, Json.texts, joinedParts, JsNumber.text, integerNumber]
  | bytes levels value =>
    rw [taggedValue, tagText_eq tags_plain.2.1, Json.text, stringText_encodeBase64]
    rfl
  | list each ih =>
    rw [encodeValue, encodeList_tagged ih]
    rfl
  | map listed each ih =>
    rw [encodeValue, encodeEntries_tagged ih, taggedValue]
    cases tagged : looksTagged _ with
    | true =>
      rw [if_pos rfl, tagText_eq tags_plain.2.2.2]
      rfl
    | false => rfl

theorem integerOf_integerNumber (n : ℤ) (small : |n| < 2 ^ 53) :
    integerOf (.number (.finite (integerNumber n small))) = some n := by
  simp [integerOf, integerNumber]

theorem Time.read_back (time : Time) :
    Binary64.round (Binary64.round (time.seconds * MILLISECONDS_PER_SECOND) +
      Binary64.round (time.nanoseconds / NANOSECONDS_PER_MILLISECOND)) = time.milliseconds := by
  have within := abs_le.mp time.within
  rw [MAX_DATE_MILLISECONDS] at within
  have whole : time.milliseconds = time.seconds * 1000 + time.milliseconds % 1000 := by
    rw [time.seconds_eq]
    omega
  have rest : 0 ≤ time.milliseconds % 1000 ∧ time.milliseconds % 1000 < 1000 := by omega
  have exact_seconds : Binary64.round (time.seconds * MILLISECONDS_PER_SECOND) = ((time.seconds * 1000 : ℤ) : ℚ) := by
    rw [← Binary64.round_intCast (n := time.seconds * 1000) (abs_lt.mpr ⟨by omega, by omega⟩)]
    push_cast
    rfl
  have exact_rest : Binary64.round (time.nanoseconds / NANOSECONDS_PER_MILLISECOND) =
      ((time.milliseconds % 1000 : ℤ) : ℚ) := by
    have quotient : (time.nanoseconds : ℚ) / NANOSECONDS_PER_MILLISECOND = ((time.milliseconds % 1000 : ℤ) : ℚ) := by
      have scaled : time.nanoseconds = time.milliseconds % 1000 * NANOSECONDS_PER_MILLISECOND := by
        rw [Time.nanoseconds, MILLISECONDS_PER_SECOND]
        congr 1
        omega
      rw [scaled, NANOSECONDS_PER_MILLISECOND]
      push_cast
      field_simp
    rw [quotient, Binary64.round_intCast (abs_lt.mpr ⟨by omega, by omega⟩)]
  rw [exact_seconds, exact_rest, ← Int.cast_add, ← whole,
    Binary64.round_intCast (abs_lt.mpr ⟨by omega, by omega⟩)]

theorem timeOf_integer (time : Time) (within : |(time.milliseconds : ℚ)| ≤ MAX_DATE_MILLISECONDS) :
    timeOf time.milliseconds within = time := by
  obtain ⟨milliseconds, bounded⟩ := time
  simp [timeOf]

theorem dateOf_tagged (time : Time) (path : JsString) :
    dateOf (.list [.number (.finite (integerNumber time.seconds time.seconds_small)),
      .number (.finite (integerNumber time.nanoseconds time.nanoseconds_small))]) path = .ok (.date (some time)) := by
  have seconds_safe : |time.seconds| ≤ MAX_SAFE_INTEGER := by
    have small := time.seconds_small
    rw [MAX_SAFE_INTEGER]
    omega
  have within : |(time.milliseconds : ℚ)| ≤ MAX_DATE_MILLISECONDS := by exact_mod_cast time.within
  rw [dateOf]
  simp only [integerOf_integerNumber, Option.filter_some, seconds_safe, time.nanoseconds_within,
    and_self, decide_true, if_true]
  simp only [time.read_back, dif_pos within, timeOf_integer]

theorem requireDepth_ok {depth : ℕ} (path : JsString) (above : depth < MAX_DOCUMENT_NESTING_DEPTH) :
    requireDepth path depth = .ok () := if_neg (Nat.not_le.mpr above)

theorem untagList_tagged {values : List Value} {depth : ℕ}
    (each : ∀ value ∈ values, ∀ path, untag (taggedValue value) path depth = .ok (withoutUndefined value))
    (path : JsString) (index : ℕ) :
    untagList (taggedList values) path index depth = .ok (withoutUndefinedList values) := by
  induction values generalizing index with
  | nil => rfl
  | cons value values ih =>
    have later := ih (fun other member => each other (List.mem_cons_of_mem _ member)) (index + 1)
    rw [taggedList, untagList, each value (List.mem_cons_self ..), later]
    rfl

theorem untagEntries_tagged {entries : List (JsString × Value)} {depth : ℕ}
    (each : ∀ entry ∈ entries, entry.2.isDefined → ∀ path,
      untag (taggedValue entry.2) path depth = .ok (withoutUndefined entry.2)) (path : JsString) :
    untagEntries (taggedEntries entries) path depth = .ok (withoutUndefinedEntries entries) := by
  induction entries with
  | nil => rfl
  | cons entry entries ih =>
    obtain ⟨key, value⟩ := entry
    have later := ih fun other member => each other (List.mem_cons_of_mem _ member)
    rw [taggedEntries, withoutUndefinedEntries]
    split
    next defined =>
      rw [untagEntries, each (key, value) (List.mem_cons_self ..) defined, later]
      rfl
    next => exact later

theorem soleTagKey_tagged {entries : List (JsString × Value)} (untagged : looksTagged entries = false) :
    soleTagKey (taggedEntries entries) = none := by
  rw [taggedEntries_eq]
  unfold looksTagged at untagged
  generalize definedEntries entries = defined at untagged
  rcases defined with _ | ⟨⟨key, value⟩, _ | ⟨next, rest⟩⟩
  · rfl
  · change startsWithTagPrefix key = false at untagged
    exact if_neg (by rw [untagged]; exact Bool.false_ne_true)
  · rfl

theorem Exportable.untagged {levels : ℕ} {value : Value} (exportable : Exportable levels value) (path : JsString)
    {depth : ℕ} (fits : depth + levels ≤ MAX_DOCUMENT_NESTING_DEPTH) :
    untag (taggedValue value) path depth = .ok (withoutUndefined value) := by
  induction exportable generalizing path depth with
  | null levels => rfl
  | boolean levels value => rfl
  | number levels value =>
    cases value with
    | finite number => rfl
    | negativeZero => rfl
    | infinity negative => cases negative <;> rfl
    | nan => rfl
  | string levels value => rfl
  | date levels time => exact dateOf_tagged time path
  | bytes levels value =>
    have decoded := decodeExactBase64_encodeBase64 value
    change bytesOf (.string (encodeBase64 value)) path = _
    rw [bytesOf, decoded]
    rfl
  | list each ih =>
    rw [taggedValue, untag, requireDepth_ok path (by omega),
      untagList_tagged fun value member path => ih value member path (by omega)]
    rfl
  | map listed each ih =>
    rename_i levels entries
    have depth_ok := requireDepth_ok path (show depth < MAX_DOCUMENT_NESTING_DEPTH by omega)
    have members := @untagEntries_tagged entries (depth + 1)
      (fun entry member defined path => ih entry member defined path (by omega)) path
    rw [taggedValue]
    cases tagged : looksTagged entries with
    | true =>
      change untagTag OBJECT_TAG (.map (taggedEntries entries)) path depth = _
      have tags : OBJECT_TAG ≠ DATE_TAG ∧ OBJECT_TAG ≠ BYTES_TAG ∧ OBJECT_TAG ≠ NUMBER_TAG := by decide
      simp only [untagTag, if_neg tags.1, if_neg tags.2.1, if_neg tags.2.2, if_true, depth_ok, members]
      rfl
    | false =>
      simp only [Bool.false_eq_true, if_false, untag, soleTagKey_tagged tagged, depth_ok, members]
      rfl

theorem mem_joinedParts {parts : List JsString} {part : JsString} (member : part ∈ parts) :
    part <:+: joinedParts parts := by
  induction parts with
  | nil => cases member
  | cons first parts ih =>
    cases parts with
    | nil =>
      rw [List.mem_singleton.mp member]
      exact List.infix_rfl
    | cons next parts =>
      have shape : joinedParts (first :: next :: parts) = first ++ COMMA :: joinedParts (next :: parts) := rfl
      rw [shape]
      rcases List.mem_cons.mp member with rfl | later
      · exact (List.prefix_append _ _).isInfix
      · exact (ih later).trans ((List.suffix_cons COMMA _).trans (List.suffix_append _ _)).isInfix

theorem text_infix_list {values : List Json} {value : Json} (member : value ∈ values) :
    value.text <:+: (Json.list values).text := by
  have part : value.text ∈ Json.texts values := by
    induction values with
    | nil => cases member
    | cons first values ih =>
      rcases List.mem_cons.mp member with rfl | later
      · exact List.mem_cons_self ..
      · exact List.mem_cons_of_mem _ (ih later)
  have inside : joinedParts (Json.texts values) <:+: (Json.list values).text :=
    ⟨[OPEN_LIST], [CLOSE_LIST], by simp [Json.text]⟩
  exact (mem_joinedParts part).trans inside

theorem text_infix_map {entries : List (JsString × Json)} {entry : JsString × Json} (member : entry ∈ entries) :
    entry.2.text <:+: (Json.map entries).text := by
  have part : stringText entry.1 ++ COLON :: entry.2.text ∈ Json.entryTexts entries := by
    induction entries with
    | nil => cases member
    | cons first entries ih =>
      rcases List.mem_cons.mp member with rfl | later
      · exact List.mem_cons_self ..
      · exact List.mem_cons_of_mem _ (ih later)
  have inside : joinedParts (Json.entryTexts entries) <:+: (Json.map entries).text :=
    ⟨[OPEN_MAP], [CLOSE_MAP], by simp [Json.text]⟩
  have value : entry.2.text <:+: stringText entry.1 ++ COLON :: entry.2.text :=
    ((List.suffix_cons COLON _).trans (List.suffix_append _ _)).isInfix
  exact (value.trans (mem_joinedParts part)).trans inside

theorem tag_shows {tag : JsString} (plain : stringText tag = QUOTE :: (tag ++ [QUOTE]))
    (begins : tag.head? = some TAG_PREFIX) (value : Json) :
    [QUOTE, TAG_PREFIX] <:+: (Json.map [(tag, value)]).text := by
  rw [tagText_eq plain, tagText]
  cases tag with
  | nil => cases begins
  | cons first rest =>
    obtain rfl := Option.some.inj begins
    exact ⟨[OPEN_MAP], rest ++ QUOTE :: COLON :: (value.text ++ [CLOSE_MAP]), by simp⟩

theorem plainList_tagged {values : List Value}
    (each : ∀ value ∈ values, plainValue (taggedValue value) = withoutUndefined value) :
    plainList (taggedList values) = withoutUndefinedList values := by
  induction values with
  | nil => rfl
  | cons value values ih =>
    rw [taggedList, plainList, each value (List.mem_cons_self ..),
      ih fun other member => each other (List.mem_cons_of_mem _ member)]
    rfl

theorem plainEntries_tagged {entries : List (JsString × Value)}
    (each : ∀ entry ∈ entries, entry.2.isDefined → plainValue (taggedValue entry.2) = withoutUndefined entry.2) :
    plainEntries (taggedEntries entries) = withoutUndefinedEntries entries := by
  induction entries with
  | nil => rfl
  | cons entry entries ih =>
    obtain ⟨key, value⟩ := entry
    have later := ih fun other member => each other (List.mem_cons_of_mem _ member)
    rw [taggedEntries, withoutUndefinedEntries]
    split
    next defined =>
      rw [plainEntries, each (key, value) (List.mem_cons_self ..) defined, later]
    next => exact later

theorem Exportable.plain {levels : ℕ} {value : Value} (exportable : Exportable levels value)
    (untagged : ¬ [QUOTE, TAG_PREFIX] <:+: (taggedValue value).text) :
    plainValue (taggedValue value) = withoutUndefined value := by
  induction exportable with
  | null levels => rfl
  | boolean levels value => rfl
  | number levels value =>
    cases value with
    | finite number => rfl
    | negativeZero => rfl
    | infinity negative => exact absurd (tag_shows tags_plain.2.2.1 rfl _) untagged
    | nan => exact absurd (tag_shows tags_plain.2.2.1 rfl _) untagged
  | string levels value => rfl
  | date levels time => exact absurd (tag_shows tags_plain.1 rfl _) untagged
  | bytes levels value => exact absurd (tag_shows tags_plain.2.1 rfl _) untagged
  | list each ih =>
    rename_i levels values
    have inner := plainList_tagged fun value member => ih value member fun shows => untagged
      (shows.trans (text_infix_list (by rw [taggedList_eq]; exact List.mem_map_of_mem member)))
    rw [taggedValue, plainValue, inner]
    rfl
  | map listed each ih =>
    rename_i levels entries
    rw [taggedValue] at untagged ⊢
    cases tagged : looksTagged entries with
    | true =>
      rw [tagged, if_pos rfl] at untagged
      exact absurd (tag_shows tags_plain.2.2.2 rfl _) untagged
    | false =>
      simp only [tagged, Bool.false_eq_true, if_false] at untagged ⊢
      have inner := plainEntries_tagged fun entry member defined => ih entry member defined fun shows => untagged
        (shows.trans (@text_infix_map _ (entry.1, taggedValue entry.2) (by
          rw [taggedEntries_eq]
          exact List.mem_map_of_mem (f := fun entry => (entry.1, taggedValue entry.2))
            (definedEntries_mem.mpr ⟨member, defined⟩))))
      rw [plainValue, inner]
      rfl

theorem untagDocumentLine_written {levels : ℕ} {document : List (JsString × Value)}
    (exportable : Exportable (levels + 1) (.map document)) (fits : levels < MAX_DOCUMENT_NESTING_DEPTH)
    (unwrapped : looksTagged document = false) :
    untagDocumentLine (taggedValue (.map document)).text (taggedEntries document) =
      .ok (withoutUndefinedEntries document) := by
  have tree : taggedValue (.map document) = .map (taggedEntries document) := by
    rw [taggedValue, unwrapped]
    rfl
  rw [untagDocumentLine]
  split
  next no_tag =>
    have plain := exportable.plain no_tag.1
    rw [tree, plainValue, withoutUndefined, Value.map.injEq] at plain
    rw [plain]
  next =>
    have untagged := exportable.untagged [] (show 0 + (levels + 1) ≤ MAX_DOCUMENT_NESTING_DEPTH by omega)
    rw [tree, untag, soleTagKey_tagged unwrapped] at untagged
    have depth_ok := requireDepth_ok [] (show 0 < MAX_DOCUMENT_NESTING_DEPTH by decide)
    rw [untagMap, depth_ok]
    simp only [depth_ok, withoutUndefined] at untagged
    cases members : untagEntries (taggedEntries document) [] (0 + 1) with
    | error refusal =>
      rw [members] at untagged
      cases untagged
    | ok entries =>
      rw [members] at untagged
      obtain rfl : entries = withoutUndefinedEntries document := by
        injection untagged with same
        injection same
      rfl

/-- Documents come back from their lines, the lines do not depend on how the bytes are cut,
and untagging ends with a document or a refusal. -/
theorem untagDocumentLine_encodeDocumentJson {document : List (JsString × Value)}
    (exportable : Exportable MAX_DOCUMENT_NESTING_DEPTH (.map document)) (unwrapped : looksTagged document = false)
    (docId : JsString) :
    (∃ line parsed, encodeDocumentJson document docId = .ok line ∧ parseJson line = some (.map parsed) ∧
      untagDocumentLine line parsed = .ok (withoutUndefinedEntries document)) ∧
    (∀ decode maxLineBytes chunks others, chunks.flatten = others.flatten →
      exportLines decode maxLineBytes chunks = exportLines decode maxLineBytes others) ∧
    ∀ text parsed, (∃ untagged, untagDocumentLine text parsed = .ok untagged) ∨
      ∃ refusal, untagDocumentLine text parsed = .error refusal := by
  refine ⟨?_, ?_, ?_⟩
  · have tree : taggedValue (.map document) = .map (taggedEntries document) := by
      rw [taggedValue, unwrapped]
      rfl
    have written := exportable.written
    have read := untagDocumentLine_written exportable (by decide) unwrapped
    refine ⟨_, taggedEntries document, exportable.encoded docId [], ?_, read⟩
    rw [parseJson_text written, tree]
  · intro decode maxLineBytes chunks others same
    rw [exportLines_eq, exportLines_eq, same]
  · intro text parsed
    cases untagDocumentLine text parsed with
    | ok untagged => exact .inl ⟨untagged, rfl⟩
    | error refusal => exact .inr ⟨refusal, rfl⟩

/-- A map whose only key looks like a tag, a lone surrogate, numbers JSON lacks, a date
before 1970, bytes and an entry without a value. -/
def mixedDocument : List (JsString × Value) :=
  [(ascii "7", .string [0xd800]), (ascii "id", .string (ascii "a")),
    (ascii "nested", .map [(ascii "$date", .list [.number .nan, .number .negativeZero])]),
    (ascii "gone", .undefined), (ascii "at", .date (some ⟨-1, by decide⟩)), (ascii "raw", .bytes [1, 2])]

theorem mixedDocument_exportable : Exportable MAX_DOCUMENT_NESTING_DEPTH (.map mixedDocument) := by
  refine .map (by unfold Listed; decide) fun entry member defined => ?_
  simp only [mixedDocument, List.mem_cons, List.not_mem_nil, or_false] at member
  rcases member with rfl | rfl | rfl | rfl | rfl | rfl
  · exact .string _ _
  · exact .string _ _
  · refine .map (List.pairwise_singleton _ _) fun inner member _ => ?_
    rw [List.mem_singleton.mp member]
    refine .list fun value member => ?_
    rcases List.mem_pair.mp member with rfl | rfl <;> exact .number _ _
  · cases defined
  · exact .date _ _
  · exact .bytes _ _

theorem untagDocumentLine_encodeDocumentJson_mixed :
    (∃ line parsed, encodeDocumentJson mixedDocument (ascii "a") = .ok line ∧ parseJson line = some (.map parsed) ∧
      untagDocumentLine line parsed = .ok (withoutUndefinedEntries mixedDocument)) ∧
    (∀ decode maxLineBytes chunks others, chunks.flatten = others.flatten →
      exportLines decode maxLineBytes chunks = exportLines decode maxLineBytes others) ∧
    ∀ text parsed, (∃ untagged, untagDocumentLine text parsed = .ok untagged) ∨
      ∃ refusal, untagDocumentLine text parsed = .error refusal :=
  untagDocumentLine_encodeDocumentJson mixedDocument_exportable rfl (ascii "a")

/-- A document that looks like a tag is wrapped, and its line is refused; a list with a
value that is not defined has no line. -/
theorem untagDocumentLine_rootTag :
    (∃ line parsed refusal, encodeDocumentJson [(ascii "$x", .null)] (ascii "a") = .ok line ∧
      parseJson line = some (.map parsed) ∧ untagDocumentLine line parsed = .error refusal) ∧
    ∃ refusal, encodeDocumentJson [(ascii "id", .string (ascii "a")), (ascii "list", .list [.undefined])] (ascii "a") =
      .error refusal := by
  have exportable : Exportable 1 (.map [(ascii "$x", .null)]) :=
    .map (List.pairwise_singleton _ _) fun entry member _ => by
      rw [List.mem_singleton.mp member]
      exact .null 0
  exact ⟨⟨_, [(OBJECT_TAG, .map [(ascii "$x", .null)])], _, exportable.encoded _ _, parseJson_text exportable.written,
    rfl⟩, _, rfl⟩

end Narsil.Export
