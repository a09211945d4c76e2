import Mathlib.Data.List.TakeWhile
import Narsil.Serialization.JsonNumber

/-!
# JSON texts

`JSON.stringify` of strings, the compact text of a value, and `JSON.parse`. What is written
is read back, whatever follows it.
-/
namespace Narsil.Serialization

open Narsil.Ordering (JsString ascii isHighSurrogate isLowSurrogate)

def QUOTE : UInt16 := 0x22
def BACKSLASH : UInt16 := 0x5c
def COMMA : UInt16 := 0x2c
def COLON : UInt16 := 0x3a
def OPEN_LIST : UInt16 := 0x5b
def CLOSE_LIST : UInt16 := 0x5d
def OPEN_MAP : UInt16 := 0x7b
def CLOSE_MAP : UInt16 := 0x7d
def UNICODE : UInt16 := 0x75

def hexUnit (digit : ℕ) : UInt16 := if digit < 10 then .ofNat (0x30 + digit) else .ofNat (0x57 + digit)

/-- `\\u` and four hexadecimal digits in lower case. -/
def unicodeEscape (unit : UInt16) : JsString :=
  [BACKSLASH, UNICODE, hexUnit (unit.toNat / 4096), hexUnit (unit.toNat / 256 % 16), hexUnit (unit.toNat / 16 % 16),
    hexUnit (unit.toNat % 16)]

/-- The units that have an escape of one letter, with that letter. -/
def SHORT_ESCAPES : List (UInt16 × UInt16) :=
  [(0x08, 0x62), (0x09, 0x74), (0x0a, 0x6e), (0x0c, 0x66), (0x0d, 0x72), (QUOTE, QUOTE), (BACKSLASH, BACKSLASH)]

/-- A unit that is no half of a pair. -/
def quoteUnit (unit : UInt16) : JsString :=
  match SHORT_ESCAPES.find? fun escape => escape.1 = unit with
  | some escape => [BACKSLASH, escape.2]
  | none => if unit < 0x20 ∨ isHighSurrogate unit ∨ isLowSurrogate unit then unicodeEscape unit else [unit]

/-- A surrogate without its pair is written as an escape. -/
def quoteUnits : JsString → JsString
  | [] => []
  | [unit] => quoteUnit unit
  | unit :: low :: rest =>
    if isHighSurrogate unit && isLowSurrogate low then unit :: low :: quoteUnits rest
    else quoteUnit unit ++ quoteUnits (low :: rest)

/-- `JSON.stringify` of a string. -/
def stringText (value : JsString) : JsString := QUOTE :: (quoteUnits value ++ [QUOTE])

def hexOf (unit : UInt16) : Option ℕ :=
  if 0x30 ≤ unit ∧ unit ≤ 0x39 then some (unit.toNat - 0x30)
  else if 0x61 ≤ unit ∧ unit ≤ 0x66 then some (unit.toNat - 0x57)
  else if 0x41 ≤ unit ∧ unit ≤ 0x46 then some (unit.toNat - 0x37)
  else none

/-- The unit that a letter after a backslash stands for. -/
def shortEscapeOf (letter : UInt16) : Option UInt16 :=
  if letter = 0x2f then some 0x2f
  else (SHORT_ESCAPES.find? fun escape => escape.2 = letter).map Prod.fst

/-- The units of a string up to its closing quote. -/
def readString : JsString → Option (JsString × JsString)
  | [] => none
  | unit :: rest =>
    if unit = QUOTE then some ([], rest)
    else if unit = BACKSLASH then
      match rest with
      | [] => none
      | letter :: rest =>
        if letter = UNICODE then
          match rest with
          | a :: b :: c :: d :: rest => do
            let unit := (← hexOf a) * 4096 + (← hexOf b) * 256 + (← hexOf c) * 16 + (← hexOf d)
            let (units, rest) ← readString rest
            return (.ofNat unit :: units, rest)
          | _ => none
        else do
          let unit ← shortEscapeOf letter
          let (units, rest) ← readString rest
          return (unit :: units, rest)
    else if unit < 0x20 then none
    else do
      let (units, rest) ← readString rest
      return (unit :: units, rest)

theorem hexOf_hexUnit {digit : ℕ} (small : digit < 16) : hexOf (hexUnit digit) = some digit := by
  have table : ∀ digit < 16, hexOf (hexUnit digit) = some digit := by decide
  exact table digit small

theorem readString_quote (rest : JsString) : readString (QUOTE :: rest) = some ([], rest) := by
  rw [readString.eq_def]
  exact if_pos rfl

theorem readString_letter {letter unit : UInt16} (other : letter ≠ UNICODE) (short : shortEscapeOf letter = some unit)
    (rest : JsString) : readString (BACKSLASH :: letter :: rest) =
      (readString rest).map fun (units, rest) => (unit :: units, rest) := by
  have not_quote : BACKSLASH ≠ QUOTE := by decide
  rw [readString.eq_def]
  simp only [if_neg not_quote, if_true, if_neg other, short, Option.bind_eq_bind, Option.bind_some]
  cases readString rest <;> rfl

theorem readString_escape (unit : UInt16) (rest : JsString) :
    readString (unicodeEscape unit ++ rest) = (readString rest).map fun (units, rest) => (unit :: units, rest) := by
  have bound := unit.toNat_lt
  have joined : unit.toNat / 4096 * 4096 + unit.toNat / 256 % 16 * 256 + unit.toNat / 16 % 16 * 16 +
      unit.toNat % 16 = unit.toNat := by omega
  have not_quote : BACKSLASH ≠ QUOTE := by decide
  rw [unicodeEscape, readString.eq_def]
  simp only [List.cons_append, List.nil_append, if_neg not_quote, if_true,
    hexOf_hexUnit (show unit.toNat / 4096 < 16 by omega), hexOf_hexUnit (show unit.toNat / 256 % 16 < 16 by omega),
    hexOf_hexUnit (show unit.toNat / 16 % 16 < 16 by omega), hexOf_hexUnit (show unit.toNat % 16 < 16 by omega),
    Option.bind_eq_bind, Option.bind_some, joined, UInt16.ofNat_toNat]
  cases readString rest <;> rfl

theorem readString_plain {unit : UInt16} (quote : unit ≠ QUOTE) (backslash : unit ≠ BACKSLASH) (above : ¬ unit < 0x20)
    (rest : JsString) :
    readString (unit :: rest) = (readString rest).map fun (units, rest) => (unit :: units, rest) := by
  rw [readString.eq_def]
  simp only [if_neg quote, if_neg backslash, if_neg above, Option.bind_eq_bind]
  cases readString rest <;> rfl

theorem readString_quoteUnit (unit : UInt16) (rest : JsString) :
    readString (quoteUnit unit ++ rest) = (readString rest).map fun (units, rest) => (unit :: units, rest) := by
  rw [quoteUnit]
  split
  next escape found =>
    have listed : (escape.1, escape.2) ∈ SHORT_ESCAPES := List.mem_of_find?_eq_some found
    obtain rfl : escape.1 = unit := by simpa using List.find?_some found
    have reads : SHORT_ESCAPES.all (fun escape => decide (shortEscapeOf escape.2 = some escape.1 ∧ escape.2 ≠ UNICODE)) = true := by
      decide
    obtain ⟨short, letter⟩ := of_decide_eq_true (List.all_eq_true.mp reads _ listed)
    exact readString_letter letter short rest
  next missing =>
    split
    · exact readString_escape unit rest
    next plain =>
      rw [List.find?_eq_none] at missing
      have quote := missing (QUOTE, QUOTE) (by decide)
      have backslash := missing (BACKSLASH, BACKSLASH) (by decide)
      simp only [decide_eq_true_eq] at quote backslash
      exact readString_plain (Ne.symm quote) (Ne.symm backslash) (fun below => plain (.inl below)) rest

theorem surrogate_plain {unit : UInt16} (surrogate : isHighSurrogate unit ∨ isLowSurrogate unit) :
    unit ≠ QUOTE ∧ unit ≠ BACKSLASH ∧ ¬ unit < 0x20 := by
  have above : 0xd800 ≤ unit.toNat := by
    simp only [isHighSurrogate, isLowSurrogate, Bool.and_eq_true, decide_eq_true_eq, UInt16.le_iff_toNat_le,
      UInt16.lt_iff_toNat_lt, UInt16.reduceToNat] at surrogate
    omega
  refine ⟨?_, ?_, ?_⟩
  · rintro rfl
    exact absurd above (by decide)
  · rintro rfl
    exact absurd above (by decide)
  · rw [UInt16.lt_iff_toNat_lt]
    change ¬ unit.toNat < 0x20
    omega

theorem readString_quoteUnits (value rest : JsString) :
    readString (quoteUnits value ++ QUOTE :: rest) = some (value, rest) := by
  induction value using quoteUnits.induct with
  | case1 => exact readString_quote rest
  | case2 unit => simp [quoteUnits, readString_quoteUnit, readString_quote]
  | case3 unit low more pair ih =>
    rw [Bool.and_eq_true] at pair
    obtain ⟨high_quote, high_backslash, high_above⟩ := surrogate_plain (.inl pair.1)
    obtain ⟨low_quote, low_backslash, low_above⟩ := surrogate_plain (.inr pair.2)
    rw [quoteUnits, if_pos (by rw [pair.1, pair.2]; rfl), List.cons_append, List.cons_append,
      readString_plain high_quote high_backslash high_above, readString_plain low_quote low_backslash low_above, ih]
    rfl
  | case4 unit low more single ih =>
    rw [quoteUnits, if_neg single, List.append_assoc, readString_quoteUnit, ih]
    rfl

theorem stringText_plain {value : JsString}
    (plain : ∀ unit ∈ value, quoteUnit unit = [unit] ∧ isHighSurrogate unit = false) :
    stringText value = QUOTE :: (value ++ [QUOTE]) := by
  suffices same : quoteUnits value = value by rw [stringText, same]
  induction value using quoteUnits.induct with
  | case1 => rfl
  | case2 unit => exact (plain unit (List.mem_singleton_self unit)).1
  | case3 unit low rest pair ih =>
    rw [(plain unit (List.mem_cons_self ..)).2] at pair
    cases pair
  | case4 unit low rest single ih =>
    rw [quoteUnits, if_neg single, (plain unit (List.mem_cons_self ..)).1,
      ih fun other member => plain other (List.mem_cons_of_mem _ member)]
    rfl

inductive Json where
  | null
  | boolean (value : Bool)
  | number (value : JsNumber)
  | string (value : JsString)
  | list (values : List Json)
  | map (entries : List (JsString × Json))

/-- The number of a key that is an array index. -/
def arrayIndex (key : JsString) : Option ℕ :=
  let (digits, rest) := readDigits key
  if rest = [] ∧ digits ≠ [] ∧ (digits = [0] ∨ digits.head? ≠ some 0) ∧ Decimal.value digits < 2 ^ 32 - 1 then
    some (Decimal.value digits)
  else none

/-- The order of the keys of an object: array indexes first, in ascending order, and the
others as they came. -/
def precedes (key other : JsString) : Bool :=
  match arrayIndex key, arrayIndex other with
  | some index, some otherIndex => index < otherIndex
  | some _, none => true
  | none, some _ => false
  | none, none => true

/-- A key that is there keeps its place. -/
def setProperty {ν : Type} (entries : List (JsString × ν)) (member : JsString × ν) : List (JsString × ν) :=
  if member.1 ∈ entries.map Prod.fst then
    entries.map fun entry => if entry.1 = member.1 then member else entry
  else
    entries.takeWhile (fun entry => precedes entry.1 member.1) ++
      member :: entries.dropWhile fun entry => precedes entry.1 member.1

def objectOf {ν : Type} (members : List (JsString × ν)) : List (JsString × ν) := members.foldl setProperty []

/-- The entries of an object, in the order of its keys. -/
def Listed {ν : Type} (entries : List (JsString × ν)) : Prop :=
  entries.Pairwise fun entry later => precedes entry.1 later.1 ∧ entry.1 ≠ later.1

def joinedParts : List JsString → JsString
  | [] => []
  | [part] => part
  | part :: parts => part ++ COMMA :: joinedParts parts

/-- The text of a finite number, with the sign of a negative zero. -/
def JsNumber.text : JsNumber → JsString
  | .finite number => numberText number.value
  | .negativeZero => ascii "-0"
  | .infinity negative => ascii (if negative then "-Infinity" else "Infinity")
  | .nan => ascii "NaN"

mutual

def Json.text : Json → JsString
  | .null => ascii "null"
  | .boolean value => ascii (if value then "true" else "false")
  | .number value => value.text
  | .string value => stringText value
  | .list values => OPEN_LIST :: (joinedParts (Json.texts values) ++ [CLOSE_LIST])
  | .map entries => OPEN_MAP :: (joinedParts (Json.entryTexts entries) ++ [CLOSE_MAP])

def Json.texts : List Json → List JsString
  | [] => []
  | value :: values => value.text :: Json.texts values

def Json.entryTexts : List (JsString × Json) → List JsString
  | [] => []
  | (key, value) :: entries => (stringText key ++ COLON :: value.text) :: Json.entryTexts entries

end

def isSpace (unit : UInt16) : Bool := unit = 0x20 || unit = 0x09 || unit = 0x0a || unit = 0x0d

def skipSpaces (text : JsString) : JsString := text.dropWhile isSpace

def readWord (word : JsString) (value : Json) (text : JsString) : Option (Json × JsString) :=
  if word <+: text then some (value, text.drop word.length) else none

def readScalar (text : JsString) : Option (Json × JsString) :=
  readWord (ascii "null") .null text <|> readWord (ascii "true") (.boolean true) text <|>
    readWord (ascii "false") (.boolean false) text <|>
    (parseNumber text).map fun (value, rest) => (.number value, rest)

mutual

def parseValue : ℕ → JsString → Option (Json × JsString)
  | 0, _ => none
  | fuel + 1, text =>
    match skipSpaces text with
    | [] => none
    | unit :: rest =>
      if unit = QUOTE then (readString rest).map fun (value, rest) => (.string value, rest)
      else if unit = OPEN_LIST then
        if (skipSpaces rest).head? = some CLOSE_LIST then some (.list [], (skipSpaces rest).tail)
        else (parseItems fuel rest).map fun (values, rest) => (.list values, rest)
      else if unit = OPEN_MAP then
        if (skipSpaces rest).head? = some CLOSE_MAP then some (.map [], (skipSpaces rest).tail)
        else (parseMembers fuel rest).map fun (members, rest) => (.map (objectOf members), rest)
      else readScalar (unit :: rest)

/-- The values of a list and its closing bracket. -/
def parseItems : ℕ → JsString → Option (List Json × JsString)
  | 0, _ => none
  | fuel + 1, text => do
    let (value, rest) ← parseValue fuel text
    match skipSpaces rest with
    | [] => none
    | unit :: rest =>
      if unit = COMMA then do
        let (values, rest) ← parseItems fuel rest
        return (value :: values, rest)
      else if unit = CLOSE_LIST then return ([value], rest)
      else none

/-- The members of a map and its closing brace. -/
def parseMembers : ℕ → JsString → Option (List (JsString × Json) × JsString)
  | 0, _ => none
  | fuel + 1, text => do
    let quoted ← if (skipSpaces text).head? = some QUOTE then some (skipSpaces text).tail else none
    let (key, rest) ← readString quoted
    let after ← if (skipSpaces rest).head? = some COLON then some (skipSpaces rest).tail else none
    let (value, rest) ← parseValue fuel after
    match skipSpaces rest with
    | [] => none
    | unit :: rest =>
      if unit = COMMA then do
        let (members, rest) ← parseMembers fuel rest
        return ((key, value) :: members, rest)
      else if unit = CLOSE_MAP then return ([(key, value)], rest)
      else none

end

/-- `JSON.parse`. Each level of a text takes a unit, and two steps. -/
def parseJson (text : JsString) : Option Json :=
  match parseValue (2 * text.length + 2) text with
  | some (value, rest) => if skipSpaces rest = [] then some value else none
  | none => none

theorem setProperty_listed {ν : Type} {entries : List (JsString × ν)} {member : JsString × ν}
    (listed : Listed (entries ++ [member])) : setProperty entries member = entries ++ [member] := by
  have before : ∀ entry ∈ entries, precedes entry.1 member.1 ∧ entry.1 ≠ member.1 := fun entry kept =>
    (List.pairwise_append.mp listed).2.2 entry kept member (List.mem_singleton_self member)
  have new : member.1 ∉ entries.map Prod.fst := by
    intro taken
    obtain ⟨entry, kept, same⟩ := List.mem_map.mp taken
    exact (before entry kept).2 same
  have all_before : ∀ entry ∈ entries, precedes entry.1 member.1 = true := fun entry kept => (before entry kept).1
  rw [setProperty, if_neg new, List.takeWhile_eq_self_iff.mpr all_before, List.dropWhile_eq_nil_iff.mpr all_before]

theorem objectOf_listed {ν : Type} {entries : List (JsString × ν)} (listed : Listed entries) :
    objectOf entries = entries := by
  suffices from_there : ∀ done todo : List (JsString × ν), Listed (done ++ todo) →
      todo.foldl setProperty done = done ++ todo from from_there [] entries listed
  intro done todo listed
  induction todo generalizing done with
  | nil => exact (List.append_nil done).symm
  | cons member todo ih =>
    rw [List.append_cons] at listed ⊢
    rw [List.foldl_cons, setProperty_listed (List.Pairwise.sublist (List.sublist_append_left _ _) listed)]
    exact ih _ listed

/-- What has a text in JSON: finite numbers, and maps with their keys in order. -/
inductive Json.Written : Json → Prop where
  | null : Written .null
  | boolean (value : Bool) : Written (.boolean value)
  | finite (number : Double) : Written (.number (.finite number))
  | negativeZero : Written (.number .negativeZero)
  | string (value : JsString) : Written (.string value)
  | list {values : List Json} (each : ∀ value ∈ values, Written value) : Written (.list values)
  | map {entries : List (JsString × Json)} (listed : Listed entries) (each : ∀ entry ∈ entries, Written entry.2) :
    Written (.map entries)

def StartsNumber (unit : UInt16) : Prop := unit = MINUS ∨ ∃ digit < 10, unit = digitUnit digit

theorem NumberLiteral.Valid.text_head {literal : NumberLiteral} (valid : literal.Valid) :
    ∃ unit rest, literal.text = unit :: rest ∧ StartsNumber unit := by
  obtain ⟨negative, whole, fraction, exponent⟩ := literal
  obtain ⟨decimal, canonical, -⟩ := valid
  cases negative with
  | true => exact ⟨MINUS, _, rfl, .inl rfl⟩
  | false =>
    cases whole with
    | nil => exact absurd rfl canonical.ne_nil
    | cons digit digits =>
      exact ⟨digitUnit digit, _, rfl, .inr ⟨digit, decimal digit (List.mem_cons_self ..), rfl⟩⟩

theorem startsNumber_other {unit : UInt16} (starts : StartsNumber unit) :
    unit ≠ QUOTE ∧ unit ≠ OPEN_LIST ∧ unit ≠ OPEN_MAP ∧ unit ≠ CLOSE_LIST ∧ isSpace unit = false ∧
      unit ≠ 0x6e ∧ unit ≠ 0x74 ∧ unit ≠ 0x66 := by
  rcases starts with rfl | ⟨digit, small, rfl⟩
  · decide
  · have table : ∀ digit < 10, digitUnit digit ≠ QUOTE ∧ digitUnit digit ≠ OPEN_LIST ∧ digitUnit digit ≠ OPEN_MAP ∧
        digitUnit digit ≠ CLOSE_LIST ∧ isSpace (digitUnit digit) = false ∧ digitUnit digit ≠ 0x6e ∧
        digitUnit digit ≠ 0x74 ∧ digitUnit digit ≠ 0x66 := by decide
    exact table digit small

theorem skipSpaces_cons {unit : UInt16} (other : isSpace unit = false) (rest : JsString) :
    skipSpaces (unit :: rest) = unit :: rest := by
  rw [skipSpaces, List.dropWhile_cons_of_neg (by rw [other]; exact Bool.false_ne_true)]

theorem readWord_append (word : JsString) (value : Json) (rest : JsString) :
    readWord word value (word ++ rest) = some (value, rest) := by
  rw [readWord, if_pos (List.prefix_append word rest), List.drop_left]

theorem readWord_none {word : JsString} {first unit : UInt16} {letters : JsString} (shape : word = first :: letters)
    (other : unit ≠ first) (value : Json) (text : JsString) : readWord word value (unit :: text) = none := by
  rw [readWord, if_neg]
  rw [shape, List.cons_prefix_cons]
  exact fun found => other found.1.symm

theorem parseValue_scalar {unit : UInt16} (space : isSpace unit = false)
    (other : unit ≠ QUOTE ∧ unit ≠ OPEN_LIST ∧ unit ≠ OPEN_MAP) (fuel : ℕ) (rest : JsString) :
    parseValue (fuel + 1) (unit :: rest) = readScalar (unit :: rest) := by
  rw [parseValue, skipSpaces_cons space]
  simp only [if_neg other.1, if_neg other.2.1, if_neg other.2.2]

theorem parseValue_number {unit : UInt16} (starts : StartsNumber unit) {text rest : JsString} {value : JsNumber}
    (parsed : parseNumber (unit :: text) = some (value, rest)) (fuel : ℕ) :
    parseValue (fuel + 1) (unit :: text) = some (.number value, rest) := by
  obtain ⟨quote, list, map, -, space, null_word, true_word, false_word⟩ := startsNumber_other starts
  have null_less := readWord_none (show ascii "null" = 0x6e :: ascii "ull" from rfl) null_word .null text
  have true_less := readWord_none (show ascii "true" = 0x74 :: ascii "rue" from rfl) true_word (.boolean true) text
  have false_less := readWord_none (show ascii "false" = 0x66 :: ascii "alse" from rfl) false_word (.boolean false) text
  rw [parseValue_scalar space ⟨quote, list, map⟩, readScalar, null_less, true_less, false_less, parsed]
  rfl

theorem Json.Written.head {value : Json} (written : value.Written) :
    ∃ unit rest, value.text = unit :: rest ∧ isSpace unit = false ∧ unit ≠ CLOSE_LIST := by
  cases written with
  | null => exact ⟨_, _, rfl, by decide⟩
  | boolean value => cases value <;> exact ⟨_, _, rfl, by decide⟩
  | finite number =>
    obtain ⟨unit, rest, shape, starts⟩ := (numberLiteral_valid number).text_head
    obtain ⟨-, -, -, close, space, -⟩ := startsNumber_other starts
    exact ⟨unit, rest, shape, space, close⟩
  | negativeZero => exact ⟨_, _, rfl, by decide⟩
  | string value => exact ⟨QUOTE, _, rfl, by decide⟩
  | list each => exact ⟨OPEN_LIST, _, rfl, by decide⟩
  | map listed each => exact ⟨OPEN_MAP, _, rfl, by decide⟩

/-- What one value's text gives, whatever follows it that goes on with no number. -/
def ReadsAs (value : Json) : Prop :=
  ∀ fuel rest, EndsNumber rest → 2 * value.text.length ≤ fuel →
    parseValue fuel (value.text ++ rest) = some (value, rest)

theorem endsNumber_cons {unit : UInt16} (ends : unit = COMMA ∨ unit = CLOSE_LIST ∨ unit = CLOSE_MAP) (rest : JsString) :
    EndsNumber (unit :: rest) := by
  intro head same
  obtain rfl := Option.some.inj same
  rcases ends with rfl | rfl | rfl <;> decide

theorem parseItems_texts {values : List Json} (nonempty : values ≠ []) (reads : ∀ value ∈ values, ReadsAs value)
    (fuel : ℕ) (rest : JsString) (enough : 2 * (joinedParts (Json.texts values)).length + 1 ≤ fuel) :
    parseItems fuel (joinedParts (Json.texts values) ++ CLOSE_LIST :: rest) = some (values, rest) := by
  induction values generalizing fuel with
  | nil => exact absurd rfl nonempty
  | cons value values ih =>
    obtain ⟨fuel, rfl⟩ : ∃ less, fuel = less + 1 := ⟨fuel - 1, by omega⟩
    have first := reads value (List.mem_cons_self ..)
    cases values with
    | nil =>
      simp only [Json.texts, joinedParts] at enough ⊢
      rw [parseItems, first fuel _ (endsNumber_cons (.inr (.inl rfl)) rest) (by omega)]
      rfl
    | cons next values =>
      have shape : joinedParts (Json.texts (value :: next :: values)) =
          value.text ++ COMMA :: joinedParts (Json.texts (next :: values)) := rfl
      rw [shape, List.length_append, List.length_cons] at enough
      have later := ih (List.cons_ne_nil _ _) (fun other member => reads other (List.mem_cons_of_mem _ member)) fuel
        (by omega)
      rw [shape, List.append_assoc, List.cons_append, parseItems,
        first fuel _ (endsNumber_cons (.inl rfl) _) (by omega)]
      simp only [Option.bind_eq_bind, Option.bind_some, skipSpaces_cons (show isSpace COMMA = false from rfl), if_true,
        later]
      rfl

theorem parseMembers_texts {entries : List (JsString × Json)} (nonempty : entries ≠ [])
    (reads : ∀ entry ∈ entries, ReadsAs entry.2) (fuel : ℕ) (rest : JsString)
    (enough : 2 * (joinedParts (Json.entryTexts entries)).length + 1 ≤ fuel) :
    parseMembers fuel (joinedParts (Json.entryTexts entries) ++ CLOSE_MAP :: rest) = some (entries, rest) := by
  induction entries generalizing fuel with
  | nil => exact absurd rfl nonempty
  | cons entry entries ih =>
    obtain ⟨key, value⟩ := entry
    obtain ⟨fuel, rfl⟩ : ∃ less, fuel = less + 1 := ⟨fuel - 1, by omega⟩
    have first := reads (key, value) (List.mem_cons_self ..)
    have key_read (more : JsString) : readString (quoteUnits key ++ ([QUOTE] ++ more)) = some (key, more) :=
      readString_quoteUnits key more
    -- The key and its colon are read the same way before the last entry and at it.
    have member (more : JsString) (ends : EndsNumber more) (fits : 2 * value.text.length ≤ fuel) :
        parseMembers (fuel + 1) (stringText key ++ COLON :: (value.text ++ more)) =
          match skipSpaces more with
          | [] => none
          | unit :: rest =>
            if unit = COMMA then do
              let (members, rest) ← parseMembers fuel rest
              return ((key, value) :: members, rest)
            else if unit = CLOSE_MAP then some ([(key, value)], rest)
            else none := by
      rw [stringText, List.cons_append, List.append_assoc, parseMembers]
      simp only [skipSpaces_cons (show isSpace QUOTE = false from rfl), List.head?_cons, if_true, List.tail_cons,
        Option.bind_eq_bind, Option.bind_some, key_read, skipSpaces_cons (show isSpace COLON = false from rfl),
        first fuel more ends fits]
      rfl
    cases entries with
    | nil =>
      simp only [Json.entryTexts, joinedParts, List.append_assoc, List.cons_append, List.length_append,
        List.length_cons] at enough ⊢
      rw [member _ (endsNumber_cons (.inr (.inr rfl)) rest) (by omega)]
      rfl
    | cons next entries =>
      have shape : joinedParts (Json.entryTexts ((key, value) :: next :: entries)) =
          (stringText key ++ COLON :: value.text) ++ COMMA :: joinedParts (Json.entryTexts (next :: entries)) := rfl
      simp only [shape, List.length_append, List.length_cons] at enough
      have later := ih (List.cons_ne_nil _ _) (fun other kept => reads other (List.mem_cons_of_mem _ kept)) fuel
        (by omega)
      simp only [shape, List.append_assoc, List.cons_append]
      rw [member _ (endsNumber_cons (.inl rfl) _) (by omega)]
      simp only [skipSpaces_cons (show isSpace COMMA = false from rfl), if_true, later]
      rfl

theorem reads_null : ReadsAs .null := by
  intro fuel rest _ enough
  obtain ⟨fuel, rfl⟩ : ∃ less, fuel = less + 1 := ⟨fuel - 1, by simp [Json.text, ascii] at enough; omega⟩
  change parseValue (fuel + 1) (0x6e :: (ascii "ull" ++ rest)) = _
  rw [parseValue_scalar (by decide) (by decide), readScalar]
  change (readWord (ascii "null") .null (ascii "null" ++ rest) <|> _) = _
  rw [readWord_append]
  rfl

theorem reads_boolean (value : Bool) : ReadsAs (.boolean value) := by
  intro fuel rest _ enough
  obtain ⟨fuel, rfl⟩ : ∃ less, fuel = less + 1 := ⟨fuel - 1, by cases value <;> simp [Json.text, ascii] at enough <;> omega⟩
  cases value with
  | true =>
    change parseValue (fuel + 1) (0x74 :: (ascii "rue" ++ rest)) = _
    have null_less := readWord_none (show ascii "null" = 0x6e :: ascii "ull" from rfl) (show 0x74 ≠ 0x6e by decide)
      .null (ascii "rue" ++ rest)
    rw [parseValue_scalar (by decide) (by decide), readScalar, null_less]
    change (none <|> readWord (ascii "true") _ (ascii "true" ++ rest) <|> _) = _
    rw [readWord_append]
    rfl
  | false =>
    change parseValue (fuel + 1) (0x66 :: (ascii "alse" ++ rest)) = _
    have null_less := readWord_none (show ascii "null" = 0x6e :: ascii "ull" from rfl) (show 0x66 ≠ 0x6e by decide)
      .null (ascii "alse" ++ rest)
    have true_less := readWord_none (show ascii "true" = 0x74 :: ascii "rue" from rfl) (show 0x66 ≠ 0x74 by decide)
      (.boolean true) (ascii "alse" ++ rest)
    rw [parseValue_scalar (by decide) (by decide), readScalar, null_less, true_less]
    change (none <|> none <|> readWord (ascii "false") _ (ascii "false" ++ rest) <|> _) = _
    rw [readWord_append]
    rfl

theorem reads_finite (number : Double) : ReadsAs (.number (.finite number)) := by
  intro fuel rest ends enough
  obtain ⟨unit, text, shape, starts⟩ := (numberLiteral_valid number).text_head
  have parsed := parseNumber_numberText number ends
  rw [numberText, shape] at parsed
  change 2 * (numberLiteral number.value).text.length ≤ fuel at enough
  rw [shape, List.length_cons] at enough
  obtain ⟨fuel, rfl⟩ : ∃ less, fuel = less + 1 := ⟨fuel - 1, by omega⟩
  change parseValue (fuel + 1) ((numberLiteral number.value).text ++ rest) = _
  rw [shape]
  exact parseValue_number starts parsed fuel

def negativeZeroLiteral : NumberLiteral := { negative := true, whole := [0], fraction := [], exponent := none }

theorem reads_negativeZero : ReadsAs (.number .negativeZero) := by
  intro fuel rest ends enough
  have valid : negativeZeroLiteral.Valid :=
    ⟨by simp [negativeZeroLiteral, Decimal.IsDigits], .inl rfl, fun digit member => absurd member List.not_mem_nil⟩
  have parsed := parseNumber_text valid ends
  have number : negativeZeroLiteral.number = .negativeZero := by
    have zero : Binary64.round 0 = 0 := Double.zero.exact
    simp [NumberLiteral.number, negativeZeroLiteral, roundedNumber, signed, Decimal.value, zero]
  rw [number] at parsed
  obtain ⟨fuel, rfl⟩ : ∃ less, fuel = less + 1 := ⟨fuel - 1, by simp [Json.text, JsNumber.text, ascii] at enough; omega⟩
  exact parseValue_number (.inl rfl) parsed fuel

theorem reads_string (value : JsString) : ReadsAs (.string value) := by
  intro fuel rest _ enough
  obtain ⟨fuel, rfl⟩ : ∃ less, fuel = less + 1 := ⟨fuel - 1, by simp [Json.text, stringText] at enough; omega⟩
  have read := readString_quoteUnits value rest
  simp only [Json.text, stringText, List.cons_append, List.append_assoc, List.nil_append, parseValue,
    skipSpaces_cons (show isSpace QUOTE = false from rfl), if_true, read, Option.map_some]

theorem reads_list {values : List Json} (written : ∀ value ∈ values, value.Written)
    (reads : ∀ value ∈ values, ReadsAs value) : ReadsAs (.list values) := by
  intro fuel rest _ enough
  have not_quote : OPEN_LIST ≠ QUOTE := by decide
  simp only [Json.text, List.length_cons, List.length_append] at enough
  obtain ⟨fuel, rfl⟩ : ∃ less, fuel = less + 1 := ⟨fuel - 1, by omega⟩
  simp only [Json.text, List.cons_append, List.append_assoc, List.nil_append, parseValue,
    skipSpaces_cons (show isSpace OPEN_LIST = false from rfl), if_neg not_quote, if_true]
  cases values with
  | nil => rfl
  | cons value values =>
    obtain ⟨unit, text, shape, space, close⟩ := (written value (List.mem_cons_self ..)).head
    have first : ∃ more, joinedParts (Json.texts (value :: values)) = unit :: more := by
      cases values with
      | nil => exact ⟨text, shape⟩
      | cons next values =>
        change ∃ more, value.text ++ COMMA :: joinedParts (Json.texts (next :: values)) = unit :: more
        rw [shape]
        exact ⟨_, List.cons_append⟩
    obtain ⟨more, first⟩ := first
    have open_items : ¬ (skipSpaces (joinedParts (Json.texts (value :: values)) ++ CLOSE_LIST :: rest)).head? =
        some CLOSE_LIST := by
      rw [first, List.cons_append, skipSpaces_cons space]
      exact fun same => close (Option.some.inj same)
    rw [if_neg open_items, parseItems_texts (List.cons_ne_nil _ _) reads fuel rest (by omega)]
    rfl

theorem reads_map {entries : List (JsString × Json)} (listed : Listed entries)
    (reads : ∀ entry ∈ entries, ReadsAs entry.2) : ReadsAs (.map entries) := by
  intro fuel rest _ enough
  have not_quote : OPEN_MAP ≠ QUOTE := by decide
  have not_list : OPEN_MAP ≠ OPEN_LIST := by decide
  simp only [Json.text, List.length_cons, List.length_append] at enough
  obtain ⟨fuel, rfl⟩ : ∃ less, fuel = less + 1 := ⟨fuel - 1, by omega⟩
  simp only [Json.text, List.cons_append, List.append_assoc, List.nil_append, parseValue,
    skipSpaces_cons (show isSpace OPEN_MAP = false from rfl), if_neg not_quote, if_neg not_list, if_true]
  cases entries with
  | nil => rfl
  | cons entry entries =>
    obtain ⟨key, value⟩ := entry
    have first : ∃ more, joinedParts (Json.entryTexts ((key, value) :: entries)) = QUOTE :: more := by
      cases entries with
      | nil => exact ⟨_, rfl⟩
      | cons next entries => exact ⟨_, rfl⟩
    obtain ⟨more, first⟩ := first
    have open_members : ¬ (skipSpaces (joinedParts (Json.entryTexts ((key, value) :: entries)) ++
        CLOSE_MAP :: rest)).head? = some CLOSE_MAP := by
      rw [first, List.cons_append, skipSpaces_cons rfl, List.head?_cons]
      decide
    rw [if_neg open_members, parseMembers_texts (List.cons_ne_nil _ _) reads fuel rest (by omega), Option.map_some,
      objectOf_listed listed]

theorem Json.Written.reads {value : Json} (written : value.Written) : ReadsAs value := by
  induction written with
  | null => exact reads_null
  | boolean value => exact reads_boolean value
  | finite number => exact reads_finite number
  | negativeZero => exact reads_negativeZero
  | string value => exact reads_string value
  | list each ih => exact reads_list each ih
  | map listed each ih => exact reads_map listed ih

theorem parseJson_text {value : Json} (written : value.Written) : parseJson value.text = some value := by
  have read := written.reads (2 * value.text.length + 2) [] (fun unit head => nomatch head) (by omega)
  rw [List.append_nil] at read
  rw [parseJson, read]
  rfl

end Narsil.Serialization
