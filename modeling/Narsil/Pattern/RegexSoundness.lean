import Mathlib.Data.List.TakeWhile
import Narsil.Pattern.NumberRangeValues
import Narsil.Pattern.RegexGrammar

/-!
# What the regex parser accepts

Each method of the reader against its part of the grammar: what it has read is a text of that
part, and its value is the one that the grammar assigns.
-/
namespace Narsil.Pattern

open RegexReader

theorem bind_ok {ε α β : Type} {x : Except ε α} {f : α → Except ε β} {b : β} (ok : (x >>= f) = .ok b) :
    ∃ a, x = .ok a ∧ f a = .ok b := by
  cases x with
  | error error => cases ok
  | ok a => exact ⟨a, rfl, ok⟩

variable {reader : RegexReader}

theorem mem_classEscapes {escaped : Nat} {name : ClassName} (known : CLASS_ESCAPES.lookup escaped = some name) :
    (escaped, name) ∈ CLASS_ESCAPES := by
  obtain ⟨before, after, split, -⟩ := List.lookup_eq_some_iff.mp known
  rw [split]
  simp

theorem digits_split {digits rest : List Nat} (all : ∀ digit ∈ digits, isDigit digit)
    (stops : rest.head?.any isDigit = false) :
    (digits ++ rest).takeWhile isDigit = digits ∧ (digits ++ rest).dropWhile isDigit = rest := by
  have nothing : rest.takeWhile isDigit = [] ∧ rest.dropWhile isDigit = rest := by
    cases rest with
    | nil => exact ⟨rfl, rfl⟩
    | cons first rest =>
      have other : ¬ isDigit first = true := by simpa using stops
      exact ⟨List.takeWhile_cons_of_neg other, List.dropWhile_cons_of_neg other⟩
  rw [List.takeWhile_append_of_pos all, List.dropWhile_append_of_pos all, nothing.1, nothing.2, List.append_nil]
  exact ⟨rfl, rfl⟩

theorem takeWhile_digits (input : List Nat) : ∀ digit ∈ input.takeWhile isDigit, isDigit digit := fun _ isIn =>
  List.mem_takeWhile_imp isIn

theorem countDigits_spec (count : Nat) (input : List Nat) (low : count ≤ MAX_PATTERN_REPEAT_COUNT + 1) :
    (countDigits count input).value =
        min (count * 10 ^ (input.takeWhile isDigit).length + numberOf (input.takeWhile isDigit))
          (MAX_PATTERN_REPEAT_COUNT + 1) ∧
      (countDigits count input).rest = input.dropWhile isDigit := by
  induction input generalizing count with
  | nil => exact ⟨by simpa [countDigits, numberOf] using low, rfl⟩
  | cons digit rest ih =>
    rw [countDigits]
    split
    next one =>
      rw [List.takeWhile_cons_of_pos one, List.dropWhile_cons_of_pos one]
      obtain ⟨value, left⟩ := ih (min (count * 10 + digit - ZERO) (MAX_PATTERN_REPEAT_COUNT + 1)) (Nat.min_le_right _ _)
      refine ⟨value.trans ?_, left⟩
      have above : ZERO ≤ digit := by
        simp only [isDigit, Bool.and_eq_true, decide_eq_true_eq] at one
        exact one.1
      rw [List.length_cons, numberOf_cons, Nat.pow_succ, Nat.add_sub_assoc above]
      generalize rest.takeWhile isDigit = run
      have power : 1 ≤ 10 ^ run.length := Nat.one_le_pow _ _ (by omega)
      rcases Nat.le_total (count * 10 + (digit - ZERO)) (MAX_PATTERN_REPEAT_COUNT + 1) with small | large
      · rw [Nat.min_eq_left small]
        congr 1
        ring
      · -- Both are at the limit already.
        rw [Nat.min_eq_right large, Nat.min_eq_right, Nat.min_eq_right]
        · have grown := Nat.mul_le_mul large power
          rw [Nat.mul_one] at grown
          calc MAX_PATTERN_REPEAT_COUNT + 1 ≤ (count * 10 + (digit - ZERO)) * 10 ^ run.length := grown
            _ ≤ _ := by ring_nf; omega
        · exact (Nat.le_mul_of_pos_right _ power).trans (Nat.le_add_right _ _)
    next other =>
      rw [List.takeWhile_cons_of_neg other, List.dropWhile_cons_of_neg other]
      exact ⟨by simpa [numberOf] using low, rfl⟩

theorem head_digit {input : List Nat} (some_digit : (input.head?.any isDigit) = true) :
    input.takeWhile isDigit ≠ [] := by
  cases input with
  | nil => cases some_digit
  | cons first rest =>
    rw [List.takeWhile_cons_of_pos (by simpa using some_digit)]
    simp

theorem readCount_sound {start input : List Nat} {read : Read Nat input.length}
    (parsed : reader.readCount start input = .ok read) :
    IsCount (input.takeWhile isDigit) ∧ read.value = numberOf (input.takeWhile isDigit) ∧
      read.rest = input.dropWhile isDigit := by
  rw [readCount] at parsed
  split at parsed
  · cases parsed
  next some_digit =>
    dsimp only at parsed
    split at parsed
    · cases parsed
    next low =>
      cases parsed
      obtain ⟨value, rest⟩ := countDigits_spec 0 input (Nat.zero_le _)
      rw [Nat.zero_mul, Nat.zero_add] at value
      have limit : numberOf (input.takeWhile isDigit) ≤ MAX_PATTERN_REPEAT_COUNT := by omega
      refine ⟨⟨head_digit (by simpa using some_digit), takeWhile_digits input, limit⟩, ?_, rest⟩
      rw [value, Nat.min_eq_left (Nat.le_succ_of_le limit)]

theorem readUpper_sound {start input : List Nat} {min : Nat} {read : Read (Option Nat) input.length}
    (parsed : reader.readUpper start min input = .ok read) :
    (read.value = some min ∧ input = read.rest) ∨ (read.value = none ∧ input = COMMA :: read.rest) ∨
      ∃ digits, IsCount digits ∧ read.value = some (numberOf digits) ∧ input = COMMA :: (digits ++ read.rest) := by
  unfold readUpper at parsed
  split at parsed
  next codePoint more =>
    split at parsed
    · cases parsed
      exact .inl ⟨rfl, rfl⟩
    next comma =>
      obtain rfl : codePoint = COMMA := not_not.mp comma
      split at parsed
      · obtain ⟨max, reads, parsed⟩ := bind_ok parsed
        cases parsed
        obtain ⟨isCount, value, rest⟩ := readCount_sound reads
        refine .inr (.inr ⟨_, isCount, congrArg some value, ?_⟩)
        dsimp only
        rw [rest, List.takeWhile_append_dropWhile]
      · cases parsed
        exact .inr (.inl ⟨rfl, rfl⟩)
  · cases parsed
    exact .inl ⟨rfl, rfl⟩

theorem orderCounts_sound {start : List Nat} {min : Nat} {max : Option Nat} {count : RepeatCount}
    (parsed : reader.orderCounts start min max = .ok count) : ∃ ordered, count = ⟨min, max, ordered⟩ := by
  rw [orderCounts.eq_def] at parsed
  split at parsed
  · cases parsed
    exact ⟨_, rfl⟩
  · split at parsed
    · cases parsed
    · cases parsed
      exact ⟨_, rfl⟩

theorem parseCounts_sound {start input : List Nat} {read : Read RepeatCount input.length}
    (parsed : reader.parseCounts start input = .ok read) :
    ∃ text, input = text ++ read.rest ∧ RepeatText (OPEN_BRACE :: text) read.value := by
  rw [parseCounts] at parsed
  obtain ⟨lower, reads, parsed⟩ := bind_ok parsed
  obtain ⟨isLower, lowerIs, lowerRest⟩ := readCount_sound reads
  obtain ⟨upper, readsUpper, parsed⟩ := bind_ok parsed
  have whole : input = input.takeWhile isDigit ++ lower.rest := by rw [lowerRest, List.takeWhile_append_dropWhile]
  generalize input.takeWhile isDigit = digits at isLower lowerIs whole
  split at parsed
  · cases parsed
  next closing more left =>
    split at parsed
    · cases parsed
    next closes =>
      obtain rfl : closing = CLOSE_BRACE := not_not.mp closes
      obtain ⟨count, orders, parsed⟩ := bind_ok parsed
      cases parsed
      obtain ⟨ordered, rfl⟩ := orderCounts_sound orders
      dsimp only
      rcases readUpper_sound readsUpper with ⟨max, rest⟩ | ⟨max, rest⟩ | ⟨upperDigits, isUpper, max, rest⟩
      · simp only [max, lowerIs] at ordered ⊢
        exact ⟨_, by rw [whole, rest, left, List.append_assoc]; rfl, .exactly isLower ordered⟩
      · simp only [max, lowerIs] at ordered ⊢
        exact ⟨_, by rw [whole, rest, left, List.append_assoc]; rfl, .atLeast isLower ordered⟩
      · simp only [max, lowerIs] at ordered ⊢
        refine ⟨_, ?_, .between isLower isUpper ordered⟩
        rw [whole, rest, left]
        simp only [List.append_assoc, List.cons_append, List.nil_append]

theorem startsRepeat_iff {codePoint : Nat} :
    startsRepeat codePoint = true ↔
      codePoint = STAR ∨ codePoint = PLUS ∨ codePoint = QUESTION ∨ codePoint = OPEN_BRACE := by
  simp only [startsRepeat, Bool.or_eq_true, decide_eq_true_eq, or_assoc]

theorem parseRepeat_sound {input : List Nat} {read : Read (Option RepeatCount) input.length}
    (parsed : reader.parseRepeat input = .ok read) :
    (read.value = none ∧ input = read.rest) ∨
      ∃ text count, read.value = some count ∧ input = text ++ read.rest ∧ RepeatText text count := by
  unfold parseRepeat at parsed
  split at parsed
  · cases parsed
    exact .inl ⟨rfl, rfl⟩
  next codePoint more =>
    split at parsed
    next star =>
      subst star
      cases parsed
      exact .inr ⟨[STAR], _, rfl, rfl, .star _⟩
    split at parsed
    next plus =>
      subst plus
      cases parsed
      exact .inr ⟨[PLUS], _, rfl, rfl, .plus _⟩
    split at parsed
    next question =>
      subst question
      cases parsed
      exact .inr ⟨[QUESTION], _, rfl, rfl, .question _⟩
    split at parsed
    · cases parsed
      exact .inl ⟨rfl, rfl⟩
    next brace =>
      obtain rfl : codePoint = OPEN_BRACE := not_not.mp brace
      obtain ⟨count, counts, parsed⟩ := bind_ok parsed
      cases parsed
      obtain ⟨text, whole, isCount⟩ := parseCounts_sound counts
      exact .inr ⟨OPEN_BRACE :: text, count.value, rfl, congrArg (OPEN_BRACE :: ·) whole, isCount⟩

theorem parseSetMember_sound {classAllowed : Bool} {input : List Nat} {read : Read (Nat ⊕ ClassName) (input.length - 1)}
    (parsed : reader.parseSetMember classAllowed input = .ok read) :
    (∃ text codePoint, read.value = .inl codePoint ∧ input = text ++ read.rest ∧ MemberText text codePoint) ∨
      ∃ escaped name, read.value = .inr name ∧ classAllowed = true ∧ input = [BACKSLASH, escaped] ++ read.rest ∧
        (escaped, name) ∈ CLASS_ESCAPES := by
  unfold parseSetMember at parsed
  split at parsed
  · cases parsed
  next codePoint more =>
    split at parsed
    · cases parsed
    next plain =>
      split at parsed
      next other =>
        cases parsed
        refine .inl ⟨[codePoint], codePoint, rfl, rfl, .plain ?_⟩
        simp only [List.mem_cons, List.not_mem_nil, or_false]
        exact fun special => special.elim other plain
      next escape =>
        obtain rfl : codePoint = BACKSLASH := not_not.mp escape
        split at parsed
        · cases parsed
        next escaped rest =>
          split at parsed
          next name known =>
            split at parsed
            next allowed =>
              cases parsed
              exact .inr ⟨escaped, name, rfl, allowed, rfl, mem_classEscapes known⟩
            next =>
              split at parsed
              next punctuation =>
                cases parsed
                exact .inl ⟨[BACKSLASH, escaped], escaped, rfl, rfl, .escaped punctuation⟩
              next => cases parsed
          next =>
            split at parsed
            next punctuation =>
              cases parsed
              exact .inl ⟨[BACKSLASH, escaped], escaped, rfl, rfl, .escaped punctuation⟩
            next => cases parsed

theorem parseSetRange_sound {start input lowText : List Nat} {low : Nat} {read : Read SetItem input.length}
    (member : MemberText lowText low) (parsed : reader.parseSetRange start low input = .ok read) :
    ∃ text, input = text ++ read.rest ∧ SetItemText (lowText ++ text) read.value := by
  have alone : SetItemText (lowText ++ []) (.member low) := by
    rw [List.append_nil]
    exact .member member
  unfold parseSetRange at parsed
  split at parsed
  · cases parsed
    exact ⟨[], rfl, alone⟩
  next hyphen more =>
    split at parsed
    · cases parsed
      exact ⟨[], rfl, alone⟩
    next range =>
      obtain rfl : hyphen = HYPHEN := not_not.mp fun other => range (.inl other)
      obtain ⟨high, reads, parsed⟩ := bind_ok parsed
      rcases parseSetMember_sound reads with ⟨text, top, value, whole, isHigh⟩ | ⟨_, _, _, allowed, -⟩
      · rw [value] at parsed
        dsimp only at parsed
        split at parsed
        · cases parsed
        · cases parsed
          exact ⟨HYPHEN :: text, congrArg (HYPHEN :: ·) whole, .range member isHigh _⟩
      · cases allowed

theorem parseSetItem_sound {input : List Nat} {read : Read SetItem (input.length - 1)}
    (parsed : reader.parseSetItem input = .ok read) :
    ∃ text, input = text ++ read.rest ∧ SetItemText text read.value := by
  rw [parseSetItem] at parsed
  obtain ⟨low, reads, parsed⟩ := bind_ok parsed
  rcases parseSetMember_sound reads with ⟨text, codePoint, value, whole, member⟩ | ⟨escaped, name, value, -, whole, known⟩
  · rw [value] at parsed
    obtain ⟨item, ranges, parsed⟩ := bind_ok parsed
    cases parsed
    obtain ⟨more, left, isItem⟩ := parseSetRange_sound member ranges
    refine ⟨text ++ more, ?_, isItem⟩
    rw [List.append_assoc]
    exact whole.trans (congrArg (text ++ ·) left)
  · rw [value] at parsed
    cases parsed
    exact ⟨[BACKSLASH, escaped], whole, .charClass known⟩

theorem parseSetItems_sound {start input : List Nat} {read : Read (List SetItem) input.length}
    (parsed : reader.parseSetItems start input = .ok read) :
    ∃ text, input = text ++ CLOSE_BRACKET :: read.rest ∧ SetItemsText text read.value := by
  obtain ⟨size, length⟩ : ∃ size, input.length = size := ⟨_, rfl⟩
  induction size using Nat.strongRecOn generalizing input with
  | ind size ih =>
    rw [parseSetItems.eq_def] at parsed
    split at parsed
    · cases parsed
    next codePoint more =>
      split at parsed
      next closes =>
        subst closes
        cases parsed
        exact ⟨[], rfl, .nil⟩
      next =>
        obtain ⟨item, reads, parsed⟩ := bind_ok parsed
        obtain ⟨others, readsOthers, parsed⟩ := bind_ok parsed
        cases parsed
        obtain ⟨text, whole, isItem⟩ := parseSetItem_sound reads
        have shorter : item.rest.length < size := length ▸ Nat.lt_succ_of_le item.within
        obtain ⟨rest, left, areItems⟩ := ih _ shorter readsOthers rfl
        refine ⟨text ++ rest, ?_, .cons isItem areItems⟩
        rw [List.append_assoc]
        exact whole.trans (congrArg (text ++ ·) left)

/-- What a pattern reader gives back is in the grammar. -/
def Sound (Group : List Nat → PatternNode → Prop) (body : Option PatternReader) : Prop :=
  ∀ read, body = some read → ∀ input pattern, read input = .ok pattern →
    ∃ text, input = text ++ pattern.rest ∧ Group text pattern.value

section
variable {Group : List Nat → PatternNode → Prop} {Expands : NumberBounds → PatternNode → Prop}
  {body : Option PatternReader}

theorem parseSet_sound {start more : List Nat} {read : Read PatternNode more.length}
    (parsed : reader.parseSet start more = .ok read) :
    ∃ text, more = text ++ read.rest ∧ AtomText Group Expands (OPEN_BRACKET :: text) read.value := by
  rw [parseSet] at parsed
  obtain ⟨items, reads, parsed⟩ := bind_ok parsed
  dsimp only at parsed
  split at parsed
  · cases parsed
  next some_member =>
    cases parsed
    obtain ⟨text, whole, members⟩ := parseSetItems_sound reads
    dsimp only
    by_cases negated : more.head? = some CARET
    · have left : more.tail = text ++ CLOSE_BRACKET :: items.rest := (if_pos negated).symm.trans whole
      rw [decide_eq_true negated]
      have caret : more = CARET :: more.tail := List.eq_cons_of_mem_head? negated
      refine ⟨CARET :: (text ++ [CLOSE_BRACKET]), ?_, .negatedSet members some_member⟩
      rw [List.cons_append, List.append_assoc]
      exact caret.trans (congrArg (CARET :: ·) left)
    · have left : more = text ++ CLOSE_BRACKET :: items.rest := (if_neg negated).symm.trans whole
      rw [decide_eq_false negated]
      refine ⟨text ++ [CLOSE_BRACKET], by rw [List.append_assoc]; exact left, .set members some_member ?_⟩
      intro caret
      rw [left, List.head?_append, caret] at negated
      exact negated rfl

theorem takeDigits_sound (collected input : List Nat) (some_digit : (takeDigits collected input).value ≠ []) :
    collected ++ input = (takeDigits collected input).value ++ (takeDigits collected input).rest := by
  induction input generalizing collected with
  | nil => rfl
  | cons digit rest ih =>
    rw [takeDigits] at some_digit ⊢
    split at some_digit
    next one =>
      split at some_digit
      · exact absurd rfl some_digit
      next below =>
        rw [if_pos one, if_neg below]
        have later := ih (collected ++ [digit]) some_digit
        rwa [List.append_assoc] at later
    next other => rw [if_neg other]

theorem readDigits_sound {input : List Nat} (some_digit : (readDigits input).value ≠ []) :
    input = (readDigits input).value ++ (readDigits input).rest := takeDigits_sound [] input some_digit

theorem readHigh_sound {input : List Nat} (some_digit : (readHigh input).value ≠ []) :
    input = HYPHEN :: ((readHigh input).value ++ (readHigh input).rest) := by
  unfold readHigh at some_digit ⊢
  split at some_digit
  · exact absurd rfl some_digit
  next hyphen more =>
    split at some_digit
    next same =>
      subst same
      exact congrArg (HYPHEN :: ·) (readDigits_sound some_digit)
    next => exact absurd rfl some_digit

theorem parseNumberRange_sound {start more : List Nat} {read : Read PatternNode more.length}
    (expands : ∀ bounds node, reader.expand bounds = .ok node → Expands bounds node)
    (parsed : reader.parseNumberRange start more = .ok read) :
    ∃ text, more = text ++ read.rest ∧ AtomText Group Expands (LESS :: text) read.value := by
  unfold parseNumberRange at parsed
  dsimp only at parsed
  split at parsed
  · cases parsed
  next closing rest closed =>
    split at parsed
    · cases parsed
    next missing =>
      split at parsed
      · cases parsed
      next =>
        obtain ⟨expansion, expanded, parsed⟩ := bind_ok parsed
        cases parsed
        simp only [not_or, not_not] at missing
        obtain ⟨lowSome, highSome, rfl⟩ := missing
        have whole := readDigits_sound lowSome
        have left := readHigh_sound highSome
        rw [closed] at left
        refine ⟨_, ?_, .numberRange (expands _ _ expanded)⟩
        simp only [List.append_assoc, List.cons_append, List.nil_append]
        exact whole.trans (congrArg _ left)

theorem parseEscape_sound {start more : List Nat} {read : Read PatternNode more.length}
    (parsed : reader.parseEscape start more = .ok read) :
    ∃ text, more = text ++ read.rest ∧ AtomText Group Expands (BACKSLASH :: text) read.value := by
  unfold parseEscape at parsed
  split at parsed
  · cases parsed
  next escaped rest =>
    split at parsed
    next name known =>
      cases parsed
      exact ⟨[escaped], rfl, .charClass (mem_classEscapes known)⟩
    next =>
      split at parsed
      next edge =>
        subst edge
        cases parsed
        exact ⟨[WORD_EDGE_ESCAPE], rfl, .wordEdge⟩
      next =>
        split at parsed
        next punctuation =>
          cases parsed
          exact ⟨[escaped], rfl, .escaped punctuation⟩
        next => cases parsed

theorem parseGroup_sound {start more : List Nat} {read : Read PatternNode more.length} (sound : Sound Group body)
    (parsed : reader.parseGroup body start more = .ok read) :
    ∃ text, more = text ++ read.rest ∧ AtomText Group Expands (OPEN_PAREN :: text) read.value := by
  unfold parseGroup at parsed
  split at parsed
  · cases parsed
  next =>
    split at parsed
    · cases parsed
    next parsePattern =>
      obtain ⟨pattern, reads, parsed⟩ := bind_ok parsed
      obtain ⟨text, whole, inGroup⟩ := sound parsePattern rfl more pattern reads
      split at parsed
      · cases parsed
      next closing left rest =>
        split at parsed
        · cases parsed
        next closes =>
          obtain rfl : closing = CLOSE_PAREN := not_not.mp closes
          cases parsed
          refine ⟨text ++ [CLOSE_PAREN], ?_, .group inGroup⟩
          rw [List.append_assoc]
          exact whole.trans (congrArg (text ++ ·) rest)

theorem parseAtom_sound {codePoint : Nat} {more : List Nat} {read : Read PatternNode more.length}
    (sound : Sound Group body) (expands : ∀ bounds node, reader.expand bounds = .ok node → Expands bounds node)
    (parsed : reader.parseAtom body codePoint more = .ok read) :
    ∃ text, more = text ++ read.rest ∧ AtomText Group Expands (codePoint :: text) read.value := by
  rw [parseAtom] at parsed
  split at parsed
  next escape =>
    subst escape
    exact parseEscape_sound parsed
  split at parsed
  next dot =>
    subst dot
    cases parsed
    exact ⟨[], rfl, .any⟩
  split at parsed
  next caret =>
    subst caret
    cases parsed
    exact ⟨[], rfl, .start⟩
  split at parsed
  next dollar =>
    subst dollar
    cases parsed
    exact ⟨[], rfl, .finish⟩
  split at parsed
  next bracket =>
    subst bracket
    exact parseSet_sound parsed
  split at parsed
  next paren =>
    subst paren
    exact parseGroup_sound sound parsed
  split at parsed
  next less =>
    subst less
    exact parseNumberRange_sound expands parsed
  split at parsed
  · cases parsed
  next free =>
    cases parsed
    exact ⟨[], rfl, .literal free⟩

theorem parsePiece_sound {codePoint : Nat} {more : List Nat} {read : Read PatternNode more.length}
    (sound : Sound Group body) (expands : ∀ bounds node, reader.expand bounds = .ok node → Expands bounds node)
    (parsed : reader.parsePiece body codePoint more = .ok read) :
    ∃ text, codePoint :: more = text ++ read.rest ∧ PieceText Group Expands text read.value := by
  rw [parsePiece] at parsed
  obtain ⟨atom, reads, parsed⟩ := bind_ok parsed
  obtain ⟨count, counts, parsed⟩ := bind_ok parsed
  obtain ⟨text, whole, isAtom⟩ := parseAtom_sound sound expands reads
  have split_more (more' : List Nat) {rest : List Nat} (left : atom.rest = more' ++ rest) :
      codePoint :: more = codePoint :: text ++ more' ++ rest := by
    rw [List.append_assoc, ← left]
    exact congrArg (codePoint :: ·) whole
  split at parsed
  next none =>
    cases parsed
    rcases parseRepeat_sound counts with ⟨-, rest⟩ | ⟨_, _, some, -⟩
    · exact ⟨codePoint :: text, by simpa using split_more [] rest, .bare isAtom⟩
    · rw [none] at some
      cases some
  next repeated some =>
    rcases parseRepeat_sound counts with ⟨none, -⟩ | ⟨repeatText, count', some', rest, isRepeat⟩
    · rw [some] at none
      cases none
    · obtain rfl : repeated = count' := Option.some.inj (some.symm.trans some')
      split at parsed
      · split at parsed
        · cases parsed
        · cases parsed
          exact ⟨_, split_more _ rest, .repeated isAtom isRepeat⟩
      · cases parsed
        exact ⟨_, split_more _ rest, .repeated isAtom isRepeat⟩

theorem parsePieces_sound {input : List Nat} {read : Read (List PatternNode) input.length} (sound : Sound Group body)
    (expands : ∀ bounds node, reader.expand bounds = .ok node → Expands bounds node)
    (parsed : reader.parsePieces body input = .ok read) :
    ∃ text, input = text ++ read.rest ∧ PiecesText Group Expands text read.value := by
  obtain ⟨size, length⟩ : ∃ size, input.length = size := ⟨_, rfl⟩
  induction size using Nat.strongRecOn generalizing input with
  | ind size ih =>
    rw [parsePieces.eq_def] at parsed
    split at parsed
    · cases parsed
      exact ⟨[], rfl, .nil⟩
    next codePoint more =>
      split at parsed
      · cases parsed
        exact ⟨[], rfl, .nil⟩
      next =>
        obtain ⟨piece, reads, parsed⟩ := bind_ok parsed
        obtain ⟨others, readsOthers, parsed⟩ := bind_ok parsed
        cases parsed
        obtain ⟨text, whole, isPiece⟩ := parsePiece_sound sound expands reads
        have shorter : piece.rest.length < size := length ▸ Nat.lt_succ_of_le piece.within
        obtain ⟨rest, left, arePieces⟩ := ih _ shorter readsOthers rfl
        refine ⟨text ++ rest, ?_, .cons isPiece arePieces⟩
        rw [List.append_assoc]
        exact whole.trans (congrArg (text ++ ·) left)

theorem parseBranches_sound {input : List Nat} {read : Read (PatternNode × List PatternNode) input.length}
    (sound : Sound Group body) (expands : ∀ bounds node, reader.expand bounds = .ok node → Expands bounds node)
    (parsed : reader.parseBranches body input = .ok read) :
    ∃ text, input = text ++ read.rest ∧ BranchesText Group Expands text read.value := by
  obtain ⟨size, length⟩ : ∃ size, input.length = size := ⟨_, rfl⟩
  induction size using Nat.strongRecOn generalizing input with
  | ind size ih =>
    rw [parseBranches.eq_def] at parsed
    obtain ⟨branch, reads, parsed⟩ := bind_ok parsed
    rw [parseBranch] at reads
    obtain ⟨items, pieces, reads⟩ := bind_ok reads
    cases reads
    obtain ⟨text, whole, arePieces⟩ := parsePieces_sound sound expands pieces
    dsimp only at parsed
    split at parsed
    · cases parsed
      exact ⟨text, whole, .one arePieces⟩
    next bar more rest =>
      split at parsed
      · cases parsed
        exact ⟨text, whole, .one arePieces⟩
      next isBar =>
        obtain rfl : bar = BAR := not_not.mp isBar
        obtain ⟨others, readsOthers, parsed⟩ := bind_ok parsed
        cases parsed
        have shorter : more.length < size := by
          have within := items.within
          rw [rest, length] at within
          exact within
        obtain ⟨later, left, areBranches⟩ := ih _ shorter readsOthers rfl
        refine ⟨text ++ BAR :: later, ?_, .more arePieces areBranches⟩
        rw [List.append_assoc]
        exact whole.trans (congrArg (text ++ ·) (rest.trans (congrArg (BAR :: ·) left)))

end

theorem parsePattern_sound {Expands : NumberBounds → PatternNode → Prop}
    (expands : ∀ bounds node, reader.expand bounds = .ok node → Expands bounds node) (levels : Nat)
    {input : List Nat} {read : Read PatternNode input.length} (parsed : reader.parsePattern levels input = .ok read) :
    ∃ text, input = text ++ read.rest ∧ PatternText Expands levels text read.value := by
  induction levels generalizing input with
  | zero =>
    rw [parsePattern] at parsed
    obtain ⟨branches, reads, parsed⟩ := bind_ok parsed
    cases parsed
    have sound : Sound (fun _ _ => False) none := fun _ absent => (nomatch absent)
    obtain ⟨text, whole, areBranches⟩ := parseBranches_sound sound expands reads
    exact ⟨text, whole, branches.value, areBranches, rfl⟩
  | succ levels ih =>
    rw [parsePattern] at parsed
    obtain ⟨branches, reads, parsed⟩ := bind_ok parsed
    cases parsed
    have sound : Sound (PatternText Expands levels) (some (reader.parsePattern levels)) := by
      rintro _ ⟨⟩ input pattern reads
      exact ih reads
    obtain ⟨text, whole, areBranches⟩ := parseBranches_sound sound expands reads
    exact ⟨text, whole, branches.value, areBranches, rfl⟩

theorem parse_sound {Expands : NumberBounds → PatternNode → Prop}
    (expands : ∀ bounds node, reader.expand bounds = .ok node → Expands bounds node) {codePoints : List Nat}
    {node : PatternNode} (parsed : reader.parse codePoints = .ok node) :
    PatternText Expands MAX_PATTERN_GROUP_DEPTH codePoints node := by
  rw [parse] at parsed
  obtain ⟨pattern, reads, parsed⟩ := bind_ok parsed
  obtain ⟨text, whole, isPattern⟩ := parsePattern_sound expands _ reads
  split at parsed
  next nothing =>
    cases parsed
    rw [nothing, List.append_nil] at whole
    subst whole
    exact isPattern
  next => cases parsed

end Narsil.Pattern
