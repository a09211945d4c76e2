import Narsil.Pattern.RegexSoundness

/-!
# What the grammar has is accepted

Each method of the reader reads a text of its part of the grammar as a whole, whatever follows
it that cannot belong to it, and gives the value that the grammar assigns. Together with
`parse_sound` the parser accepts exactly the grammar.
-/
namespace Narsil.Pattern

open RegexReader

variable {reader : RegexReader}

/-- What a method reads and leaves. -/
def Gives {α : Type} {most : Nat} (result : Reads α most) (value : α) (rest : List Nat) : Prop :=
  ∃ within, result = .ok ⟨value, rest, within⟩

theorem gives_of_eq {α : Type} {most : Nat} {read : Read α most} {value : α} {rest : List Nat}
    (same : read.value = value) (left : read.rest = rest) : Gives (.ok read) value rest := by
  obtain ⟨_, _, within⟩ := read
  subst same left
  exact ⟨within, rfl⟩

theorem Gives.bind {α β : Type} {most more : Nat} {x : Reads α most} {f : Read α most → Reads β more} {value : α}
    {next : β} {rest left : List Nat} (first : Gives x value rest)
    (later : ∀ within, Gives (f ⟨value, rest, within⟩) next left) : Gives (x >>= f) next left := by
  obtain ⟨within, rfl⟩ := first
  exact later within

theorem gives_ok {α : Type} {most : Nat} (value : α) (rest : List Nat) (within : rest.length ≤ most) :
    Gives (.ok ⟨value, rest, within⟩ : Reads α most) value rest := ⟨within, rfl⟩

theorem readCount_complete {start input digits rest : List Nat} (whole : input = digits ++ rest)
    (count : IsCount digits) (stops : rest.head?.any isDigit = false) :
    Gives (reader.readCount start input) (numberOf digits) rest := by
  obtain ⟨run, left⟩ := digits_split count.all_digits stops
  rw [← whole] at run left
  have some_digit : (input.head?.any isDigit) = true := by
    obtain ⟨first, others, rfl⟩ := List.exists_cons_of_ne_nil count.some_digit
    rw [whole]
    exact count.all_digits first List.mem_cons_self
  obtain ⟨value, remains⟩ := countDigits_spec 0 input (Nat.zero_le _)
  have limit := count.limit
  rw [Nat.zero_mul, Nat.zero_add, run, Nat.min_eq_left (Nat.le_succ_of_le limit)] at value
  rw [readCount, if_neg (by rw [some_digit]; exact Bool.noConfusion)]
  dsimp only
  rw [if_neg (by rw [value]; exact Nat.not_lt_of_le limit)]
  exact gives_of_eq value (remains.trans left)

theorem stops_at {codePoint : Nat} (other : isDigit codePoint = false) (rest : List Nat) :
    (codePoint :: rest).head?.any isDigit = false := by simpa using other

theorem orderCounts_complete (start : List Nat) (count : RepeatCount) :
    reader.orderCounts start count.min count.max = .ok count := by
  obtain ⟨min, max, ordered⟩ := count
  cases max with
  | none => rfl
  | some upper =>
    rw [orderCounts, dif_neg]
    exact Nat.not_lt_of_le (ordered upper rfl)

theorem parseCounts_closes {start input digits left rest : List Nat} {count : RepeatCount} (isCount : IsCount digits)
    (lower : count.min = numberOf digits) (whole : input = digits ++ left) (stops : left.head?.any isDigit = false)
    (upper : Gives (reader.readUpper start (numberOf digits) left) count.max (CLOSE_BRACE :: rest)) :
    Gives (reader.parseCounts start input) count rest := by
  rw [parseCounts]
  refine (readCount_complete whole isCount stops).bind fun within => ?_
  refine upper.bind fun within => ?_
  dsimp only
  rw [if_neg (not_not.mpr rfl), ← lower, orderCounts_complete]
  exact gives_ok ..

theorem parseCounts_complete {start input text rest : List Nat} {count : RepeatCount}
    (counted : RepeatText (OPEN_BRACE :: text) count) (whole : input = text ++ rest) :
    Gives (reader.parseCounts start input) count rest := by
  cases counted with
  | exactly isCount ordered =>
    rw [List.append_assoc] at whole
    refine parseCounts_closes isCount rfl whole (stops_at rfl _) ?_
    exact gives_ok ..
  | atLeast isCount ordered =>
    rw [List.append_assoc] at whole
    refine parseCounts_closes isCount rfl whole (stops_at rfl _) ?_
    exact gives_ok ..
  | @between lower upper low high ordered =>
    rw [List.append_assoc, List.cons_append, List.append_assoc] at whole
    refine parseCounts_closes low rfl whole (stops_at rfl _) ?_
    obtain ⟨first, others, rfl⟩ := List.exists_cons_of_ne_nil high.some_digit
    have some_digit : isDigit first = true := high.all_digits first List.mem_cons_self
    rw [readUpper, if_neg (not_not.mpr rfl), if_pos (by simpa using some_digit)]
    exact (readCount_complete rfl high (stops_at rfl _)).bind fun within => gives_ok ..

theorem parseRepeat_none {input : List Nat} (other : input.head?.any startsRepeat = false) :
    Gives (reader.parseRepeat input) none input := by
  unfold parseRepeat
  split
  · exact gives_ok ..
  next codePoint more =>
    have apart : ¬ (codePoint = STAR ∨ codePoint = PLUS ∨ codePoint = QUESTION ∨ codePoint = OPEN_BRACE) := by
      rw [← startsRepeat_iff]
      simpa using other
    simp only [not_or] at apart
    rw [if_neg apart.1, if_neg apart.2.1, if_neg apart.2.2.1, if_pos apart.2.2.2]
    exact gives_ok ..

theorem parseRepeat_complete {input text rest : List Nat} {count : RepeatCount} (counted : RepeatText text count)
    (whole : input = text ++ rest) : Gives (reader.parseRepeat input) (some count) rest := by
  subst whole
  have counts {text : List Nat} (counted : RepeatText (OPEN_BRACE :: text) count) :
      Gives (reader.parseRepeat (OPEN_BRACE :: (text ++ rest))) (some count) rest := by
    rw [parseRepeat, if_neg (by decide), if_neg (by decide), if_neg (by decide), if_neg (not_not.mpr rfl)]
    exact (parseCounts_complete counted rfl).bind fun within => gives_ok ..
  cases counted with
  | star => exact gives_ok ..
  | plus => exact gives_ok ..
  | question => exact gives_ok ..
  | exactly isCount ordered => exact counts (.exactly isCount ordered)
  | atLeast isCount ordered => exact counts (.atLeast isCount ordered)
  | between low high ordered => exact counts (.between low high ordered)

theorem lookup_classEscapes {escaped : Nat} {name : ClassName} (known : (escaped, name) ∈ CLASS_ESCAPES) :
    CLASS_ESCAPES.lookup escaped = some name ∧ isAsciiPunctuation escaped = false ∧ escaped ≠ WORD_EDGE_ESCAPE := by
  simp only [CLASS_ESCAPES, List.mem_cons, Prod.mk.injEq, List.not_mem_nil, or_false] at known
  rcases known with ⟨rfl, rfl⟩ | ⟨rfl, rfl⟩ | ⟨rfl, rfl⟩ <;> decide

theorem lookup_punctuation {escaped : Nat} (punctuation : isAsciiPunctuation escaped = true) :
    CLASS_ESCAPES.lookup escaped = none ∧ escaped ≠ WORD_EDGE_ESCAPE := by
  cases known : CLASS_ESCAPES.lookup escaped with
  | some name =>
    rw [(lookup_classEscapes (mem_classEscapes known)).2.1] at punctuation
    cases punctuation
  | none =>
    refine ⟨rfl, ?_⟩
    rintro rfl
    revert punctuation
    decide

theorem parseSetMember_member {classAllowed : Bool} {input text rest : List Nat} {codePoint : Nat}
    (member : MemberText text codePoint) (whole : input = text ++ rest) :
    Gives (reader.parseSetMember classAllowed input) (.inl codePoint) rest := by
  subst whole
  cases member with
  | plain free =>
    simp only [List.mem_cons, List.not_mem_nil, or_false, not_or] at free
    unfold parseSetMember
    dsimp only [List.singleton_append]
    rw [if_neg (by simp [free]), if_pos free.1]
    exact gives_ok ..
  | escaped punctuation =>
    rw [List.cons_append, List.singleton_append, parseSetMember, if_neg (by decide), if_neg (not_not.mpr rfl),
      (lookup_punctuation punctuation).1]
    dsimp only
    rw [if_pos punctuation]
    exact gives_ok ..

theorem parseSetItem_charClass {input rest : List Nat} {escaped : Nat} {name : ClassName}
    (known : (escaped, name) ∈ CLASS_ESCAPES) (whole : input = BACKSLASH :: escaped :: rest) :
    Gives (reader.parseSetItem input) (.charClass name) rest := by
  subst whole
  have reads : Gives (reader.parseSetMember true (BACKSLASH :: escaped :: rest)) (.inr name) rest := by
    rw [parseSetMember, if_neg (by decide), if_neg (not_not.mpr rfl), (lookup_classEscapes known).1]
    exact gives_ok ..
  rw [parseSetItem]
  exact reads.bind fun within => gives_ok ..

theorem MemberText.head {text : List Nat} {codePoint : Nat} (member : MemberText text codePoint) :
    ∃ first rest, text = first :: rest ∧ first ≠ CLOSE_BRACKET ∧ first ≠ HYPHEN := by
  cases member with
  | plain free =>
    simp only [List.mem_cons, List.not_mem_nil, or_false, not_or] at free
    exact ⟨codePoint, [], rfl, free.2.2.1, free.2.2.2⟩
  | escaped => exact ⟨BACKSLASH, [codePoint], rfl, by decide, by decide⟩

theorem SetItemText.head {text : List Nat} {item : SetItem} (isItem : SetItemText text item) :
    ∃ first rest, text = first :: rest ∧ first ≠ CLOSE_BRACKET ∧ first ≠ HYPHEN := by
  cases isItem with
  | member member => exact member.head
  | range first last ordered =>
    obtain ⟨codePoint, rest, rfl, free⟩ := first.head
    exact ⟨codePoint, _, rfl, free⟩
  | charClass known => exact ⟨BACKSLASH, _, rfl, by decide, by decide⟩

theorem parseSetItem_complete {input text rest : List Nat} {item : SetItem} (isItem : SetItemText text item)
    (whole : input = text ++ rest) (follows : rest.head? ≠ some HYPHEN) :
    Gives (reader.parseSetItem input) item rest := by
  cases isItem with
  | charClass known => exact parseSetItem_charClass known whole
  | @member _ codePoint member =>
    rw [parseSetItem]
    refine (parseSetMember_member member whole).bind fun within => ?_
    have alone : Gives (reader.parseSetRange input codePoint rest) (.member codePoint) rest := by
      unfold parseSetRange
      split
      · exact gives_ok ..
      next hyphen more =>
        rw [if_pos (.inl fun same => follows (congrArg some same))]
        exact gives_ok ..
    exact alone.bind fun within => gives_ok ..
  | @range lowText highText low high first last ordered =>
    rw [List.append_assoc] at whole
    rw [parseSetItem]
    refine (parseSetMember_member first whole).bind fun within => ?_
    obtain ⟨codePoint, others, same, free, -⟩ := last.head
    have ranges : Gives (reader.parseSetRange input low (HYPHEN :: (highText ++ rest))) (.range low high ordered) rest := by
      rw [parseSetRange, if_neg]
      · refine (parseSetMember_member last rfl).bind fun within => ?_
        dsimp only
        rw [dif_neg (Nat.not_lt_of_le ordered)]
        exact gives_ok ..
      · rintro (other | closes)
        · exact other rfl
        · rw [same] at closes
          exact free (Option.some.inj closes)
    exact ranges.bind fun within => gives_ok ..

theorem SetItemsText.head {text : List Nat} {items : List SetItem} (members : SetItemsText text items) :
    (text = [] ∧ items = []) ∨ ∃ first rest, text = first :: rest ∧ first ≠ CLOSE_BRACKET ∧ first ≠ HYPHEN := by
  cases members with
  | nil => exact .inl ⟨rfl, rfl⟩
  | cons first others =>
    obtain ⟨codePoint, rest, rfl, free⟩ := first.head
    exact .inr ⟨codePoint, _, rfl, free⟩

theorem parseSetItems_complete {start input text rest : List Nat} {items : List SetItem}
    (members : SetItemsText text items) (whole : input = text ++ CLOSE_BRACKET :: rest) :
    Gives (reader.parseSetItems start input) items rest := by
  induction members generalizing input with
  | nil =>
    subst whole
    rw [List.nil_append, parseSetItems, if_pos rfl]
    exact gives_ok ..
  | @cons text later item items first others ih =>
    rw [List.append_assoc] at whole
    obtain ⟨codePoint, more, same, open_set, -⟩ := first.head
    have follows : (later ++ CLOSE_BRACKET :: rest).head? ≠ some HYPHEN := by
      rcases others.head with ⟨rfl, -⟩ | ⟨next, left, rfl, -, free⟩
      · exact fun hyphen => absurd (Option.some.inj hyphen) (by decide)
      · exact fun hyphen => free (Option.some.inj hyphen)
    have reads : Gives (reader.parseSetItem input) item (later ++ CLOSE_BRACKET :: rest) :=
      parseSetItem_complete first whole follows
    subst same
    subst whole
    rw [List.cons_append, parseSetItems, if_neg open_set]
    exact reads.bind fun within => (ih rfl).bind fun within => gives_ok ..

theorem parseSet_complete {start more rest text : List Nat} {items : List SetItem} (members : SetItemsText text items)
    (some_member : items ≠ []) :
    (text.head? ≠ some CARET → more = text ++ CLOSE_BRACKET :: rest →
        Gives (reader.parseSet start more) (.set false items) rest) ∧
      (more = CARET :: (text ++ CLOSE_BRACKET :: rest) →
        Gives (reader.parseSet start more) (.set true items) rest) := by
  refine ⟨fun no_caret whole => ?_, fun whole => ?_⟩
  · have plain : more.head? ≠ some CARET := by
      rw [whole]
      rcases members.head with ⟨-, nothing⟩ | ⟨first, others, rfl, -⟩
      · exact absurd nothing some_member
      · exact no_caret
    rw [parseSet]
    refine (parseSetItems_complete members ((if_neg plain).trans whole)).bind fun within => ?_
    dsimp only
    rw [if_neg some_member, decide_eq_false plain]
    exact gives_ok ..
  · have caret : more.head? = some CARET := by
      rw [whole]
      rfl
    have left : more.tail = text ++ CLOSE_BRACKET :: rest := by
      rw [whole]
      rfl
    rw [parseSet]
    refine (parseSetItems_complete members ((if_pos caret).trans left)).bind fun within => ?_
    dsimp only
    rw [if_neg some_member, decide_eq_true caret]
    exact gives_ok ..

theorem takeDigits_complete {collected digits rest : List Nat} (all : ∀ digit ∈ digits, isDigit digit)
    (short : collected.length + digits.length ≤ MAX_NUMBER_RANGE_DIGITS) (stops : rest.head?.any isDigit = false) :
    (takeDigits collected (digits ++ rest)).value = collected ++ digits ∧
      (takeDigits collected (digits ++ rest)).rest = rest := by
  induction digits generalizing collected with
  | nil =>
    cases rest with
    | nil => exact ⟨(List.append_nil _).symm, rfl⟩
    | cons first rest =>
      have other : ¬ isDigit first = true := by simpa using stops
      rw [List.nil_append, takeDigits, if_neg other, List.append_nil]
      exact ⟨rfl, rfl⟩
  | cons digit digits ih =>
    rw [List.length_cons] at short
    have below : ¬ collected.length = MAX_NUMBER_RANGE_DIGITS := by omega
    rw [List.cons_append, takeDigits, if_pos (all digit List.mem_cons_self), if_neg below]
    have shorter : (collected ++ [digit]).length + digits.length ≤ MAX_NUMBER_RANGE_DIGITS := by
      rw [List.length_append, List.length_singleton]
      omega
    have later := ih (fun other isIn => all other (List.mem_cons_of_mem _ isIn)) shorter
    rw [List.append_assoc] at later
    exact later

theorem readDigits_complete {digits rest : List Nat} (all : ∀ digit ∈ digits, isDigit digit)
    (short : digits.length ≤ MAX_NUMBER_RANGE_DIGITS) (stops : rest.head?.any isDigit = false) :
    (readDigits (digits ++ rest)).value = digits ∧ (readDigits (digits ++ rest)).rest = rest :=
  @takeDigits_complete [] digits rest all (by rw [List.length_nil, Nat.zero_add]; exact short) stops

theorem parseNumberRange_complete {start more rest : List Nat} {bounds : NumberBounds} {expansion : PatternNode}
    (whole : more = bounds.low ++ HYPHEN :: (bounds.high ++ GREATER :: rest))
    (expands : reader.expand bounds = .ok expansion) :
    Gives (reader.parseNumberRange start more) (.numberRange expansion) rest := by
  obtain ⟨lowIs, lowRest⟩ := @readDigits_complete bounds.low (HYPHEN :: (bounds.high ++ GREATER :: rest))
    bounds.lowDigits bounds.lowLength.2 rfl
  rw [← whole] at lowIs lowRest
  have highReads : (readHigh (readDigits more).rest).value = bounds.high ∧
      (readHigh (readDigits more).rest).rest = GREATER :: rest := by
    rw [lowRest]
    exact readDigits_complete bounds.highDigits bounds.highLength.2 rfl
  obtain ⟨highIs, highRest⟩ := highReads
  have lowSome : bounds.low ≠ [] := List.length_pos_iff.mp bounds.lowLength.1
  have highSome : bounds.high ≠ [] := List.length_pos_iff.mp bounds.highLength.1
  have ordered := bounds.ordered
  unfold parseNumberRange
  dsimp only
  split
  next nothing =>
    rw [highRest] at nothing
    cases nothing
  next closing left closed =>
    obtain ⟨rfl, rfl⟩ := List.cons.inj (highRest.symm.trans closed)
    rw [dif_neg (by rw [lowIs, highIs]; simp [lowSome, highSome]),
      dif_neg (by rw [compareDigits, lowIs, highIs]; omega)]
    generalize_proofs
    rw [show NumberBounds.mk _ _ _ _ _ _ _ = bounds from NumberBounds.ext lowIs highIs, expands]
    exact gives_ok ..

/-- What is in a group is read up to the parenthesis that closes it. -/
def Complete (Group : List Nat → PatternNode → Prop) (body : Option PatternReader) : Prop :=
  ∀ text node, Group text node → text.head? ≠ some QUESTION ∧ ∃ read, body = some read ∧
    ∀ input rest, input = text ++ CLOSE_PAREN :: rest → Gives (read input) node (CLOSE_PAREN :: rest)

section
variable {Group : List Nat → PatternNode → Prop} {Expands : NumberBounds → PatternNode → Prop}
  {body : Option PatternReader}

theorem parseEscape_punctuation {start more rest : List Nat} {codePoint : Nat}
    (punctuation : isAsciiPunctuation codePoint) (whole : more = codePoint :: rest) :
    Gives (reader.parseEscape start more) (.literal codePoint) rest := by
  subst whole
  obtain ⟨unknown, other⟩ := lookup_punctuation punctuation
  unfold parseEscape
  dsimp only
  rw [unknown]
  dsimp only
  rw [if_neg other, if_pos punctuation]
  exact gives_ok ..

theorem parseEscape_charClass {start more rest : List Nat} {escaped : Nat} {name : ClassName}
    (known : (escaped, name) ∈ CLASS_ESCAPES) (whole : more = escaped :: rest) :
    Gives (reader.parseEscape start more) (.charClass name) rest := by
  subst whole
  unfold parseEscape
  dsimp only
  rw [(lookup_classEscapes known).1]
  exact gives_ok ..

theorem parseGroup_complete {start more text rest : List Nat} {node : PatternNode} (complete : Complete Group body)
    (inGroup : Group text node) (whole : more = text ++ CLOSE_PAREN :: rest) :
    Gives (reader.parseGroup body start more) node rest := by
  obtain ⟨no_question, read, rfl, reads⟩ := complete text node inGroup
  have plain : more.head? ≠ some QUESTION := by
    rw [whole]
    cases text with
    | nil => exact fun question => absurd (Option.some.inj question) (by decide)
    | cons first others => exact no_question
  rw [parseGroup, if_neg plain]
  refine (reads more rest whole).bind fun within => ?_
  dsimp only
  rw [if_neg (not_not.mpr rfl)]
  exact gives_ok ..

theorem parseAtom_complete {codePoint : Nat} {more text rest : List Nat} {node : PatternNode}
    (complete : Complete Group body) (expands : ∀ bounds node, Expands bounds node → reader.expand bounds = .ok node)
    (isAtom : AtomText Group Expands text node) (whole : codePoint :: more = text ++ rest) :
    Gives (reader.parseAtom body codePoint more) node rest := by
  cases isAtom with
  | literal free =>
    obtain ⟨rfl, rfl⟩ := List.cons.inj whole
    have apart (other : Nat) (reserved : other ∈ RESERVED) : codePoint ≠ other := fun same => free (same ▸ reserved)
    rw [parseAtom, if_neg (apart _ (by decide)), if_neg (apart _ (by decide)), if_neg (apart _ (by decide)),
      if_neg (apart _ (by decide)), if_neg (apart _ (by decide)), if_neg (apart _ (by decide)),
      if_neg (apart _ (by decide)), if_neg free]
    exact gives_ok ..
  | escaped punctuation =>
    obtain ⟨rfl, left⟩ := List.cons.inj whole
    exact parseEscape_punctuation punctuation left
  | any =>
    obtain ⟨rfl, rfl⟩ := List.cons.inj whole
    exact gives_ok ..
  | charClass known =>
    obtain ⟨rfl, left⟩ := List.cons.inj whole
    exact parseEscape_charClass known left
  | start =>
    obtain ⟨rfl, rfl⟩ := List.cons.inj whole
    exact gives_ok ..
  | finish =>
    obtain ⟨rfl, rfl⟩ := List.cons.inj whole
    exact gives_ok ..
  | wordEdge =>
    obtain ⟨rfl, rfl⟩ := List.cons.inj whole
    exact gives_ok ..
  | set members some_member no_caret =>
    obtain ⟨rfl, left⟩ := List.cons.inj whole
    exact (parseSet_complete members some_member).1 no_caret (left.trans (List.append_assoc ..))
  | negatedSet members some_member =>
    obtain ⟨rfl, left⟩ := List.cons.inj whole
    refine (parseSet_complete members some_member).2 (left.trans ?_)
    exact congrArg (CARET :: ·) (List.append_assoc ..)
  | group inGroup =>
    obtain ⟨rfl, left⟩ := List.cons.inj whole
    exact parseGroup_complete complete inGroup (left.trans (List.append_assoc ..))
  | numberRange expanded =>
    obtain ⟨rfl, left⟩ := List.cons.inj whole
    refine parseNumberRange_complete (left.trans ((List.append_assoc ..).trans ?_)) (expands _ _ expanded)
    exact congrArg (_ ++ HYPHEN :: ·) (List.append_assoc ..)

theorem AtomText.head {text : List Nat} {node : PatternNode} (isAtom : AtomText Group Expands text node) :
    ∃ first more, text = first :: more ∧ startsRepeat first = false ∧ first ≠ BAR ∧ first ≠ CLOSE_PAREN := by
  cases isAtom with
  | @literal codePoint free =>
    have apart (other : Nat) (reserved : other ∈ RESERVED) : codePoint ≠ other := fun same => free (same ▸ reserved)
    refine ⟨codePoint, [], rfl, ?_, apart _ (by decide), apart _ (by decide)⟩
    rw [← Bool.not_eq_true, startsRepeat_iff]
    rintro (same | same | same | same) <;> exact apart _ (by decide) same
  | escaped => exact ⟨_, _, rfl, by decide⟩
  | any => exact ⟨_, _, rfl, by decide⟩
  | charClass => exact ⟨_, _, rfl, by decide⟩
  | start => exact ⟨_, _, rfl, by decide⟩
  | finish => exact ⟨_, _, rfl, by decide⟩
  | wordEdge => exact ⟨_, _, rfl, by decide⟩
  | set => exact ⟨_, _, rfl, by decide⟩
  | negatedSet => exact ⟨_, _, rfl, by decide⟩
  | group => exact ⟨_, _, rfl, by decide⟩
  | numberRange => exact ⟨_, _, rfl, by decide⟩

theorem PieceText.head {text : List Nat} {node : PatternNode} (isPiece : PieceText Group Expands text node) :
    ∃ first more, text = first :: more ∧ startsRepeat first = false ∧ first ≠ BAR ∧ first ≠ CLOSE_PAREN := by
  cases isPiece with
  | bare first => exact first.head
  | repeated first counted =>
    obtain ⟨codePoint, more, rfl, free⟩ := first.head
    exact ⟨codePoint, _, rfl, free⟩

theorem parsePiece_complete {codePoint : Nat} {more text rest : List Nat} {node : PatternNode}
    (complete : Complete Group body) (expands : ∀ bounds node, Expands bounds node → reader.expand bounds = .ok node)
    (isPiece : PieceText Group Expands text node) (whole : codePoint :: more = text ++ rest)
    (follows : rest.head?.any startsRepeat = false) : Gives (reader.parsePiece body codePoint more) node rest := by
  rw [parsePiece]
  cases isPiece with
  | bare first =>
    refine (parseAtom_complete complete expands first whole).bind fun within => ?_
    exact (parseRepeat_none follows).bind fun within => gives_ok ..
  | repeated first counted =>
    rw [List.append_assoc] at whole
    refine (parseAtom_complete complete expands first whole).bind fun within => ?_
    refine (parseRepeat_complete counted rfl).bind fun within => ?_
    dsimp only
    split
    next next found =>
      rw [found] at follows
      rw [if_neg (by simpa using follows)]
      exact gives_ok ..
    next => exact gives_ok ..

/-- Where a branch ends. -/
def EndsBranch (rest : List Nat) : Prop :=
  ∀ codePoint, rest.head? = some codePoint → codePoint = BAR ∨ codePoint = CLOSE_PAREN

theorem parsePieces_complete {input text rest : List Nat} {items : List PatternNode} (complete : Complete Group body)
    (expands : ∀ bounds node, Expands bounds node → reader.expand bounds = .ok node)
    (arePieces : PiecesText Group Expands text items) (whole : input = text ++ rest) (ends : EndsBranch rest) :
    Gives (reader.parsePieces body input) items rest := by
  induction arePieces generalizing input with
  | nil =>
    rw [List.nil_append] at whole
    rw [whole, parsePieces.eq_def]
    split
    · exact gives_ok ..
    next codePoint more =>
      rw [if_pos (ends codePoint rfl)]
      exact gives_ok ..
  | @cons text later item items first others ih =>
    rw [List.append_assoc] at whole
    obtain ⟨codePoint, more, rfl, -, no_bar, no_paren⟩ := first.head
    have follows : (later ++ rest).head?.any startsRepeat = false := by
      cases others with
      | nil =>
        cases rest with
        | nil => rfl
        | cons next left =>
          rcases ends next rfl with rfl | rfl
          · rfl
          · rfl
      | cons second others =>
        obtain ⟨next, left, rfl, free, -⟩ := second.head
        simpa using free
    subst whole
    rw [List.cons_append, parsePieces, if_neg (by simp [no_bar, no_paren])]
    refine (parsePiece_complete complete expands first rfl follows).bind fun within => ?_
    exact (ih rfl).bind fun within => gives_ok ..

theorem parseBranch_complete {input text rest : List Nat} {items : List PatternNode} (complete : Complete Group body)
    (expands : ∀ bounds node, Expands bounds node → reader.expand bounds = .ok node)
    (arePieces : PiecesText Group Expands text items) (whole : input = text ++ rest) (ends : EndsBranch rest) :
    Gives (reader.parseBranch body input) (branchNode items) rest := by
  rw [parseBranch]
  exact (parsePieces_complete complete expands arePieces whole ends).bind fun within => gives_ok ..

theorem parseBranches_complete {input text rest : List Nat} {branches : PatternNode × List PatternNode}
    (complete : Complete Group body) (expands : ∀ bounds node, Expands bounds node → reader.expand bounds = .ok node)
    (areBranches : BranchesText Group Expands text branches) (whole : input = text ++ rest)
    (ends : ∀ codePoint, rest.head? = some codePoint → codePoint = CLOSE_PAREN) :
    Gives (reader.parseBranches body input) branches rest := by
  induction areBranches generalizing input with
  | one pieces =>
    rw [parseBranches.eq_def]
    have last : EndsBranch _ := fun codePoint found => .inr (ends codePoint found)
    refine (parseBranch_complete complete expands pieces whole last).bind fun within => ?_
    dsimp only
    split
    next => exact gives_ok ..
    next bar more =>
      rw [if_pos (by rw [ends bar rfl]; decide)]
      exact gives_ok ..
  | @more text later items others pieces _ ih =>
    rw [List.append_assoc, List.cons_append] at whole
    rw [parseBranches.eq_def]
    have bar : EndsBranch (BAR :: (later ++ rest)) := fun codePoint found => .inl (Option.some.inj found).symm
    refine (parseBranch_complete complete expands pieces whole bar).bind fun within => ?_
    dsimp only
    rw [if_neg (not_not.mpr rfl)]
    exact (ih rfl).bind fun within => gives_ok ..

theorem BranchesText.head {text : List Nat} {branches : PatternNode × List PatternNode}
    (areBranches : BranchesText Group Expands text branches) : text.head? ≠ some QUESTION := by
  have pieces_head {text : List Nat} {items : List PatternNode} (pieces : PiecesText Group Expands text items)
      (rest : List Nat) (other : rest.head? ≠ some QUESTION) : (text ++ rest).head? ≠ some QUESTION := by
    cases pieces with
    | nil => exact other
    | cons first others =>
      obtain ⟨codePoint, more, rfl, free, -⟩ := first.head
      intro question
      rw [Option.some.inj question] at free
      cases free
  cases areBranches with
  | one pieces =>
    have head := pieces_head pieces [] (by simp)
    rwa [List.append_nil] at head
  | more pieces later =>
    refine pieces_head pieces _ ?_
    exact fun question => absurd (Option.some.inj question) (by decide)

end

theorem parsePattern_complete {Expands : NumberBounds → PatternNode → Prop}
    (expands : ∀ bounds node, Expands bounds node → reader.expand bounds = .ok node) (levels : Nat)
    {input text rest : List Nat} {node : PatternNode} (isPattern : PatternText Expands levels text node)
    (whole : input = text ++ rest) (ends : ∀ codePoint, rest.head? = some codePoint → codePoint = CLOSE_PAREN) :
    Gives (reader.parsePattern levels input) node rest := by
  induction levels generalizing input text rest node with
  | zero =>
    obtain ⟨branches, areBranches, rfl⟩ := isPattern
    have complete : Complete (fun _ _ => False) none := fun _ _ absent => absent.elim
    rw [parsePattern]
    exact (parseBranches_complete complete expands areBranches whole ends).bind fun within => gives_ok ..
  | succ levels ih =>
    obtain ⟨branches, areBranches, rfl⟩ := isPattern
    have complete : Complete (PatternText Expands levels) (some (reader.parsePattern levels)) := by
      intro text node inGroup
      refine ⟨?_, _, rfl, fun input rest whole => ih inGroup whole fun codePoint found => (Option.some.inj found).symm⟩
      cases levels with
      | zero =>
        obtain ⟨branches, areBranches, -⟩ := inGroup
        exact areBranches.head
      | succ levels =>
        obtain ⟨branches, areBranches, -⟩ := inGroup
        exact areBranches.head
    rw [parsePattern]
    exact (parseBranches_complete complete expands areBranches whole ends).bind fun within => gives_ok ..

theorem parse_complete {Expands : NumberBounds → PatternNode → Prop}
    (expands : ∀ bounds node, Expands bounds node → reader.expand bounds = .ok node) {codePoints : List Nat}
    {node : PatternNode} (isPattern : PatternText Expands MAX_PATTERN_GROUP_DEPTH codePoints node) :
    reader.parse codePoints = .ok node := by
  obtain ⟨within, reads⟩ := @parsePattern_complete reader Expands expands _ codePoints codePoints [] node isPattern
    (List.append_nil _).symm fun _ absent => (nomatch absent)
  rw [parse, reads]
  rfl

theorem parseExpansion_iff (bounds : NumberBounds) (node : PatternNode) :
    parseExpansion bounds = .ok node ↔ ExpansionText bounds node :=
  ⟨parse_sound fun _ _ absent => (nomatch absent), parse_complete fun _ _ absent => absent.elim⟩

/-- The parser returns a tree exactly for the texts of the grammar, and the tree is the one
that the grammar assigns. -/
theorem parseRegex_iff (codePoints : List Nat) (node : PatternNode) :
    parseRegex codePoints = .ok node ↔ RegexText codePoints node :=
  ⟨parse_sound fun bounds node => (parseExpansion_iff bounds node).mp,
    parse_complete fun bounds node => (parseExpansion_iff bounds node).mpr⟩

end Narsil.Pattern
