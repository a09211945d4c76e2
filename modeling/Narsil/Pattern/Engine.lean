import Narsil.Pattern.Simulation

/-!
# The engine answers what the expression means

The states a program may be in at a position of a value, what the simulation
knows of them after each code point, and the answer it gives at the end.
-/
namespace Narsil.Pattern

/-- A state a program may be in at a position, entered wherever `starts` allows. -/
inductive Live (program : PatternProgram) (value : List Nat) (starts : Nat → Prop) : Nat → Nat → Prop
  | start {i : Nat} (allowed : starts i) : Live program value starts program.start i
  | step {state i target j : Nat} (before : Live program value starts state i)
      (leads : Leads program.code value state i target j) : Live program value starts target j

section Runs
variable {program : PatternProgram} {value : List Nat} {starts : Nat → Prop}

theorem Live.reaches {state i : Nat} (live : Live program value starts state i)
    (reaches : Reaches program.code value state i) :
    ∃ k, k ≤ i ∧ starts k ∧ Reaches program.code value program.start k := by
  induction live with
  | start allowed => exact ⟨_, Nat.le_refl _, allowed, reaches⟩
  | step before leads ih =>
    obtain ⟨k, early, allowed, path⟩ := ih (Reaches.before leads reaches)
    refine ⟨k, Nat.le_trans early ?_, allowed, path⟩
    cases leads with
    | consume => exact Nat.le_succ _
    | empty => exact Nat.le_refl _

theorem Live.follow {n state i : Nat} (live : Live program value starts state i)
    (inside : i ≤ value.length) (path : ReachesIn program.code value n state i) :
    ∃ later j, i ≤ j ∧ j ≤ value.length ∧ Live program value starts later j ∧
      program.isMatch later = true := by
  induction n generalizing state i with
  | zero => exact ⟨state, i, Nat.le_refl i, inside, live, isMatch_iff.mpr path⟩
  | succ n ih =>
    obtain ⟨target, j, leads, rest⟩ := path
    have bounds : i ≤ j ∧ j ≤ value.length := by
      cases leads with
      | consume here found accepted =>
        have bound := (List.getElem?_eq_some_iff.mp found).1
        omega
      | empty => exact ⟨Nat.le_refl _, inside⟩
    obtain ⟨later, k, after, within, live', matched⟩ := ih (Live.step live leads) bounds.2 rest
    exact ⟨later, k, Nat.le_trans bounds.1 after, within, live', matched⟩

/-- A match is live at a position of the value. -/
def MatchLive (program : PatternProgram) (value : List Nat) (starts : Nat → Prop) (i : Nat) : Prop :=
  ∃ state, Live program value starts state i ∧ program.isMatch state = true

theorem matchLive_iff_reaches :
    (∃ i ≤ value.length, MatchLive program value starts i) ↔
      ∃ k ≤ value.length, starts k ∧ Reaches program.code value program.start k := by
  constructor
  · rintro ⟨i, within, state, live, matched⟩
    obtain ⟨k, early, allowed, path⟩ := live.reaches ⟨0, isMatch_iff.mp matched⟩
    exact ⟨k, Nat.le_trans early within, allowed, path⟩
  · rintro ⟨k, within, allowed, n, path⟩
    obtain ⟨later, j, _, within', live, matched⟩ := (Live.start allowed).follow within path
    exact ⟨j, within', later, live, matched⟩

/-- Where the simulation enters the program. -/
def EntersAt (program : PatternProgram) (i : Nat) : Prop := i = 0 ∨ program.anchoredStart = false

theorem kindBefore_succ (value : List Nat) (i : Nat) :
    kindBefore value (i + 1) ∈ [WORD_CODE_POINT, OTHER_CODE_POINT] := by
  rw [kindBefore]
  rcases kindOf_cases (value.getD i 0) with ⟨_, kind⟩ | ⟨_, kind⟩ <;> rw [kind] <;> decide

theorem kindAfter_mem (value : List Nat) (i : Nat) :
    kindAfter value i ∈ [AFTER_VALUE_END, WORD_CODE_POINT, OTHER_CODE_POINT] := by
  have bound := kindAfter_le value i
  generalize kindAfter value i = kind at bound
  interval_cases kind <;> decide

theorem anchored_nowhere (h : program.Sound) (anchored : program.anchoredStart = true) {i state : Nat}
    (past : 0 < i)
    (reached : Search.Reachable (program.emptyTargets (contextAt value i)) [program.start] state) :
    program.isConsume state = false ∧ program.isMatch state = false := by
  obtain ⟨i, rfl⟩ : ∃ before, i = before + 1 := ⟨i - 1, by omega⟩
  have checked := h.anchored anchored
  rw [PatternProgram.startsOnlyAtStart, List.all_eq_true] at checked
  have previous := checked _ (kindBefore_succ value i)
  rw [List.all_eq_true] at previous
  have nothing := previous _ (kindAfter_mem value (i + 1))
  have searched := closeOver_searched h [] true (contextAt value (i + 1))
  rw [contextAt] at searched reached
  cases found : program.closeOver [] true
      (contextOf (kindBefore value (i + 1)) (kindAfter value (i + 1))) with
  | none => simp [found] at nothing
  | some marked =>
    rw [found] at searched
    obtain ⟨same, unmatched⟩ := searched
    have member : state ∈ marked := (same state).mpr reached
    simp only [found, List.isEmpty_iff, List.filter_eq_nil_iff] at nothing
    exact ⟨Bool.not_eq_true _ ▸ nothing state member, unmatched state member⟩

theorem live_anchored (h : program.Sound) (anchored : program.anchoredStart = true) {state i : Nat}
    (live : Live program value (fun _ => True) state i) :
    Live program value (EntersAt program) state i ∨
      (0 < i ∧ Search.Reachable (program.emptyTargets (contextAt value i)) [program.start] state) := by
  induction live with
  | @start i _ =>
    rcases Nat.eq_zero_or_pos i with rfl | past
    · exact Or.inl (Live.start (Or.inl rfl))
    · exact Or.inr ⟨past, Search.Reachable.root (by simp)⟩
  | step _ leads ih =>
    rcases ih with live | ⟨past, reached⟩
    · exact Or.inl (Live.step live leads)
    · cases leads with
      | consume here found accepted =>
        have unread := (anchored_nowhere h anchored past reached).1
        rw [isConsume_iff.mpr ⟨_, _, here⟩] at unread
        exact absurd unread (by decide)
      | empty here leads =>
        exact Or.inr ⟨past, reached.step (mem_emptyTargets.mpr ⟨_, here, leads⟩)⟩

theorem Live.mono {starts' : Nat → Prop} (weaker : ∀ i, starts i → starts' i) {state i : Nat}
    (live : Live program value starts state i) : Live program value starts' state i := by
  induction live with
  | start allowed => exact Live.start (weaker _ allowed)
  | step _ leads ih => exact Live.step ih leads

theorem matchLive_entersAt (h : program.Sound) (i : Nat) :
    MatchLive program value (EntersAt program) i ↔ MatchLive program value (fun _ => True) i := by
  constructor
  · rintro ⟨state, live, matched⟩
    exact ⟨state, live.mono fun _ _ => trivial, matched⟩
  · rintro ⟨state, live, matched⟩
    cases anchored : program.anchoredStart with
    | false => exact ⟨state, live.mono fun _ _ => Or.inr anchored, matched⟩
    | true =>
      rcases live_anchored h anchored live with live | ⟨past, reached⟩
      · exact ⟨state, live, matched⟩
      · have unmatched := (anchored_nowhere h anchored past reached).2
        rw [matched] at unmatched
        exact absurd unmatched (by decide)

/-- The positions that accepted the code point before a position of the value. -/
def Accepted (program : PatternProgram) (value : List Nat) (i position : Nat) : Prop :=
  ∃ before literal next codePoint, i = before + 1 ∧ program.code position = some (.consume literal next) ∧
    value[before]? = some codePoint ∧ literal.Accepts codePoint ∧
    Live program value (EntersAt program) position before

/-- What the simulation knows at a position of the value. -/
structure Tracks (program : PatternProgram) (value : List Nat) (i : Nat) (sim : PositionSimulation) :
    Prop where
  after : ∀ position, position ∈ sim.after ↔ Accepted program value i position
  previousKind : sim.previousKind = kindBefore value i

theorem Tracks.reset : Tracks program value 0 PositionSimulation.reset where
  after position := by
    constructor
    · exact fun member => absurd member List.not_mem_nil
    · rintro ⟨before, _, _, _, absurd_zero, _⟩
      exact absurd absurd_zero (by omega)
  previousKind := rfl

theorem kindBefore_eq_start {i : Nat} : kindBefore value i = BEFORE_VALUE_START ↔ i = 0 := by
  cases i with
  | zero => simp [kindBefore]
  | succ i =>
    have kind := kindBefore_succ value i
    simp only [Nat.add_eq_zero_iff, Nat.one_ne_zero, and_false, iff_false]
    intro start
    rw [start] at kind
    exact absurd kind (by decide)

theorem Tracks.fromStart {i : Nat} {sim : PositionSimulation} (tracks : Tracks program value i sim) :
    program.fromStart sim = true ↔ EntersAt program i := by
  rw [PatternProgram.fromStart, tracks.previousKind, Bool.or_eq_true, decide_eq_true_eq,
    kindBefore_eq_start, Bool.not_eq_true', EntersAt]

theorem Tracks.reached_iff {i : Nat} {sim : PositionSimulation} (tracks : Tracks program value i sim)
    {state : Nat} :
    Reached program sim (contextAt value i) state ↔ Live program value (EntersAt program) state i := by
  constructor
  · have along : ∀ n, Live program value (EntersAt program) n i →
        ∀ later ∈ program.emptyTargets (contextAt value i) n,
          Live program value (EntersAt program) later i := by
      intro n live later leads
      obtain ⟨own, here, named⟩ := mem_emptyTargets.mp leads
      exact Live.step live (Leads.empty here named)
    rintro (reached | ⟨enters, reached⟩)
    · apply reached.induct _ along
      intro root is_root
      obtain ⟨position, member, next⟩ := List.mem_filterMap.mp is_root
      obtain ⟨before, literal, target, codePoint, rfl, here, found, accepted, live⟩ :=
        (tracks.after position).mp member
      rw [mem_next_of_code here rfl, Option.some.injEq] at next
      exact next ▸ Live.step live (Leads.consume here found accepted)
    · apply reached.induct _ along
      intro root is_root
      rw [List.mem_singleton.mp is_root]
      exact Live.start (tracks.fromStart.mp enters)
  · intro live
    induction live with
    | start allowed => exact Or.inr ⟨tracks.fromStart.mpr allowed, Search.Reachable.root (by simp)⟩
    | step before leads ih =>
      cases leads with
      | consume here found accepted =>
        -- the position that was left accepted the code point before
        have member := (tracks.after _).mpr ⟨_, _, _, _, rfl, here, found, accepted, before⟩
        exact Or.inl (Search.Reachable.root
          (List.mem_filterMap.mpr ⟨_, member, mem_next_of_code here rfl⟩))
      | empty here leads =>
        have edge := mem_emptyTargets.mpr ⟨_, here, leads⟩
        rcases ih tracks with reached | ⟨enters, reached⟩
        · exact Or.inl (reached.step edge)
        · exact Or.inr ⟨enters, reached.step edge⟩

theorem matchLive_none (anchored : program.anchoredStart = true) {i : Nat}
    (nothing : ∀ position, ¬ Accepted program value (i + 1) position) {state k : Nat}
    (live : Live program value (EntersAt program) state k) : ¬ i + 1 ≤ k := by
  induction live with
  | start allowed =>
    rcases allowed with rfl | loose
    · exact Nat.not_succ_le_zero i
    · rw [anchored] at loose
      exact absurd loose (by decide)
  | step before leads ih =>
    cases leads with
    | empty => exact ih
    | consume here found accepted =>
      intro late
      rcases Nat.lt_or_eq_of_le late with later | same
      · exact ih (Nat.le_of_lt_succ later)
      · obtain rfl := Nat.succ.inj same
        exact nothing _ ⟨_, _, _, _, rfl, here, found, accepted, before⟩

/-- What a step tells at a position with a code point after it. -/
def Stepped (program : PatternProgram) (value : List Nat) (i : Nat) :
    StepOutcome × PositionSimulation → Prop
  | (.matched, _) => MatchLive program value (EntersAt program) i
  | (.continues, stepped) =>
    ¬ MatchLive program value (EntersAt program) i ∧ Tracks program value (i + 1) stepped
  | (.dead, _) => ∀ k, i ≤ k → ¬ MatchLive program value (EntersAt program) k

theorem step_spec (h : program.Sound) {i codePoint : Nat} {sim : PositionSimulation}
    (tracks : Tracks program value i sim) (found : value[i]? = some codePoint) :
    Stepped program value i (program.step sim codePoint) := by
  have context : contextOf sim.previousKind (kindOf codePoint) = contextAt value i := by
    rw [tracks.previousKind, contextAt, kindAfter, found]
  have closure := close_spec h sim (contextAt value i)
  rw [PatternProgram.step]
  simp only [context]
  cases closed : program.close sim (contextAt value i) with
  | none =>
    rw [closed] at closure
    obtain ⟨state, reached, matched⟩ := closure
    exact ⟨state, tracks.reached_iff.mp reached, matched⟩
  | some candidates =>
    rw [closed] at closure
    obtain ⟨listed, unmatched⟩ := closure
    have none_live : ¬ MatchLive program value (EntersAt program) i := by
      rintro ⟨state, live, matched⟩
      have not_matched := unmatched state (tracks.reached_iff.mpr live)
      rw [matched] at not_matched
      exact absurd not_matched (by decide)
    have kept : ∀ position,
        position ∈ candidates.filter (fun position => program.accepts position codePoint) ↔
          Accepted program value (i + 1) position := by
      intro position
      rw [List.mem_filter, listed, tracks.reached_iff]
      constructor
      · rintro ⟨⟨consumes, live⟩, accepted⟩
        obtain ⟨literal, next, here⟩ := isConsume_iff.mp consumes
        exact ⟨i, literal, next, codePoint, rfl, here, found, (accepts_iff here).mp accepted, live⟩
      · rintro ⟨before, literal, next, own, same, here, found', accepted, live⟩
        obtain rfl : i = before := by omega
        obtain rfl : codePoint = own := Option.some.inj (found.symm.trans found')
        exact ⟨⟨isConsume_iff.mpr ⟨literal, next, here⟩, live⟩, (accepts_iff here).mpr accepted⟩
    have tracked : Tracks program value (i + 1)
        ⟨candidates.filter fun position => program.accepts position codePoint, kindOf codePoint⟩ := by
      refine ⟨kept, ?_⟩
      rw [kindBefore, List.getD_eq_getElem?_getD, found, Option.getD_some]
    simp only
    split
    · next ended =>
      rw [Bool.and_eq_true, List.isEmpty_iff] at ended
      obtain ⟨empty, anchored⟩ := ended
      intro k after live
      rcases Nat.lt_or_eq_of_le after with later | rfl
      · obtain ⟨state, live, _⟩ := live
        apply matchLive_none anchored _ live later
        intro position accepted
        have member := (kept position).mpr accepted
        rw [empty] at member
        exact absurd member List.not_mem_nil
      · exact none_live live
    · exact ⟨none_live, tracked⟩

theorem endMatches_spec (h : program.Sound) {sim : PositionSimulation}
    (tracks : Tracks program value value.length sim) :
    program.endMatches sim = true ↔ MatchLive program value (EntersAt program) value.length := by
  have context : contextOf sim.previousKind AFTER_VALUE_END = contextAt value value.length := by
    rw [tracks.previousKind, contextAt, kindAfter, List.getElem?_eq_none (Nat.le_refl _)]
  have closure := close_spec h sim (contextAt value value.length)
  rw [PatternProgram.endMatches, context]
  cases closed : program.close sim (contextAt value value.length) with
  | none =>
    rw [closed] at closure
    obtain ⟨state, reached, matched⟩ := closure
    simp only [Option.isNone_none, true_iff]
    exact ⟨state, tracks.reached_iff.mp reached, matched⟩
  | some candidates =>
    rw [closed] at closure
    simp only [Option.isNone_some, Bool.false_eq_true, false_iff]
    rintro ⟨state, live, matched⟩
    have not_matched := closure.2 state (tracks.reached_iff.mpr live)
    rw [matched] at not_matched
    exact absurd not_matched (by decide)

theorem simulateFrom_spec (h : program.Sound) {rest : List Nat} {i : Nat} {sim : PositionSimulation}
    (suffix : value.drop i = rest) (inside : i ≤ value.length) (tracks : Tracks program value i sim) :
    program.simulateFrom sim rest = true ↔
      ∃ k ≤ value.length, i ≤ k ∧ MatchLive program value (EntersAt program) k := by
  induction rest generalizing i sim with
  | nil =>
    obtain rfl : i = value.length :=
      Nat.le_antisymm inside (List.drop_eq_nil_iff.mp suffix)
    rw [PatternProgram.simulateFrom, endMatches_spec h tracks]
    constructor
    · exact fun live => ⟨_, Nat.le_refl _, Nat.le_refl _, live⟩
    · rintro ⟨k, within, after, live⟩
      exact Nat.le_antisymm within after ▸ live
  | cons codePoint rest ih =>
    have found : value[i]? = some codePoint := by
      have first := congrArg (fun l => l[0]?) suffix
      simpa using first
    have bound := (List.getElem?_eq_some_iff.mp found).1
    have stepped := step_spec h tracks found
    rw [PatternProgram.simulateFrom]
    generalize program.step sim codePoint = result at stepped
    obtain ⟨outcome, after⟩ := result
    cases outcome with
    | matched => simpa using ⟨i, inside, Nat.le_refl i, stepped⟩
    | dead =>
      simp only [Bool.false_eq_true, false_iff]
      rintro ⟨k, _, later, live⟩
      exact stepped k later live
    | continues =>
      obtain ⟨unmatched, tracks'⟩ := stepped
      have later : value.drop (i + 1) = rest := by
        rw [← List.drop_drop, suffix, List.drop_succ_cons, List.drop_zero]
      simp only
      rw [ih later bound tracks']
      constructor
      · rintro ⟨k, within, after', live⟩
        exact ⟨k, within, by omega, live⟩
      · rintro ⟨k, within, after', live⟩
        rcases Nat.lt_or_eq_of_le after' with past | rfl
        · exact ⟨k, within, past, live⟩
        · exact absurd live unmatched

theorem simulate_iff_reaches (h : program.Sound) :
    program.simulate value = true ↔
      ∃ i ≤ value.length, Reaches program.code value program.start i := by
  rw [PatternProgram.simulate, simulateFrom_spec h (List.drop_zero) (Nat.zero_le _) Tracks.reset]
  simp only [matchLive_entersAt h, Nat.zero_le, true_and]
  have reaches : (∃ i ≤ value.length, MatchLive program value (fun _ => True) i) ↔
      ∃ k ≤ value.length, True ∧ Reaches program.code value program.start k :=
    matchLive_iff_reaches
  simpa using reaches

end Runs

section Matching
variable (host : PatternHost) (caseFold : Bool) (value : List Nat)

theorem spansOne_within {accepted : Nat → Prop} {i j : Nat} (h : SpansOne value accepted i j) :
    i ≤ j ∧ (i ≤ value.length → j ≤ value.length) := by
  obtain ⟨codePoint, found, _, rfl⟩ := h
  have bound := (List.getElem?_eq_some_iff.mp found).1
  omega

theorem spansText_within {text : List Nat} {i j : Nat} (h : SpansText value text i j) :
    i ≤ j ∧ (i ≤ value.length → j ≤ value.length) := by
  obtain ⟨held, rfl⟩ := h
  have shorter := held.length_le
  rw [List.length_drop] at shorter
  omega

theorem counted_within {r : Nat → Nat → Prop} {min : Nat} {max : Option Nat}
    (within : ∀ i j, r i j → i ≤ j ∧ (i ≤ value.length → j ≤ value.length)) {i j : Nat}
    (h : Spans.Counted min max r i j) : i ≤ j ∧ (i ≤ value.length → j ≤ value.length) := by
  obtain ⟨n, -, -, rounds⟩ := h
  induction n generalizing i with
  | zero =>
    obtain rfl : i = j := rounds
    exact ⟨Nat.le_refl _, id⟩
  | succ n ih =>
    obtain ⟨mid, first, rest⟩ := rounds
    have one := within i mid first
    have more := ih rest
    omega

mutual

theorem node_within (node : PatternNode) (i j : Nat) (h : node.Spans host caseFold value i j) :
    i ≤ j ∧ (i ≤ value.length → j ≤ value.length) := by
  match node with
  | .literal codePoint => exact spansText_within value h
  | .any => exact spansOne_within value h
  | .charClass name => exact spansOne_within value h
  | .set negated items =>
    rcases h with one | ⟨_, _, codePoint, _, _, text⟩
    · exact spansOne_within value one
    · exact spansText_within value text
  | .assert mask => exact ⟨Nat.le_of_eq h.1, fun inside => h.1 ▸ inside⟩
  | .sequence items => exact sequence_within items i j h
  | .choice first rest =>
    rcases h with own | later
    · exact node_within first i j own
    · exact choice_within rest i j later
  | .repeated body count => exact counted_within value (fun i j => node_within body i j) h
  | .numberRange expansion => exact node_within expansion i j h

theorem sequence_within (items : List PatternNode) (i k : Nat)
    (h : sequenceSpans host caseFold value items i k) :
    i ≤ k ∧ (i ≤ value.length → k ≤ value.length) := by
  match items with
  | [] =>
    obtain rfl : i = k := h
    exact ⟨Nat.le_refl _, id⟩
  | item :: rest =>
    obtain ⟨j, first, later⟩ := h
    have one := node_within item i j first
    have more := sequence_within rest j k later
    omega

theorem choice_within (branches : List PatternNode) (i j : Nat)
    (h : choiceSpans host caseFold value branches i j) :
    i ≤ j ∧ (i ≤ value.length → j ≤ value.length) := by
  match branches with
  | [] => exact absurd h id
  | branch :: rest =>
    rcases h with own | later
    · exact node_within branch i j own
    · exact choice_within rest i j later

end

end Matching

/-- Over a value, folded or not, the program of an expression finds a match when some
    stretch of the value satisfies the expression. -/
theorem simulate_iff_matches (node : PatternNode) (caseFold : Bool) (host : PatternHost)
    (value : List Nat) :
    (compileProgram (lowerPattern node caseFold host)).simulate (foldedValue host caseFold value) =
        true ↔
      node.Matches host caseFold (foldedValue host caseFold value) := by
  generalize foldedValue host caseFold value = read
  rw [simulate_iff_reaches (compileProgram_sound _)]
  simp only [compileProgram_reaches, lowerPattern, lowerNode_spans, PatternNode.Matches]
  constructor
  · rintro ⟨i, inside, j, spans⟩
    obtain ⟨forward, within⟩ := node_within host caseFold read node i j spans
    exact ⟨i, j, forward, within inside, spans⟩
  · rintro ⟨i, j, forward, within, spans⟩
    exact ⟨i, Nat.le_trans forward within, j, spans⟩

end Narsil.Pattern
