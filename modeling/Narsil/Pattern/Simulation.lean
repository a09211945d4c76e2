import Narsil.Pattern.Compiled

/-!
# The position simulation

A program is run over a value by the positions that accepted the last code
point. Each step closes over the empty transitions, in the context of the code
points on both sides, and keeps the positions that accept the next one.
-/
namespace Narsil.Pattern

/-- The positions that accepted the last code point, and its kind. -/
structure PositionSimulation where
  after : List Nat
  previousKind : Nat

inductive StepOutcome
  | continues | matched | dead
  deriving DecidableEq, Repr

def PositionSimulation.reset : PositionSimulation := ⟨[], BEFORE_VALUE_START⟩

namespace PatternProgram
variable (program : PatternProgram)

/-- The positions the start leads to; none when it leads to a match. -/
def startClosure (context : Nat) : Option (List Nat) :=
  (program.closeOver [] true context).map fun marked => marked.filter program.isConsume

/-- The start is followed at the start of a value, and everywhere else unless that is
    where the program has to match. -/
def fromStart (sim : PositionSimulation) : Bool :=
  sim.previousKind = BEFORE_VALUE_START || !program.anchoredStart

/-- The positions reached in a context; none when a match is. -/
def close (sim : PositionSimulation) (context : Nat) : Option (List Nat) :=
  match if program.fromStart sim then program.startClosure context else some [] with
  | none => none
  | some start =>
    match program.closeOver sim.after false context with
    | none => none
    | some marked =>
      some (marked.filter program.isConsume ++ start.filter fun position => position ∉ marked)

def step (sim : PositionSimulation) (codePoint : Nat) : StepOutcome × PositionSimulation :=
  let following := kindOf codePoint
  match program.close sim (contextOf sim.previousKind following) with
  | none => (.matched, sim)
  | some candidates =>
    let kept := candidates.filter fun position => program.accepts position codePoint
    let stepped : PositionSimulation := ⟨kept, following⟩
    if kept.isEmpty && program.anchoredStart then (.dead, stepped) else (.continues, stepped)

def endMatches (sim : PositionSimulation) : Bool :=
  (program.close sim (contextOf sim.previousKind AFTER_VALUE_END)).isNone

/-- The simulation fed with code points until it decides, or to their end. -/
def simulateFrom (sim : PositionSimulation) : List Nat → Bool
  | [] => program.endMatches sim
  | codePoint :: rest =>
    match program.step sim codePoint with
    | (.matched, _) => true
    | (.dead, _) => false
    | (.continues, stepped) => simulateFrom stepped rest

def simulate (value : List Nat) : Bool := program.simulateFrom PositionSimulation.reset value

end PatternProgram

/-- What a compiled program keeps to: its states name its own, and one anchored at the
    start leads nowhere from there later on. -/
structure PatternProgram.Sound (program : PatternProgram) : Prop where
  closed : Closed program.states 0
  start_lt : program.start < program.states.length
  anchored : program.anchoredStart = true → program.startsOnlyAtStart = true

theorem renumbered_lt {builder : ProgramBuilder} {state : Nat} (inside : state < builder.length) :
    renumbered builder state < (renumberedStates builder).length :=
  (List.getElem?_eq_some_iff.mp
    (renumbered_getElem? builder (List.getElem?_eq_getElem inside))).1

theorem renumber_targets (own : ProgramState) (ρ : Nat → Nat) :
    (own.renumber ρ).targets = own.targets.map ρ := by
  cases own with
  | consume literal next => rfl
  | split next alternative => cases next <;> rfl
  | assert mask next => rfl
  | matched => rfl

theorem renumberedStates_closed {builder : ProgramBuilder} (closed : Closed builder 0) :
    Closed (renumberedStates builder) 0 := by
  intro state own _ here target named
  obtain ⟨before, member, rfl⟩ := List.mem_map.mp (List.mem_of_getElem? here)
  have in_builder : before ∈ builder := by
    rcases List.mem_append.mp member with kept | kept <;> exact List.mem_of_mem_filter kept
  obtain ⟨number, found⟩ := List.mem_iff_getElem?.mp in_builder
  rw [renumber_targets] at named
  obtain ⟨old, is_target, rfl⟩ := List.mem_map.mp named
  exact renumbered_lt (closed number before (Nat.zero_le _) found old is_target)

theorem compileProgram_sound (plan : Plan) : (compileProgram plan).Sound where
  closed := renumberedStates_closed (builtPlan_closed plan)
  start_lt := renumbered_lt (builtPlan_entry_lt plan)
  anchored anchored := anchored

section Closing
variable {program : PatternProgram}

theorem mem_next_of_code {state next : Nat} {own : ProgramState} (here : program.code state = some own)
    (leads : own.next = some next) : program.next state = some next := by
  rw [PatternProgram.next]
  rw [PatternProgram.code] at here
  rw [here]
  exact leads

theorem mem_emptyTargets {context state target : Nat} :
    target ∈ program.emptyTargets context state ↔
      ∃ own, program.code state = some own ∧ target ∈ own.emptyTargets context := by
  rw [PatternProgram.emptyTargets, PatternProgram.code]
  cases program.states[state]? with
  | none => simp
  | some own => simp

theorem isMatch_iff {state : Nat} :
    program.isMatch state = true ↔ program.code state = some .matched := by
  rw [PatternProgram.isMatch, PatternProgram.code]
  cases program.states[state]? with
  | none => simp
  | some own => cases own <;> simp [ProgramState.isMatch]

theorem isConsume_iff {state : Nat} :
    program.isConsume state = true ↔
      ∃ literal next, program.code state = some (.consume literal next) := by
  rw [PatternProgram.isConsume, PatternProgram.code]
  cases program.states[state]? with
  | none => simp
  | some own => cases own <;> simp [ProgramState.isConsume]

theorem Sound.next_lt (h : program.Sound) {state next : Nat} (leads : program.next state = some next) :
    next < program.states.length := by
  obtain ⟨own, here, named⟩ := Option.bind_eq_some_iff.mp leads
  apply h.closed state own (Nat.zero_le _) here
  cases own with
  | consume literal target => simpa [ProgramState.next, ProgramState.targets, eq_comm] using named
  | split target alternative =>
    simp only [ProgramState.next] at named
    simp [named, ProgramState.targets]
  | assert mask target => simpa [ProgramState.next, ProgramState.targets, eq_comm] using named
  | matched => simp [ProgramState.next] at named

/-- The states the positions lead to. -/
def PatternProgram.following (program : PatternProgram) (seeds : List Nat) : List Nat :=
  seeds.filterMap program.next

theorem closeOver_searched (h : program.Sound) (seeds : List Nat) (fromStart : Bool) (context : Nat) :
    Search.Searched (program.emptyTargets context) program.isMatch
      (if fromStart then program.following seeds ++ [program.start] else program.following seeds)
      (program.closeOver seeds fromStart context) := by
  have followed : ∀ state ∈ program.following seeds, state < program.states.length := by
    intro state member
    obtain ⟨seed, _, leads⟩ := List.mem_filterMap.mp member
    exact Sound.next_lt h leads
  have closed : ∀ state ∈ Finset.range program.states.length,
      ∀ target ∈ program.emptyTargets context state, target ∈ Finset.range program.states.length := by
    intro state _ target leads
    obtain ⟨own, here, named⟩ := mem_emptyTargets.mp leads
    rw [Finset.mem_range]
    exact h.closed state own (Nat.zero_le _) here target (emptyTargets_named named)
  apply Search.search_searched closed
  · intro root is_root
    rw [Finset.mem_range]
    cases fromStart with
    | false => exact followed root is_root
    | true =>
      rcases List.mem_append.mp is_root with member | start
      · exact followed root member
      · rw [List.mem_singleton.mp start]
        exact h.start_lt
  · rw [Finset.card_range]

/-- What the simulation reaches in a context. -/
def Reached (program : PatternProgram) (sim : PositionSimulation) (context state : Nat) : Prop :=
  Search.Reachable (program.emptyTargets context) (program.following sim.after) state ∨
    (program.fromStart sim = true ∧
      Search.Reachable (program.emptyTargets context) [program.start] state)

/-- What closing tells: a match is reached, or the positions that are. -/
def Closure (program : PatternProgram) (reached : Nat → Prop) : Option (List Nat) → Prop
  | none => ∃ state, reached state ∧ program.isMatch state = true
  | some candidates =>
    (∀ position, position ∈ candidates ↔ program.isConsume position = true ∧ reached position) ∧
      ∀ state, reached state → program.isMatch state = false

theorem startClosure_spec (h : program.Sound) (context : Nat) :
    Closure program (Search.Reachable (program.emptyTargets context) [program.start])
      (program.startClosure context) := by
  have searched := closeOver_searched h [] true context
  rw [PatternProgram.startClosure]
  cases found : program.closeOver [] true context with
  | none =>
    rw [found] at searched
    exact searched
  | some marked =>
    rw [found] at searched
    obtain ⟨same, unmatched⟩ := searched
    constructor
    · intro position
      rw [List.mem_filter, same]
      exact and_comm
    · exact fun state reached => unmatched state ((same state).mpr reached)

theorem close_spec (h : program.Sound) (sim : PositionSimulation) (context : Nat) :
    Closure program (Reached program sim context) (program.close sim context) := by
  have start := startClosure_spec h context
  have searched := closeOver_searched h sim.after false context
  simp only [Bool.false_eq_true, if_false] at searched
  -- the start closure when it is followed, and no position when it is not
  have started : Closure program (fun state => program.fromStart sim = true ∧
      Search.Reachable (program.emptyTargets context) [program.start] state)
      (if program.fromStart sim then program.startClosure context else some []) := by
    cases program.fromStart sim with
    | true =>
      simp only [if_true, true_and]
      exact start
    | false => simp [Closure]
  rw [PatternProgram.close]
  generalize (if program.fromStart sim then program.startClosure context else some []) = starts at started
  cases starts with
  | none =>
    obtain ⟨state, reached, matched⟩ := started
    exact ⟨state, Or.inr reached, matched⟩
  | some positions =>
    cases found : program.closeOver sim.after false context with
    | none =>
      rw [found] at searched
      obtain ⟨state, reached, matched⟩ := searched
      exact ⟨state, Or.inl reached, matched⟩
    | some marked =>
      rw [found] at searched
      obtain ⟨same, unmatched⟩ := searched
      obtain ⟨listed, unmatched'⟩ := started
      constructor
      · intro position
        simp only [List.mem_append, List.mem_filter, decide_eq_true_eq, same, listed, Reached]
        tauto
      · rintro state (reached | reached)
        · exact unmatched state ((same state).mpr reached)
        · exact unmatched' state reached

theorem accepts_iff {position codePoint : Nat} {literal : Consumed} {next : Nat}
    (here : program.code position = some (.consume literal next)) :
    program.accepts position codePoint = true ↔ literal.Accepts codePoint := by
  rw [PatternProgram.accepts]
  rw [PatternProgram.code] at here
  rw [here]
  cases literal with
  | codePoint own => simp [Consumed.Accepts]
  | any => simp [Consumed.Accepts]
  | tested test => rfl

end Closing

end Narsil.Pattern
