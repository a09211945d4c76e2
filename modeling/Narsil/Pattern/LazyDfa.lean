import Narsil.Pattern.Simulation

/-!
# The lazy automaton

Sets of positions become states the first time they are met, within a limit of
bytes. A full cache is dropped and started again; when it fills up too fast, the
value is simulated instead.
-/
namespace Narsil.Pattern

def MATCHER_STATE_OVERHEAD_BYTES : Nat := 96
def MATCHER_TRANSITION_BYTES : Nat := 48
def MATCHER_EDGE_SLOT_BYTES : Nat := 8
def MAX_DENSE_EDGE_CLASSES : Nat := 64
def MATCHER_KEY_CHARACTER_BYTES : Nat := 2
def MATCHER_MIN_CODE_POINTS_PER_STATE : Nat := 10
def SIMULATION_STATE_BYTES : Nat := 8
def SIMULATION_POSITION_BYTES : Nat := 8

def CONTEXTS : Nat := 9

def simulationBytes (program : PatternProgram) : Nat :=
  program.states.length * SIMULATION_STATE_BYTES
    + program.positions * (SIMULATION_POSITION_BYTES + CONTEXTS * 4)

def UNCACHED_GENERATION : Int := -1

/-- Where an edge leads: an answer, or a state by its reference. -/
inductive DfaTarget
  | matched
  | dead
  | state (reference : Nat)

structure DfaState where
  positions : List Nat
  previousKind : Nat
  generation : Int
  denseEdges : Option (List (Option DfaTarget))
  sparseEdges : Option (List (Int × DfaTarget))
  endMatch : Option Bool

namespace DfaState

def fresh (positions : List Nat) (previousKind : Nat) (generation : Int) : DfaState :=
  ⟨positions, previousKind, generation, none, none, none⟩

def clearEdges (state : DfaState) : DfaState := { state with denseEdges := none, sparseEdges := none }

/-- What is loaded into the simulation for a state. -/
def load (state : DfaState) : PositionSimulation := ⟨state.positions, state.previousKind⟩

def cached (state : DfaState) (dense : Bool) (codePointClass : Int) : Option DfaTarget :=
  if dense then state.denseEdges.bind fun edges => (edges[codePointClass.toNat]?).join
  else state.sparseEdges.bind fun edges => Assoc.lookup edges codePointClass

def setSparse (state : DfaState) (codePointClass : Int) (target : DfaTarget) : DfaState :=
  { state with
    sparseEdges := some (Assoc.set (state.sparseEdges.getD []) codePointClass target) }

def setDense (state : DfaState) (denseClasses : Nat) (codePointClass : Int) (target : DfaTarget) :
    DfaState :=
  { state with
    denseEdges := some ((state.denseEdges.getD (List.replicate denseClasses none)).set
      codePointClass.toNat (some target)) }

end DfaState

def stateKey (positions : List Nat) (previousKind : Nat) : List Char :=
  Nat.toDigits 10 previousKind ++ ':' :: [','].intercalate (positions.map (Nat.toDigits 10))

def stateBytes (positions : List Nat) (key : List Char) : Nat :=
  MATCHER_STATE_OVERHEAD_BYTES + 4 * positions.length + key.length * MATCHER_KEY_CHARACTER_BYTES

/-- States are objects shared by the cache, the edges and the automaton: the heap holds
    every one that was made, by its reference. -/
structure LazyDfa where
  heap : List DfaState
  states : List (List Char × Nat)
  generation : Int
  cachedBytes : Nat
  codePointsSinceReset : Nat
  start : Nat
  state : Nat
  simulating : Bool
  decided : Option Bool
  simulation : PositionSimulation
  cacheLimitBytes : Int
  denseClasses : Nat

namespace LazyDfa

def object (dfa : LazyDfa) (reference : Nat) : DfaState :=
  dfa.heap.getD reference (DfaState.fresh [] BEFORE_VALUE_START UNCACHED_GENERATION)

def update (dfa : LazyDfa) (reference : Nat) (change : DfaState → DfaState) : LazyDfa :=
  { dfa with heap := dfa.heap.modify reference change }

def allocate (dfa : LazyDfa) (state : DfaState) : LazyDfa := { dfa with heap := dfa.heap ++ [state] }

def heldBytes (program : PatternProgram) (dfa : LazyDfa) : Nat :=
  program.bytes + simulationBytes program + dfa.cachedBytes

def dropCache (dfa : LazyDfa) : LazyDfa :=
  let cleared := (dfa.states.map Prod.snd ++ [dfa.start, dfa.state]).foldl
    (fun heap reference => heap.modify reference DfaState.clearEdges) dfa.heap
  { dfa with heap := cleared, states := [], cachedBytes := 0 }

/-- How bytes are taken from the cache limit. -/
abbrev Reserve : Type := LazyDfa → Nat → Bool × LazyDfa

def intern (reserve : Reserve) (dfa : LazyDfa) (positions : List Nat) (previousKind : Nat) :
    Nat × LazyDfa :=
  let key := stateKey positions previousKind
  match Assoc.lookup dfa.states key with
  | some existing => (existing, dfa)
  | none =>
    match reserve dfa (stateBytes positions key) with
    | (false, dfa) =>
      (dfa.heap.length, dfa.allocate (.fresh positions previousKind UNCACHED_GENERATION))
    | (true, dfa) =>
      let interned := dfa.allocate (.fresh positions previousKind dfa.generation)
      (dfa.heap.length, { interned with states := Assoc.set dfa.states key dfa.heap.length })

def restartCache (reserve : Reserve) (dfa : LazyDfa) : LazyDfa :=
  let dropped := dfa.dropCache
  let restarted : LazyDfa :=
    { dropped with codePointsSinceReset := 0, generation := dropped.generation + 1 }
  let start := restarted.object restarted.start
  let (reference, interned) := intern reserve restarted start.positions start.previousKind
  { interned with start := reference }

/-- The calls of a method that calls itself, as deep as given. The start is interned in
    an empty cache, and afterwards no code point has been read: neither call restarts it. -/
def reserveWithin : Nat → Reserve
  | 0, dfa, _ => (false, dfa)
  | depth + 1, dfa, bytes =>
    if (dfa.cachedBytes + bytes : Int) ≤ dfa.cacheLimitBytes then
      (true, { dfa with cachedBytes := dfa.cachedBytes + bytes })
    else if dfa.states.length = 0 ∨
        dfa.codePointsSinceReset < MATCHER_MIN_CODE_POINTS_PER_STATE * dfa.states.length then
      (false, dfa)
    else
      let restarted := restartCache (reserveWithin depth) dfa
      if (restarted.object restarted.start).generation = UNCACHED_GENERATION then (false, restarted)
      else reserveWithin depth restarted bytes

def reserve : Reserve := reserveWithin 2

def wantsSimulation (dfa : LazyDfa) : Bool :=
  !dfa.simulating && (dfa.object dfa.state).generation = UNCACHED_GENERATION

def simulate (dfa : LazyDfa) (origin : Nat) : LazyDfa :=
  let loaded := (dfa.object origin).load
  let restarted := dfa.restartCache reserve
  { restarted with state := restarted.start, simulation := loaded, simulating := true }

/-- The cache limit is what the program and the simulation leave. -/
def unset (program : PatternProgram) (stateLimitBytes : Int) : LazyDfa :=
  let classCount := program.classes.starts.length + 1
  { heap := [.fresh [] BEFORE_VALUE_START UNCACHED_GENERATION]
    states := []
    generation := 0
    cachedBytes := 0
    codePointsSinceReset := 0
    start := 0
    state := 0
    simulating := false
    decided := none
    simulation := .reset
    cacheLimitBytes := stateLimitBytes - program.bytes - simulationBytes program
    denseClasses := if classCount ≤ MAX_DENSE_EDGE_CLASSES then classCount else 0 }

def create (program : PatternProgram) (stateLimitBytes : Int) : LazyDfa :=
  let (start, interned) := intern reserve (unset program stateLimitBytes) [] BEFORE_VALUE_START
  let created : LazyDfa := { interned with start := start, state := start }
  if created.wantsSimulation then created.simulate created.start else created

def begin (dfa : LazyDfa) : LazyDfa :=
  let begun : LazyDfa := { dfa with decided := none, simulating := false, state := dfa.start }
  if begun.wantsSimulation then begun.simulate begun.start else begun

def targetCached (dfa : LazyDfa) : DfaTarget → Bool
  | .state reached => (dfa.object reached).generation = dfa.generation
  | _ => true

/-- An edge is kept while its state and its target are of the running cache. -/
def keepEdge (dfa : LazyDfa) (reference : Nat) (current dense : Bool) (codePointClass : Int)
    (target : DfaTarget) : LazyDfa :=
  let generation := (dfa.object reference).generation
  if !current || generation ≠ dfa.generation || !dfa.targetCached target then dfa
  else
    match reserve dfa MATCHER_TRANSITION_BYTES with
    | (false, dfa) => dfa
    | (true, dfa) =>
      if generation ≠ dfa.generation then dfa
      else if !dense then dfa.update reference fun state => state.setSparse codePointClass target
      else if (dfa.object reference).denseEdges.isSome then
        dfa.update reference fun state => state.setDense dfa.denseClasses codePointClass target
      else
        match reserve dfa (dfa.denseClasses * MATCHER_EDGE_SLOT_BYTES) with
        | (false, dfa) => dfa
        | (true, dfa) =>
          if generation ≠ dfa.generation then dfa
          else dfa.update reference fun state => state.setDense dfa.denseClasses codePointClass target

/-- The state a step of the simulation leads to. -/
def targetOf (dfa : LazyDfa) : StepOutcome × PositionSimulation → DfaTarget × LazyDfa
  | (.matched, stepped) => (.matched, { dfa with simulation := stepped })
  | (.dead, stepped) => (.dead, { dfa with simulation := stepped })
  | (.continues, stepped) =>
    let sortedAfter := stepped.after.insertionSort fun left right => left ≤ right
    let (reference, interned) :=
      intern reserve { dfa with simulation := stepped } sortedAfter stepped.previousKind
    (.state reference, interned)

def edge (program : PatternProgram) (dfa : LazyDfa) (reference codePoint : Nat) (codePointClass : Int) :
    DfaTarget × LazyDfa :=
  let state := dfa.object reference
  let current : Bool := state.generation = dfa.generation
  let dense : Bool := 0 ≤ codePointClass && codePointClass < dfa.denseClasses
  match if current then state.cached dense codePointClass else none with
  | some target => (target, dfa)
  | none =>
    let (target, reached) := dfa.targetOf (program.step state.load codePoint)
    (target, reached.keepEdge reference current dense codePointClass target)

def decide (dfa : LazyDfa) (outcome : Bool) : Bool × LazyDfa :=
  (false, { dfa with decided := some outcome })

def feed (program : PatternProgram) (dfa : LazyDfa) (codePoint : Nat) : Bool × LazyDfa :=
  if dfa.simulating then
    match program.step dfa.simulation codePoint with
    | (.matched, stepped) => LazyDfa.decide { dfa with simulation := stepped } true
    | (.dead, stepped) => LazyDfa.decide { dfa with simulation := stepped } false
    | (.continues, stepped) => (true, { dfa with simulation := stepped })
  else
    let counted : LazyDfa := { dfa with codePointsSinceReset := dfa.codePointsSinceReset + 1 }
    match counted.edge program dfa.state codePoint (program.classes.classOf codePoint) with
    | (.matched, dfa) => dfa.decide true
    | (.dead, dfa) => dfa.decide false
    | (.state target, dfa) =>
      let moved : LazyDfa := { dfa with state := target }
      (true, if moved.wantsSimulation then moved.simulate moved.state else moved)

def matched (program : PatternProgram) (dfa : LazyDfa) : Bool × LazyDfa :=
  match dfa.decided with
  | some decided => (decided, dfa)
  | none =>
    if dfa.simulating then (program.endMatches dfa.simulation, dfa)
    else
      let state := dfa.object dfa.state
      match state.endMatch with
      | some endMatch => (endMatch, dfa)
      | none =>
        let endMatch := program.endMatches state.load
        let loaded : LazyDfa := { dfa with simulation := state.load }
        (endMatch, loaded.update dfa.state fun state => { state with endMatch := some endMatch })

/-- Code points are fed until the automaton has decided. -/
def feedAll (program : PatternProgram) (dfa : LazyDfa) : List Nat → LazyDfa
  | [] => dfa
  | codePoint :: rest =>
    match dfa.feed program codePoint with
    | (true, fed) => fed.feedAll program rest
    | (false, fed) => fed

/-- One value run through the automaton. -/
def matchesValue (program : PatternProgram) (dfa : LazyDfa) (value : List Nat) : Bool × LazyDfa :=
  (dfa.begin.feedAll program value).matched program

/-- The answers to values run one after the other. -/
def answers (program : PatternProgram) (dfa : LazyDfa) : List (List Nat) → List Bool
  | [] => []
  | value :: rest =>
    let (answer, left) := dfa.matchesValue program value
    answer :: answers program left rest

end LazyDfa

/-- What the automaton can be asked to do. -/
inductive DfaCall
  | begin
  | feed (codePoint : Nat)
  | matched

def LazyDfa.call (program : PatternProgram) (dfa : LazyDfa) : DfaCall → LazyDfa
  | .begin => dfa.begin
  | .feed codePoint => (dfa.feed program codePoint).2
  | .matched => (dfa.matched program).2

end Narsil.Pattern
