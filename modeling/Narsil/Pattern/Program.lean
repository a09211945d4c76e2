import Narsil.Pattern.Lower
import Narsil.Search.Traversal

/-!
# Compiling a plan

A plan is compiled from its end to its start: each piece is given the state that
follows it. States that consume a code point are the positions of the program
and come first.
-/
namespace Narsil.Pattern

/-- A state. A split is added before its first branch is compiled, unset until then. -/
inductive ProgramState
  | consume (literal : Consumed) (next : Nat)
  | split (next : Option Nat) (alternative : Nat)
  | assert (mask next : Nat)
  | matched

def ProgramState.isConsume : ProgramState → Bool
  | .consume _ _ => true
  | _ => false

def ProgramState.isMatch : ProgramState → Bool
  | .matched => true
  | _ => false

def ProgramState.next : ProgramState → Option Nat
  | .consume _ next => some next
  | .split next _ => next
  | .assert _ next => some next
  | .matched => none

/-- The state with its targets renumbered. -/
def ProgramState.renumber (renumbered : Nat → Nat) : ProgramState → ProgramState
  | .consume literal next => .consume literal (renumbered next)
  | .split next alternative => .split (next.map renumbered) (renumbered alternative)
  | .assert mask next => .assert mask (renumbered next)
  | .matched => .matched

def WORD_KIND_EDGES : List Nat := [0x30, 0x3a, 0x41, 0x5b, 0x5f, 0x60, 0x61, 0x7b]

def DIRECT_CLASS_CODE_POINTS : Nat := 128

structure CodePointClasses where
  starts : List Nat
  isFoldTarget : Option (Nat → Bool)
  direct : List Int

/-- The loop of `searchedClass`, with more rounds than the distance it halves. -/
def searchStarts (starts : List Nat) (codePoint : Nat) : Nat → Nat → Nat → Nat
  | 0, low, _ => low
  | rounds + 1, low, high =>
    if low < high then
      let middle := (low + high) / 2
      if starts.getD middle 0 ≤ codePoint then searchStarts starts codePoint rounds (middle + 1) high
      else searchStarts starts codePoint rounds low middle
    else low

/-- A code point other ones fold to has a class of its own. -/
def searchedClass (starts : List Nat) (isFoldTarget : Option (Nat → Bool)) (codePoint : Nat) : Int :=
  if isFoldTarget.any fun check => check codePoint then -1 - codePoint
  else searchStarts starts codePoint (starts.length + 1) 0 starts.length

def codePointClasses (starts : List Nat) (isFoldTarget : Option (Nat → Bool)) : CodePointClasses where
  starts := starts
  isFoldTarget := isFoldTarget
  direct := (List.range DIRECT_CLASS_CODE_POINTS).map (searchedClass starts isFoldTarget)

def CodePointClasses.classOf (classes : CodePointClasses) (codePoint : Nat) : Int :=
  match classes.direct[codePoint]? with
  | some codePointClass => codePointClass
  | none => searchedClass classes.starts classes.isFoldTarget codePoint

mutual

/-- What the positions of a plan consume, each once. -/
def planConsumed : Plan → List Consumed
  | .consume literal => [literal]
  | .assert _ => []
  | .sequence items => plansConsumed items
  | .choice first rest => planConsumed first ++ plansConsumed rest
  | .repeated body _ => planConsumed body

def plansConsumed : List Plan → List Consumed
  | [] => []
  | plan :: rest => planConsumed plan ++ plansConsumed rest

end

/-- Where the code points accepted start and stop. -/
def Consumed.classEdges : Consumed → List Nat
  | .codePoint own => [own, own + 1]
  | .any => []
  | .tested test => test.ranges.flatMap fun range => [range.1, range.2 + 1]

def Consumed.test : Consumed → Option CodePointTest
  | .tested test => some test
  | _ => none

def planTests (plan : Plan) : List CodePointTest := (planConsumed plan).filterMap Consumed.test

def collectClassEdges (plan : Plan) : List Nat :=
  WORD_KIND_EDGES ++ (planConsumed plan).flatMap Consumed.classEdges

def planClasses (plan : Plan) : CodePointClasses :=
  codePointClasses ((collectClassEdges plan).dedup.insertionSort fun left right => left ≤ right)
    ((planTests plan).findSome? CodePointTest.isFoldTarget)

structure PatternProgram where
  positions : Nat
  states : List ProgramState
  start : Nat
  anchoredStart : Bool
  classes : CodePointClasses
  bytes : Nat

def PROGRAM_STATE_BYTES : Nat := 11
def PROGRAM_POSITION_BYTES : Nat := 12

/-- Each class start and each direct class takes four bytes. -/
def programBytes (states positions : Nat) (tests : List CodePointTest)
    (classes : CodePointClasses) : Nat :=
  states * PROGRAM_STATE_BYTES + positions * PROGRAM_POSITION_BYTES + 4 * classes.starts.length
    + 4 * classes.direct.length + (tests.map CodePointTest.bytes).sum

/-- The states a state leads to without consuming, in a context. -/
def ProgramState.emptyTargets (context : Nat) : ProgramState → List Nat
  | .split next alternative => next.toList ++ [alternative]
  | .assert mask next => if mask.testBit context then [next] else []
  | _ => []

namespace PatternProgram
variable (program : PatternProgram)

def isConsume (state : Nat) : Bool := (program.states[state]?).any ProgramState.isConsume

def isMatch (state : Nat) : Bool := (program.states[state]?).any ProgramState.isMatch

def next (state : Nat) : Option Nat := (program.states[state]?).bind ProgramState.next

def emptyTargets (context state : Nat) : List Nat :=
  ((program.states[state]?).map (ProgramState.emptyTargets context)).getD []

def accepts (position codePoint : Nat) : Bool :=
  match program.states[position]? with
  | some (.consume (.codePoint own) _) => own = codePoint
  | some (.consume .any _) => true
  | some (.consume (.tested test) _) => test.has codePoint
  | _ => false

/-- The states a closure marks, in the order it leaves them; none when it reaches a match. -/
def closeOver (seeds : List Nat) (fromStart : Bool) (context : Nat) : Option (List Nat) :=
  let following := seeds.filterMap program.next
  let roots := if fromStart then following ++ [program.start] else following
  Search.drain (program.emptyTargets context) program.isMatch program.states.length
    (Search.Frontier.pushAll ⟨[], []⟩ roots) []

/-- No closure from the start leads anywhere once a code point has been read. -/
def startsOnlyAtStart : Bool :=
  [WORD_CODE_POINT, OTHER_CODE_POINT].all fun previous =>
    [AFTER_VALUE_END, WORD_CODE_POINT, OTHER_CODE_POINT].all fun following =>
      match program.closeOver [] true (contextOf previous following) with
      | none => false
      | some marked => (marked.filter program.isConsume).isEmpty

end PatternProgram

/-- The states added so far. -/
abbrev ProgramBuilder : Type := List ProgramState

/-- A state added, and its number. -/
def ProgramBuilder.add (builder : ProgramBuilder) (state : ProgramState) : ProgramBuilder × Nat :=
  (builder ++ [state], builder.length)

/-- How a plan is compiled, given the state that follows it. -/
abbrev Compile : Type := ProgramBuilder → Nat → ProgramBuilder × Nat

def loop (compileBody : Compile) (builder : ProgramBuilder) (next : Nat) (entersBody : Bool) :
    ProgramBuilder × Nat :=
  let (started, loop) := builder.add (.split none next)
  let (built, entry) := compileBody started loop
  (built.set loop (.split (some entry) next), if entersBody then entry else loop)

def optionalCopies (compileBody : Compile) (next : Nat) :
    Nat → ProgramBuilder → Nat → ProgramBuilder × Nat
  | 0, builder, entry => (builder, entry)
  | optional + 1, builder, entry =>
    let (built, first) := compileBody builder entry
    let (split, joined) := built.add (.split (some first) next)
    optionalCopies compileBody next optional split joined

def requiredCopies (compileBody : Compile) : Nat → ProgramBuilder → Nat → ProgramBuilder × Nat
  | 0, builder, entry => (builder, entry)
  | required + 1, builder, entry =>
    let (built, first) := compileBody builder entry
    requiredCopies compileBody required built first

def compileRepeat (compileBody : Compile) (min : Nat) (max : Option Nat) : Compile :=
  fun builder next =>
    match max with
    | none =>
      let (looped, entry) := loop compileBody builder next (decide (0 < min))
      requiredCopies compileBody (min - 1) looped entry
    | some most =>
      let (optional, entry) := optionalCopies compileBody next (most - min) builder next
      requiredCopies compileBody min optional entry

/-- A branch put in front of the ones after it. -/
def joinBranch (builder : ProgramBuilder) (first : Nat) : Option Nat → ProgramBuilder × Nat
  | none => (builder, first)
  | some entry => builder.add (.split (some first) entry)

mutual

def compilePlan : Plan → Compile
  | .consume literal => fun builder next => builder.add (.consume literal next)
  | .assert mask => fun builder next =>
    if mask = ANY_CONTEXT_MASK then (builder, next) else builder.add (.assert mask next)
  | .sequence items => compileSequence items
  | .choice first rest => fun builder next =>
    let (others, entry) := compileBranches rest builder next
    let (built, own) := compilePlan first others next
    joinBranch built own entry
  | .repeated body count => compileRepeat (compilePlan body) count.min count.max

/-- The items from the last to the first, each before the ones after it. -/
def compileSequence : List Plan → Compile
  | [] => fun builder next => (builder, next)
  | item :: rest => fun builder next =>
    let (built, entry) := compileSequence rest builder next
    compilePlan item built entry

/-- The branches from the last to the first; no entry when there is none. -/
def compileBranches : List Plan → ProgramBuilder → Nat → ProgramBuilder × Option Nat
  | [], builder, _ => (builder, none)
  | branch :: rest, builder, next =>
    let (others, entry) := compileBranches rest builder next
    let (built, own) := compilePlan branch others next
    let (joined, first) := joinBranch built own entry
    (joined, some first)

end

/-- The number a state has once the positions come first. -/
def renumbered (builder : ProgramBuilder) (state : Nat) : Nat :=
  if (builder[state]?).any ProgramState.isConsume then
    (builder.take state).countP ProgramState.isConsume
  else
    builder.countP ProgramState.isConsume
      + (builder.take state).countP fun other => !other.isConsume

def renumberedStates (builder : ProgramBuilder) : List ProgramState :=
  (builder.filter ProgramState.isConsume ++ builder.filter fun state => !state.isConsume).map
    (ProgramState.renumber (renumbered builder))

def compileProgram (plan : Plan) : PatternProgram :=
  let (builder, start) := compilePlan plan [.matched] 0
  let positions := builder.countP ProgramState.isConsume
  let classes := planClasses plan
  let draft : PatternProgram :=
    { positions := positions
      states := renumberedStates builder
      start := renumbered builder start
      anchoredStart := false
      classes := classes
      bytes := programBytes builder.length positions (planTests plan) classes }
  { draft with anchoredStart := draft.startsOnlyAtStart }

end Narsil.Pattern
