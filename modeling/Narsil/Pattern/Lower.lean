import Narsil.Pattern.Expression

/-!
# Lowering

An expression is lowered to a plan: literals folded, sets turned into tests,
nested sequences and choices flattened, assertions side by side merged into one,
and repeats of repeats joined. The plan spans what the expression does.
-/
namespace Narsil.Pattern

/-- What a position consumes. -/
inductive Consumed
  | codePoint (codePoint : Nat)
  | any
  | tested (test : CodePointTest)

inductive Plan
  | consume (literal : Consumed)
  | assert (mask : Nat)
  | sequence (items : List Plan)
  | choice (first : Plan) (rest : List Plan)
  | repeated (body : Plan) (count : RepeatCount)

def EMPTY : Plan := .assert ANY_CONTEXT_MASK

def literalPlan (codePoint : Nat) : Plan := .consume (.codePoint codePoint)

/-- `flushMask`: an assertion that asks for something becomes an item. -/
def flushMask (kept : List Plan) (mask : Nat) : List Plan :=
  if mask ≠ ANY_CONTEXT_MASK then kept ++ [.assert mask] else kept

mutual

/-- One item, after the items kept so far and the mask pending since the last of them. -/
def visitSequence (state : List Plan × Nat) : Plan → List Plan × Nat
  | .sequence items => visitSequenceItems state items
  | .assert mask => (state.1, state.2 &&& mask)
  | item => (flushMask state.1 state.2 ++ [item], ANY_CONTEXT_MASK)

def visitSequenceItems (state : List Plan × Nat) : List Plan → List Plan × Nat
  | [] => state
  | item :: rest => visitSequenceItems (visitSequence state item) rest

end

def sequenceOf (items : List Plan) : Plan :=
  let (kept, mask) := visitSequenceItems ([], ANY_CONTEXT_MASK) items
  match kept with
  | [] => .assert mask
  | _ =>
    match flushMask kept mask with
    | [item] => item
    | items => .sequence items

/-- The branches kept, the contexts an empty branch holds in, whether there is one. -/
structure ChoiceState where
  kept : List Plan
  mask : Nat
  empty : Bool

mutual

def visitChoice (state : ChoiceState) : Plan → ChoiceState
  | .choice first rest => visitChoiceBranches (visitChoice state first) rest
  | .assert mask => { state with mask := state.mask ||| mask, empty := true }
  | branch => { state with kept := state.kept ++ [branch] }

def visitChoiceBranches (state : ChoiceState) : List Plan → ChoiceState
  | [] => state
  | branch :: rest => visitChoiceBranches (visitChoice state branch) rest

end

def choiceOf (branches : List Plan) : Plan :=
  let state := visitChoiceBranches ⟨[], 0, false⟩ branches
  match state.kept with
  | [] => .assert state.mask
  | first :: rest =>
    match if state.empty then rest ++ [.assert state.mask] else rest with
    | [] => first
    | rest => .choice first rest

def RepeatCount.isLoose (count : RepeatCount) : Bool :=
  count.min ≤ 1 && (count.max = none || count.max = some 1)

/-- The bounds of a loose repeat of a loose repeat. -/
def RepeatCount.joined (outer inner : RepeatCount) : RepeatCount where
  min := if outer.min = 0 ∨ inner.min = 0 then 0 else 1
  max := if outer.max = none ∨ inner.max = none then none else some 1
  ordered := by
    intro m bounded
    have one : m = 1 := by
      split at bounded
      · simp at bounded
      · exact (Option.some.inj bounded).symm
    rw [one]
    split <;> omega

/-- A repeat of a body that is not an assertion. -/
def repeatedBody (body : Plan) (count : RepeatCount) : Plan :=
  if count.min = 1 ∧ count.max = some 1 then body
  else
    match body with
    | .repeated inner innerCount =>
      if count.isLoose && innerCount.isLoose then .repeated inner (count.joined innerCount)
      else .repeated body count
    | body => .repeated body count

def repeatOf (body : Plan) (count : RepeatCount) : Plan :=
  if count.max = some 0 then EMPTY
  else
    match body with
    | .assert mask => if count.min = 0 then EMPTY else .assert mask
    | body => repeatedBody body count

def setPlan (negated : Bool) (items : List SetItem) (caseFold : Bool) (host : PatternHost) : Plan :=
  let single := Plan.consume (.tested (setTest items negated caseFold host))
  if !caseFold || negated then single
  else
    match distinctMultiFolds items host with
    | [] => single
    | folds => choiceOf (single :: folds.map fun fold => sequenceOf (fold.map literalPlan))

mutual

def lowerNode (caseFold : Bool) (host : PatternHost) : PatternNode → Plan
  | .literal codePoint =>
    if caseFold then sequenceOf ((host.appendFoldedCodePoint codePoint).map literalPlan)
    else literalPlan codePoint
  | .any => .consume .any
  | .charClass name => .consume (.tested (classTest name))
  | .set negated items => setPlan negated items caseFold host
  | .assert mask => .assert mask
  | .sequence items => sequenceOf (lowerNodes caseFold host items)
  | .choice first rest => choiceOf (lowerNode caseFold host first :: lowerNodes caseFold host rest)
  | .repeated body count => repeatOf (lowerNode caseFold host body) count
  | .numberRange expansion => lowerNode caseFold host expansion

def lowerNodes (caseFold : Bool) (host : PatternHost) : List PatternNode → List Plan
  | [] => []
  | node :: rest => lowerNode caseFold host node :: lowerNodes caseFold host rest

end

def lowerPattern (node : PatternNode) (caseFold : Bool) (host : PatternHost) : Plan :=
  lowerNode caseFold host node

def Consumed.Accepts (codePoint : Nat) : Consumed → Prop
  | .codePoint own => own = codePoint
  | .any => True
  | .tested test => test.has codePoint = true

section Meaning
variable (value : List Nat)

mutual

def Plan.Spans : Plan → Nat → Nat → Prop
  | .consume literal => SpansOne value fun codePoint => literal.Accepts codePoint
  | .assert mask => fun i j => i = j ∧ mask.testBit (contextAt value i) = true
  | .sequence items => planSequenceSpans items
  | .choice first rest => fun i j => first.Spans i j ∨ planChoiceSpans rest i j
  | .repeated body count => Spans.Counted count.min count.max body.Spans

def planSequenceSpans : List Plan → Nat → Nat → Prop
  | [] => fun i j => i = j
  | item :: rest => fun i k => ∃ j, item.Spans i j ∧ planSequenceSpans rest j k

def planChoiceSpans : List Plan → Nat → Nat → Prop
  | [] => fun _ _ => False
  | branch :: rest => fun i j => branch.Spans i j ∨ planChoiceSpans rest i j

end

end Meaning

section Lowering
variable {value : List Nat}

theorem planSequenceSpans_append (left right : List Plan) {i k : Nat} :
    planSequenceSpans value (left ++ right) i k ↔
      ∃ j, planSequenceSpans value left i j ∧ planSequenceSpans value right j k := by
  induction left generalizing i with
  | nil => simp [planSequenceSpans]
  | cons item rest ih =>
    simp only [List.cons_append, planSequenceSpans, ih]
    constructor
    · rintro ⟨mid, first, j, left, right⟩
      exact ⟨j, ⟨mid, first, left⟩, right⟩
    · rintro ⟨j, ⟨mid, first, left⟩, right⟩
      exact ⟨mid, first, j, left, right⟩

theorem planSequenceSpans_singleton (item : Plan) {i j : Nat} :
    planSequenceSpans value [item] i j ↔ item.Spans value i j := by
  simp [planSequenceSpans]

theorem planChoiceSpans_append (left right : List Plan) {i j : Nat} :
    planChoiceSpans value (left ++ right) i j ↔
      planChoiceSpans value left i j ∨ planChoiceSpans value right i j := by
  induction left with
  | nil => simp [planChoiceSpans]
  | cons branch rest ih =>
    simp only [List.cons_append, planChoiceSpans, ih]
    exact or_assoc.symm

theorem anyContext_holds (i : Nat) : ANY_CONTEXT_MASK.testBit (contextAt value i) = true := by
  have bound := contextAt_lt value i
  generalize contextAt value i = context at bound
  interval_cases context <;> rfl

theorem empty_spans {i j : Nat} : EMPTY.Spans value i j ↔ i = j := by
  simp [EMPTY, Plan.Spans, anyContext_holds]

/-- What the items kept and the pending mask span. -/
def SequenceStateSpans (value : List Nat) (state : List Plan × Nat) (i k : Nat) : Prop :=
  planSequenceSpans value state.1 i k ∧ state.2.testBit (contextAt value k) = true

theorem flushMask_spans (kept : List Plan) (mask : Nat) {i k : Nat} :
    planSequenceSpans value (flushMask kept mask) i k ↔
      SequenceStateSpans value (kept, mask) i k := by
  rw [flushMask, SequenceStateSpans]
  split
  · rw [planSequenceSpans_append]
    simp only [planSequenceSpans_singleton, Plan.Spans]
    constructor
    · rintro ⟨j, left, rfl, held⟩
      exact ⟨left, held⟩
    · rintro ⟨left, held⟩
      exact ⟨k, left, rfl, held⟩
  · next same =>
    rw [not_not] at same
    simp [same, anyContext_holds]

theorem pushed_spans (state : List Plan × Nat) (item : Plan) {i k : Nat} :
    SequenceStateSpans value (flushMask state.1 state.2 ++ [item], ANY_CONTEXT_MASK) i k ↔
      ∃ j, SequenceStateSpans value state i j ∧ item.Spans value j k := by
  simp only [SequenceStateSpans, anyContext_holds, and_true, planSequenceSpans_append,
    planSequenceSpans_singleton, flushMask_spans]

mutual

theorem visitSequence_spans (state : List Plan × Nat) (item : Plan) (i k : Nat) :
    SequenceStateSpans value (visitSequence state item) i k ↔
      ∃ j, SequenceStateSpans value state i j ∧ item.Spans value j k := by
  match item with
  | .sequence items =>
    rw [visitSequence, visitSequenceItems_spans state items i k]
    rfl
  | .assert mask =>
    simp only [visitSequence, SequenceStateSpans, Plan.Spans, Nat.testBit_and, Bool.and_eq_true]
    constructor
    · rintro ⟨spans, held, asserted⟩
      exact ⟨k, ⟨spans, held⟩, rfl, asserted⟩
    · rintro ⟨j, ⟨spans, held⟩, rfl, asserted⟩
      exact ⟨spans, held, asserted⟩
  | .consume literal => exact pushed_spans state (.consume literal)
  | .choice first rest => exact pushed_spans state (.choice first rest)
  | .repeated body count => exact pushed_spans state (.repeated body count)

theorem visitSequenceItems_spans (state : List Plan × Nat) (items : List Plan) (i k : Nat) :
    SequenceStateSpans value (visitSequenceItems state items) i k ↔
      ∃ j, SequenceStateSpans value state i j ∧ planSequenceSpans value items j k := by
  match items with
  | [] => simp [visitSequenceItems, planSequenceSpans]
  | item :: rest =>
    rw [visitSequenceItems, visitSequenceItems_spans (visitSequence state item) rest i k]
    simp only [visitSequence_spans state item, planSequenceSpans]
    constructor
    · rintro ⟨j, ⟨mid, before, first⟩, later⟩
      exact ⟨mid, before, j, first, later⟩
    · rintro ⟨mid, before, j, first, later⟩
      exact ⟨j, ⟨mid, before, first⟩, later⟩

end

theorem sequenceOf_spans (items : List Plan) {i k : Nat} :
    (sequenceOf items).Spans value i k ↔ planSequenceSpans value items i k := by
  have visited : SequenceStateSpans value (visitSequenceItems ([], ANY_CONTEXT_MASK) items) i k ↔
      ∃ j, SequenceStateSpans value ([], ANY_CONTEXT_MASK) i j ∧ planSequenceSpans value items j k :=
    visitSequenceItems_spans ([], ANY_CONTEXT_MASK) items i k
  have start : ∀ j, SequenceStateSpans value ([], ANY_CONTEXT_MASK) i j ↔ i = j := by
    intro j
    simp [SequenceStateSpans, planSequenceSpans, anyContext_holds]
  simp only [start, exists_eq_left'] at visited
  rw [← visited, sequenceOf]
  generalize visitSequenceItems ([], ANY_CONTEXT_MASK) items = state
  obtain ⟨kept, mask⟩ := state
  simp only
  split
  · simp only [Plan.Spans, SequenceStateSpans, planSequenceSpans]
    constructor
    · rintro ⟨rfl, held⟩
      exact ⟨rfl, held⟩
    · rintro ⟨rfl, held⟩
      exact ⟨rfl, held⟩
  · rw [← flushMask_spans]
    split
    · next item flushed => rw [flushed, planSequenceSpans_singleton]
    · rfl

theorem literals_span (text : List Nat) {i k : Nat} :
    planSequenceSpans value (text.map literalPlan) i k ↔ SpansText value text i k := by
  induction text generalizing i with
  | nil =>
    simp only [List.map_nil, planSequenceSpans, SpansText, List.nil_prefix, true_and,
      List.length_nil, Nat.add_zero]
    exact eq_comm
  | cons codePoint rest ih =>
    simp only [List.map_cons, planSequenceSpans, literalPlan, Plan.Spans, SpansOne,
      Consumed.Accepts]
    simp only [ih, SpansText, List.length_cons]
    have split_front : codePoint :: rest <+: value.drop i ↔
        value[i]? = some codePoint ∧ rest <+: value.drop (i + 1) := by
      cases found : value[i]? with
      | none =>
        have bound := List.getElem?_eq_none_iff.mp found
        simp [List.drop_eq_nil_of_le bound]
      | some own =>
        obtain ⟨bound, rfl⟩ := List.getElem?_eq_some_iff.mp found
        rw [List.drop_eq_getElem_cons bound, List.cons_prefix_cons, Option.some.injEq]
        exact and_congr_left' eq_comm
    rw [split_front]
    constructor
    · rintro ⟨j, ⟨own, found, rfl, rfl⟩, later, size⟩
      exact ⟨⟨found, later⟩, by omega⟩
    · rintro ⟨⟨found, later⟩, size⟩
      exact ⟨i + 1, ⟨codePoint, found, rfl, rfl⟩, later, by omega⟩

theorem literalSequence_spans (text : List Nat) {i k : Nat} :
    (sequenceOf (text.map literalPlan)).Spans value i k ↔ SpansText value text i k := by
  rw [sequenceOf_spans, literals_span]

def ChoiceStateSpans (value : List Nat) (state : ChoiceState) (i j : Nat) : Prop :=
  planChoiceSpans value state.kept i j ∨ (i = j ∧ state.mask.testBit (contextAt value i) = true)

/-- The mask of a choice without an empty branch holds nowhere. -/
def ChoiceState.Sound (state : ChoiceState) : Prop := state.empty = false → state.mask = 0

theorem kept_spans (state : ChoiceState) (branch : Plan) {i j : Nat} :
    ChoiceStateSpans value { state with kept := state.kept ++ [branch] } i j ↔
      ChoiceStateSpans value state i j ∨ branch.Spans value i j := by
  simp only [ChoiceStateSpans, planChoiceSpans_append, planChoiceSpans, or_false]
  exact or_right_comm

mutual

theorem visitChoice_spans (state : ChoiceState) (branch : Plan) (i j : Nat) :
    ChoiceStateSpans value (visitChoice state branch) i j ↔
      ChoiceStateSpans value state i j ∨ branch.Spans value i j := by
  match branch with
  | .choice first rest =>
    rw [visitChoice, visitChoiceBranches_spans (visitChoice state first) rest i j,
      visitChoice_spans state first i j]
    exact or_assoc
  | .assert mask =>
    simp only [visitChoice, ChoiceStateSpans, Plan.Spans, Nat.testBit_or, Bool.or_eq_true]
    rw [and_or_left]
    exact or_assoc.symm
  | .consume literal => exact kept_spans state (.consume literal)
  | .sequence items => exact kept_spans state (.sequence items)
  | .repeated body count => exact kept_spans state (.repeated body count)

theorem visitChoiceBranches_spans (state : ChoiceState) (branches : List Plan) (i j : Nat) :
    ChoiceStateSpans value (visitChoiceBranches state branches) i j ↔
      ChoiceStateSpans value state i j ∨ planChoiceSpans value branches i j := by
  match branches with
  | [] => simp [visitChoiceBranches, planChoiceSpans]
  | branch :: rest =>
    rw [visitChoiceBranches, visitChoiceBranches_spans (visitChoice state branch) rest i j,
      visitChoice_spans state branch i j]
    exact or_assoc

end

mutual

theorem visitChoice_sound {state : ChoiceState} (h : state.Sound) (branch : Plan) :
    (visitChoice state branch).Sound := by
  match branch with
  | .choice first rest => exact visitChoiceBranches_sound (visitChoice_sound h first) rest
  | .assert mask => exact fun none_empty => absurd none_empty (by simp [visitChoice])
  | .consume literal => exact h
  | .sequence items => exact h
  | .repeated body count => exact h

theorem visitChoiceBranches_sound {state : ChoiceState} (h : state.Sound) (branches : List Plan) :
    (visitChoiceBranches state branches).Sound := by
  match branches with
  | [] => exact h
  | branch :: rest => exact visitChoiceBranches_sound (visitChoice_sound h branch) rest

end

theorem choiceOf_spans (branches : List Plan) {i j : Nat} :
    (choiceOf branches).Spans value i j ↔ planChoiceSpans value branches i j := by
  have visited : ChoiceStateSpans value (visitChoiceBranches ⟨[], 0, false⟩ branches) i j ↔
      ChoiceStateSpans value ⟨[], 0, false⟩ i j ∨ planChoiceSpans value branches i j :=
    visitChoiceBranches_spans ⟨[], 0, false⟩ branches i j
  have start : ChoiceStateSpans value ⟨[], 0, false⟩ i j ↔ False := by
    simp [ChoiceStateSpans, planChoiceSpans]
  have sound : (visitChoiceBranches ⟨[], 0, false⟩ branches).Sound :=
    visitChoiceBranches_sound (fun _ => rfl) branches
  rw [start, false_or] at visited
  rw [← visited, choiceOf]
  generalize visitChoiceBranches ⟨[], 0, false⟩ branches = state at sound
  obtain ⟨kept, mask, empty⟩ := state
  simp only [ChoiceStateSpans]
  cases kept with
  | nil => simp [Plan.Spans, planChoiceSpans]
  | cons first rest =>
    have chosen : ∀ tail : List Plan, (match tail with
        | [] => first
        | rest => .choice first rest : Plan).Spans value i j ↔
          first.Spans value i j ∨ planChoiceSpans value tail i j := by
      intro tail
      cases tail with
      | nil => simp [planChoiceSpans]
      | cons next tail => rfl
    rw [chosen]
    cases empty with
    | true =>
      simp only [if_true, planChoiceSpans_append, planChoiceSpans, Plan.Spans, or_false]
      exact or_assoc.symm
    | false =>
      obtain rfl : mask = 0 := sound rfl
      simp [planChoiceSpans]

theorem isLoose_iff (count : RepeatCount) :
    count.isLoose = true ↔ Spans.Loose count.min count.max := by
  simp [RepeatCount.isLoose, Spans.Loose]

theorem repeatedBody_spans (body : Plan) (count : RepeatCount) {i j : Nat} :
    (repeatedBody body count).Spans value i j ↔
      Spans.Counted count.min count.max (body.Spans value) i j := by
  unfold repeatedBody
  split
  · next once => rw [once.1, once.2, Spans.counted_once]
  · cases body with
    | repeated inner innerCount =>
      dsimp only
      split
      · next loose =>
        rw [Bool.and_eq_true, isLoose_iff, isLoose_iff] at loose
        exact (Spans.counted_loose_twice loose.1 loose.2).symm
      · rfl
    | consume literal => rfl
    | assert mask => rfl
    | sequence items => rfl
    | choice first rest => rfl

theorem repeatOf_spans (body : Plan) (count : RepeatCount) {i j : Nat} :
    (repeatOf body count).Spans value i j ↔
      Spans.Counted count.min count.max (body.Spans value) i j := by
  unfold repeatOf
  split
  · next zero =>
    have none_required : count.min = 0 := Nat.le_zero.mp (count.ordered 0 zero)
    rw [empty_spans, zero, none_required, Spans.counted_none_of_max_zero]
  · cases body with
    | assert mask =>
      have stays : ∀ i j, (Plan.assert mask).Spans value i j → i = j := fun i j h => h.1
      dsimp only
      split
      · next zero => rw [empty_spans, zero, Spans.counted_diagonal_none stays]
      · next positive => rw [Spans.counted_diagonal stays (by omega) count.ordered]
    | consume literal => exact repeatedBody_spans (.consume literal) count
    | sequence items => exact repeatedBody_spans (.sequence items) count
    | choice first rest => exact repeatedBody_spans (.choice first rest) count
    | repeated inner innerCount => exact repeatedBody_spans (.repeated inner innerCount) count

theorem planChoiceSpans_map (folds : List (List Nat)) {i j : Nat} :
    planChoiceSpans value (folds.map fun fold => sequenceOf (fold.map literalPlan)) i j ↔
      ∃ fold ∈ folds, SpansText value fold i j := by
  induction folds with
  | nil => simp [planChoiceSpans]
  | cons fold rest ih => simp [planChoiceSpans, literalSequence_spans, ih]

theorem setPlan_spans (negated : Bool) (items : List SetItem) (caseFold : Bool)
    (host : PatternHost) {i j : Nat} :
    (setPlan negated items caseFold host).Spans value i j ↔
      SetSpans host caseFold value negated items i j := by
  have single : (Plan.consume (.tested (setTest items negated caseFold host))).Spans value i j ↔
      SpansOne value (fun codePoint =>
        (if caseFold then InFoldedSet items host codePoint else InSet items codePoint) ↔
          negated = false) i j := by
    simp only [Plan.Spans, Consumed.Accepts, setTest_has]
  rw [setPlan, SetSpans]
  split
  · next plain =>
    rw [single]
    constructor
    · exact Or.inl
    · rintro (one | ⟨folded, positive, _⟩)
      · exact one
      · simp [folded, positive] at plain
  · next folding =>
    obtain ⟨folded, positive⟩ : caseFold = true ∧ negated = false := by simpa using folding
    have multi : (∃ fold ∈ distinctMultiFolds items host, SpansText value fold i j) ↔
        caseFold = true ∧ negated = false ∧ ∃ codePoint, SetItem.member codePoint ∈ items ∧
          2 ≤ (host.appendFoldedCodePoint codePoint).length ∧
          SpansText value (host.appendFoldedCodePoint codePoint) i j := by
      simp only [distinctMultiFolds_mem, folded, positive, true_and]
      constructor
      · rintro ⟨fold, ⟨long, codePoint, member, rfl⟩, spans⟩
        exact ⟨codePoint, member, long, spans⟩
      · rintro ⟨codePoint, member, long, spans⟩
        exact ⟨_, ⟨long, codePoint, member, rfl⟩, spans⟩
    split
    · next none_multi =>
      rw [single, ← multi, none_multi]
      simp
    · rw [choiceOf_spans, ← multi]
      exact or_congr single (planChoiceSpans_map _)

mutual

theorem lowerNode_spans (caseFold : Bool) (host : PatternHost) (node : PatternNode) (i j : Nat) :
    (lowerNode caseFold host node).Spans value i j ↔ node.Spans host caseFold value i j := by
  match node with
  | .literal codePoint =>
    rw [lowerNode, PatternNode.Spans, foldOf]
    cases caseFold with
    | true => exact literalSequence_spans _
    | false =>
      have one : planSequenceSpans value ([codePoint].map literalPlan) i j ↔
          SpansText value [codePoint] i j := literals_span [codePoint]
      rw [List.map_singleton, planSequenceSpans_singleton] at one
      exact one
  | .any => rfl
  | .charClass name =>
    rw [lowerNode, Plan.Spans, PatternNode.Spans]
    simp only [Consumed.Accepts, classTest_has]
  | .set negated items =>
    rw [lowerNode, PatternNode.Spans]
    exact setPlan_spans negated items caseFold host
  | .assert mask => rfl
  | .sequence items =>
    rw [lowerNode, sequenceOf_spans, PatternNode.Spans]
    exact lowerNodes_sequence caseFold host items i j
  | .choice first rest =>
    rw [lowerNode, choiceOf_spans, PatternNode.Spans]
    exact or_congr (lowerNode_spans caseFold host first i j)
      (lowerNodes_choice caseFold host rest i j)
  | .repeated body count =>
    rw [lowerNode, repeatOf_spans, PatternNode.Spans]
    exact Spans.counted_congr fun i j => lowerNode_spans caseFold host body i j
  | .numberRange expansion =>
    rw [lowerNode, PatternNode.Spans]
    exact lowerNode_spans caseFold host expansion i j

theorem lowerNodes_sequence (caseFold : Bool) (host : PatternHost) (items : List PatternNode)
    (i k : Nat) :
    planSequenceSpans value (lowerNodes caseFold host items) i k ↔
      sequenceSpans host caseFold value items i k := by
  match items with
  | [] => rfl
  | item :: rest =>
    rw [lowerNodes, planSequenceSpans, sequenceSpans]
    exact exists_congr fun j => and_congr (lowerNode_spans caseFold host item i j)
      (lowerNodes_sequence caseFold host rest j k)

theorem lowerNodes_choice (caseFold : Bool) (host : PatternHost) (branches : List PatternNode)
    (i j : Nat) :
    planChoiceSpans value (lowerNodes caseFold host branches) i j ↔
      choiceSpans host caseFold value branches i j := by
  match branches with
  | [] => rfl
  | branch :: rest =>
    rw [lowerNodes, planChoiceSpans, choiceSpans]
    exact or_congr (lowerNode_spans caseFold host branch i j)
      (lowerNodes_choice caseFold host rest i j)

end

end Lowering

end Narsil.Pattern
