import Narsil.Pattern.Program

/-!
# What a compiled plan reaches

A state reaches a match at a position of the value when a path of states leads
there. The entry a plan is compiled to reaches a match exactly when the state
that follows it does, from where a stretch the plan spans ends.
-/
namespace Narsil.Pattern

section Paths
variable (code : Nat → Option ProgramState) (value : List Nat)

/-- One transition: over a code point, or empty in the context of the position. -/
inductive Leads : Nat → Nat → Nat → Nat → Prop
  | consume {state : Nat} {literal : Consumed} {next codePoint i : Nat}
      (here : code state = some (.consume literal next)) (found : value[i]? = some codePoint)
      (accepted : literal.Accepts codePoint) : Leads state i next (i + 1)
  | empty {state : Nat} {own : ProgramState} {target i : Nat} (here : code state = some own)
      (leads : target ∈ own.emptyTargets (contextAt value i)) : Leads state i target i

/-- A path of a number of transitions leads to a match. -/
def ReachesIn : Nat → Nat → Nat → Prop
  | 0, state, _ => code state = some .matched
  | n + 1, state, i => ∃ target j, Leads code value state i target j ∧ ReachesIn n target j

def Reaches (state i : Nat) : Prop := ∃ n, ReachesIn code value n state i

/-- What a program spans between an entry and the state that follows it. The paths from
    the entry pass through that state, and are no longer from there. -/
structure Bridges (spans : Nat → Nat → Prop) (entry next : Nat) : Prop where
  enters : ∀ i j, spans i j → Reaches code value next j → Reaches code value entry i
  leaves : ∀ n i, ReachesIn code value n entry i →
    ∃ j m, m ≤ n ∧ spans i j ∧ ReachesIn code value m next j

end Paths

section Bridging
variable {code : Nat → Option ProgramState} {value : List Nat} {r s : Nat → Nat → Prop}
  {entry middle next : Nat}

theorem Reaches.before {state i target j : Nat} (first : Leads code value state i target j)
    (rest : Reaches code value target j) : Reaches code value state i := by
  obtain ⟨n, path⟩ := rest
  exact ⟨n + 1, target, j, first, path⟩

theorem ReachesIn.first {n state i : Nat} {own : ProgramState} (here : code state = some own)
    (unmatched : own.isMatch = false) (path : ReachesIn code value n state i) :
    ∃ m target j, n = m + 1 ∧ Leads code value state i target j ∧ ReachesIn code value m target j := by
  cases n with
  | zero =>
    rw [ReachesIn, here, Option.some.injEq] at path
    rw [path] at unmatched
    exact absurd unmatched (by decide)
  | succ n =>
    obtain ⟨target, j, first, rest⟩ := path
    exact ⟨n, target, j, rfl, first, rest⟩

theorem Bridges.congr (h : Bridges code value r entry next) (same : ∀ i j, r i j ↔ s i j) :
    Bridges code value s entry next where
  enters i j spans := h.enters i j ((same i j).mpr spans)
  leaves n i path := by
    obtain ⟨j, m, shorter, spans, rest⟩ := h.leaves n i path
    exact ⟨j, m, shorter, (same i j).mp spans, rest⟩

theorem Bridges.refl (state : Nat) : Bridges code value (fun i j => i = j) state state where
  enters _ _ same reaches := same ▸ reaches
  leaves n i path := ⟨i, n, Nat.le_refl n, rfl, path⟩

theorem Bridges.trans (h : Bridges code value r entry middle) (h' : Bridges code value s middle next) :
    Bridges code value (fun i k => ∃ j, r i j ∧ s j k) entry next where
  enters i k spans reaches := by
    obtain ⟨j, left, right⟩ := spans
    exact h.enters i j left (h'.enters j k right reaches)
  leaves n i path := by
    obtain ⟨j, m, shorter, left, rest⟩ := h.leaves n i path
    obtain ⟨k, l, shorter', right, rest'⟩ := h'.leaves m j rest
    exact ⟨k, l, Nat.le_trans shorter' shorter, ⟨j, left, right⟩, rest'⟩

theorem Bridges.consume {literal : Consumed} (here : code entry = some (.consume literal next)) :
    Bridges code value (SpansOne value fun codePoint => literal.Accepts codePoint) entry next where
  enters i j spans reaches := by
    obtain ⟨codePoint, found, accepted, rfl⟩ := spans
    exact Reaches.before (Leads.consume here found accepted) reaches
  leaves n i path := by
    obtain ⟨m, target, j, rfl, first, rest⟩ := path.first here rfl
    cases first with
    | consume here' found accepted =>
      rw [here, Option.some.injEq, ProgramState.consume.injEq] at here'
      obtain ⟨rfl, rfl⟩ := here'
      exact ⟨_, m, Nat.le_succ m, ⟨_, found, accepted, rfl⟩, rest⟩
    | empty here' leads =>
      rw [here, Option.some.injEq] at here'
      simp [← here', ProgramState.emptyTargets] at leads

theorem ReachesIn.empty {n state i : Nat} {own : ProgramState} (here : code state = some own)
    (unmatched : own.isMatch = false) (unread : own.isConsume = false)
    (path : ReachesIn code value n state i) :
    ∃ m target, n = m + 1 ∧ target ∈ own.emptyTargets (contextAt value i) ∧
      ReachesIn code value m target i := by
  obtain ⟨m, target, j, rfl, first, rest⟩ := path.first here unmatched
  cases first with
  | consume here' found accepted =>
    rw [here, Option.some.injEq] at here'
    simp [here', ProgramState.isConsume] at unread
  | empty here' leads =>
    rw [here, Option.some.injEq] at here'
    subst here'
    exact ⟨m, target, rfl, leads, rest⟩

theorem Bridges.assert {mask : Nat} (here : code entry = some (.assert mask next)) :
    Bridges code value (fun i j => i = j ∧ mask.testBit (contextAt value i) = true) entry next where
  enters i j spans reaches := by
    obtain ⟨rfl, held⟩ := spans
    exact Reaches.before (Leads.empty here (by simp [ProgramState.emptyTargets, held])) reaches
  leaves n i path := by
    obtain ⟨m, target, rfl, leads, rest⟩ := path.empty here rfl rfl
    rw [ProgramState.emptyTargets] at leads
    split at leads
    · next held =>
      obtain rfl := List.mem_singleton.mp leads
      exact ⟨i, m, Nat.le_succ m, ⟨rfl, held⟩, rest⟩
    · exact absurd leads List.not_mem_nil

theorem mem_splitTargets {first alternative context target : Nat} :
    target ∈ (ProgramState.split (some first) alternative).emptyTargets context ↔
      target = first ∨ target = alternative := by
  simp [ProgramState.emptyTargets]

theorem Bridges.split {first second : Nat} (here : code entry = some (.split (some first) second))
    (h : Bridges code value r first next) (h' : Bridges code value s second next) :
    Bridges code value (fun i j => r i j ∨ s i j) entry next where
  enters i j spans reaches := by
    rcases spans with left | right
    · exact Reaches.before (Leads.empty here (mem_splitTargets.mpr (Or.inl rfl)))
        (h.enters i j left reaches)
    · exact Reaches.before (Leads.empty here (mem_splitTargets.mpr (Or.inr rfl)))
        (h'.enters i j right reaches)
  leaves n i path := by
    obtain ⟨m, target, rfl, leads, rest⟩ := path.empty here rfl rfl
    rcases mem_splitTargets.mp leads with rfl | rfl
    · obtain ⟨j, l, shorter, spans, later⟩ := h.leaves m i rest
      exact ⟨j, l, Nat.le_succ_of_le shorter, Or.inl spans, later⟩
    · obtain ⟨j, l, shorter, spans, later⟩ := h'.leaves m i rest
      exact ⟨j, l, Nat.le_succ_of_le shorter, Or.inr spans, later⟩

theorem Bridges.loop {loop : Nat} (here : code loop = some (.split (some entry) next))
    (h : Bridges code value r entry loop) :
    Bridges code value (Spans.Counted 0 none r) loop next where
  enters i j spans reaches := by
    obtain ⟨n, -, -, rounds⟩ := spans
    induction n generalizing i with
    | zero =>
      obtain rfl : i = j := rounds
      exact Reaches.before (Leads.empty here (mem_splitTargets.mpr (Or.inr rfl))) reaches
    | succ n ih =>
      obtain ⟨mid, first, rest⟩ := rounds
      exact Reaches.before (Leads.empty here (mem_splitTargets.mpr (Or.inl rfl)))
        (h.enters i mid first (ih mid rest))
  leaves n i path := by
    -- a round of the body shortens the path, so the rounds are finitely many
    induction n using Nat.strongRecOn generalizing i with
    | ind n ih =>
      obtain ⟨m, target, rfl, leads, rest⟩ := path.empty here rfl rfl
      rcases mem_splitTargets.mp leads with rfl | rfl
      · obtain ⟨mid, l, shorter, first, again⟩ := h.leaves m i rest
        obtain ⟨j, k, shorter', rounds, later⟩ := ih l (Nat.lt_succ_of_le shorter) mid again
        refine ⟨j, k, by omega, ?_, later⟩
        exact Spans.counted_unbounded_zero (Spans.counted_unbounded_step first rounds)
      · exact ⟨i, m, Nat.le_succ m, ⟨0, Nat.le_refl 0, by simp, rfl⟩, rest⟩

theorem counted_one_iff {i k : Nat} :
    Spans.Counted 1 none r i k ↔ ∃ j, r i j ∧ Spans.Counted 0 none r j k := by
  constructor
  · rintro ⟨n, low, _, rounds⟩
    obtain ⟨more, rfl⟩ : ∃ more, n = more + 1 := ⟨n - 1, by omega⟩
    obtain ⟨j, first, rest⟩ := rounds
    exact ⟨j, first, more, Nat.zero_le _, by simp, rest⟩
  · rintro ⟨j, first, rest⟩
    exact Spans.counted_unbounded_step first rest

end Bridging

/-- The program holds the states added between two builders as they were added. -/
def Agrees (code : Nat → Option ProgramState) (builder built : ProgramBuilder) : Prop :=
  ∀ state, builder.length ≤ state → state < built.length → code state = built[state]?

/-- Every state a state names. -/
def ProgramState.targets : ProgramState → List Nat
  | .consume _ next => [next]
  | .split next alternative => next.toList ++ [alternative]
  | .assert _ next => [next]
  | .matched => []

/-- The states from one number on name states that are there. -/
def Closed (builder : ProgramBuilder) (from_ : Nat) : Prop :=
  ∀ state own, from_ ≤ state → builder[state]? = some own →
    ∀ target ∈ own.targets, target < builder.length

/-- What is known of a stretch of states added: what they span, and that no state before
    them was touched. -/
structure Added (value : List Nat) (spans : Nat → Nat → Prop) (builder built : ProgramBuilder)
    (entry next : Nat) : Prop where
  kept : builder <+: built
  entry_lt : next < builder.length → entry < built.length
  closed : next < builder.length → Closed built builder.length
  bridges : ∀ code, Agrees code builder built → Bridges code value spans entry next

section Adding
variable {code : Nat → Option ProgramState} {value : List Nat} {r s : Nat → Nat → Prop}
  {builder middle built : ProgramBuilder} {first entry next : Nat}

theorem kept_getElem? (kept : builder <+: built) {state : Nat} (inside : state < builder.length) :
    built[state]? = builder[state]? := by
  obtain ⟨rest, rfl⟩ := kept
  exact List.getElem?_append_left inside

theorem Agrees.earlier (agrees : Agrees code builder built) (kept : middle <+: built) :
    Agrees code builder middle := by
  intro state after before
  rw [agrees state after (Nat.lt_of_lt_of_le before kept.length_le), kept_getElem? kept before]

theorem Agrees.later (agrees : Agrees code builder built) (kept : builder <+: middle) :
    Agrees code middle built :=
  fun state after before => agrees state (Nat.le_trans kept.length_le after) before

theorem Closed.kept {from_ : Nat} (closed : Closed middle from_) (kept : middle <+: built)
    (later : Closed built middle.length) : Closed built from_ := by
  intro state own after here target named
  rcases Nat.lt_or_ge state middle.length with inside | beyond
  · rw [kept_getElem? kept inside] at here
    exact Nat.lt_of_lt_of_le (closed state own after here target named) kept.length_le
  · exact later state own beyond here target named

theorem Added.congr (h : Added value r builder built entry next) (same : ∀ i j, r i j ↔ s i j) :
    Added value s builder built entry next :=
  { h with bridges := fun code agrees => (h.bridges code agrees).congr same }

theorem Added.refl (builder : ProgramBuilder) (state : Nat) :
    Added value (fun i j => i = j) builder builder state state where
  kept := List.prefix_refl builder
  entry_lt inside := inside
  closed _ state own after here := by
    rw [List.getElem?_eq_none after] at here
    exact absurd here (by simp)
  bridges _ _ := Bridges.refl state

theorem Added.trans (h : Added value s builder middle entry next)
    (h' : Added value r middle built first entry) :
    Added value (fun i k => ∃ j, r i j ∧ s j k) builder built first next where
  kept := h.kept.trans h'.kept
  entry_lt inside := h'.entry_lt (h.entry_lt inside)
  closed inside := (h.closed inside).kept h'.kept (h'.closed (h.entry_lt inside))
  bridges code agrees :=
    (h'.bridges code (agrees.later h.kept)).trans (h.bridges code (agrees.earlier h'.kept))

theorem added_state {own : ProgramState} {state : Nat}
    (named : next < builder.length → ∀ target ∈ own.targets, target < builder.length)
    (bridges : ∀ code, code state = some own → Bridges code value r state next)
    (last : state = builder.length) : Added value r builder (builder ++ [own]) state next where
  kept := List.prefix_append builder [own]
  entry_lt _ := by simp [last]
  closed inside state' own' after here target member := by
    obtain ⟨bound, rfl⟩ := List.getElem?_eq_some_iff.mp here
    have only : state' = builder.length := by
      rw [List.length_append, List.length_singleton] at bound
      omega
    subst only
    rw [List.getElem_concat_length rfl] at member
    have there := named inside target member
    rw [List.length_append]
    omega
  bridges code agrees := by
    apply bridges
    rw [agrees state (Nat.le_of_eq last.symm) (by simp [last]), last, List.getElem?_concat_length]

theorem added_consume (builder : ProgramBuilder) (literal : Consumed) (next : Nat) :
    Added value (SpansOne value fun codePoint => literal.Accepts codePoint) builder
      (builder.add (.consume literal next)).1 (builder.add (.consume literal next)).2 next := by
  apply added_state
  · simp [ProgramState.targets]
  · exact fun code here => Bridges.consume here
  · rfl

theorem added_assert (builder : ProgramBuilder) (mask next : Nat) :
    Added value (fun i j => i = j ∧ mask.testBit (contextAt value i) = true) builder
      (builder.add (.assert mask next)).1 (builder.add (.assert mask next)).2 next := by
  apply added_state
  · simp [ProgramState.targets]
  · exact fun code here => Bridges.assert here
  · rfl

theorem Added.split {second : Nat} (h : Added value s builder middle second next)
    (h' : Added value r middle built first next) :
    Added value (fun i j => r i j ∨ s i j) builder
      (built.add (.split (some first) second)).1 (built.add (.split (some first) second)).2 next := by
  have kept : builder <+: built := h.kept.trans h'.kept
  have grown : built <+: built ++ [.split (some first) second] := List.prefix_append _ _
  constructor
  · exact kept.trans grown
  · intro inside
    simp [ProgramBuilder.add]
  · intro inside
    have next_middle : next < middle.length := Nat.lt_of_lt_of_le inside h.kept.length_le
    apply ((h.closed inside).kept h'.kept (h'.closed next_middle)).kept grown
    intro state own after here target named
    obtain ⟨bound, rfl⟩ := List.getElem?_eq_some_iff.mp here
    have only : state = built.length := by
      simp only [List.length_append, List.length_singleton] at bound
      omega
    subst only
    have first_there := h'.entry_lt next_middle
    have second_there := Nat.lt_of_lt_of_le (h.entry_lt inside) h'.kept.length_le
    simp only [List.getElem_concat_length, ProgramState.targets,
      Option.toList_some, List.singleton_append, List.mem_cons, List.not_mem_nil, or_false] at named
    simp only [List.length_append, List.length_singleton]
    omega
  · intro code agrees
    have here : code built.length = some (.split (some first) second) := by
      rw [agrees built.length kept.length_le (by simp [ProgramBuilder.add])]
      exact List.getElem?_concat_length
    have before : Agrees code builder built := agrees.earlier grown
    exact Bridges.split here (h'.bridges code (before.later h.kept))
      (h.bridges code (before.earlier h'.kept))

theorem added_optionalCopies {compileBody : Compile}
    (body : ∀ builder next, Added value r builder (compileBody builder next).1
      (compileBody builder next).2 next)
    (optional : Nat) {most : Nat} (h : Added value (Spans.Counted 0 (some most) r) builder middle entry next) :
    Added value (Spans.Counted 0 (some (optional + most)) r) builder
      (optionalCopies compileBody next optional middle entry).1
      (optionalCopies compileBody next optional middle entry).2 next := by
  induction optional generalizing middle entry most with
  | zero =>
    rw [Nat.zero_add]
    exact h
  | succ optional ih =>
    have once := (Added.refl builder next).split (h.trans (body middle entry))
    have counted := once.congr fun i k => Spans.counted_max_succ.symm
    rw [show optional + 1 + most = optional + (most + 1) by omega]
    exact ih counted

theorem added_requiredCopies {compileBody : Compile}
    (body : ∀ builder next, Added value r builder (compileBody builder next).1
      (compileBody builder next).2 next)
    (required : Nat) (h : Added value s builder middle entry next) :
    Added value (fun i k => ∃ j, Spans.Iterate r required i j ∧ s j k) builder
      (requiredCopies compileBody required middle entry).1
      (requiredCopies compileBody required middle entry).2 next := by
  induction required generalizing middle entry s with
  | zero => exact h.congr fun i k => by simp [Spans.Iterate]
  | succ required ih =>
    apply (ih (h.trans (body middle entry))).congr
    intro i k
    simp only [Spans.iterate_add, Spans.iterate_one]
    constructor
    · rintro ⟨j, before, mid, last, after⟩
      exact ⟨mid, ⟨j, before, last⟩, after⟩
    · rintro ⟨mid, ⟨j, before, last⟩, after⟩
      exact ⟨j, before, mid, last, after⟩

theorem added_loop {body : Nat}
    (h : Added value r (builder ++ [ProgramState.split none next]) built body builder.length) :
    Added value (Spans.Counted 0 none r) builder
        (built.set builder.length (ProgramState.split (some body) next)) builder.length next ∧
      Added value (Spans.Counted 1 none r) builder
        (built.set builder.length (ProgramState.split (some body) next)) body next := by
  have body_there := h.entry_lt (by simp)
  have body_closed := h.closed (by simp)
  obtain ⟨rest, rfl⟩ := h.kept
  have set_at : (builder ++ [ProgramState.split none next] ++ rest).set builder.length (ProgramState.split (some body) next) =
      builder ++ [ProgramState.split (some body) next] ++ rest := by
    simp
  have same_length : (builder ++ [ProgramState.split (some body) next] ++ rest).length =
      (builder ++ [ProgramState.split none next] ++ rest).length := by simp
  have beyond : ∀ state, builder.length + 1 ≤ state →
      (builder ++ [ProgramState.split (some body) next] ++ rest)[state]? =
        (builder ++ [ProgramState.split none next] ++ rest)[state]? := by
    intro state after
    rw [List.getElem?_append_right (by simpa using after),
      List.getElem?_append_right (by simpa using after)]
    simp
  have here : (builder ++ [ProgramState.split (some body) next] ++ rest)[builder.length]? =
      some (ProgramState.split (some body) next) := by simp
  have closed : next < builder.length →
      Closed (builder ++ [ProgramState.split (some body) next] ++ rest) builder.length := by
    intro inside state own after found target named
    rw [same_length]
    rcases Nat.lt_or_eq_of_le after with later | rfl
    · rw [beyond state later] at found
      have after_split : (builder ++ [ProgramState.split none next]).length ≤ state := by
        rw [List.length_append, List.length_singleton]
        exact later
      exact body_closed state own after_split found target named
    · rw [here, Option.some.injEq] at found
      subst found
      simp only [ProgramState.targets, Option.toList_some, List.singleton_append, List.mem_cons,
        List.not_mem_nil, or_false] at named
      simp only [List.length_append, List.length_singleton] at body_there ⊢
      omega
  have looped : ∀ code, Agrees code builder (builder ++ [ProgramState.split (some body) next] ++ rest) →
      code builder.length = some (ProgramState.split (some body) next) ∧
        Bridges code value r body builder.length := by
    intro code agrees
    refine ⟨?_, h.bridges code ?_⟩
    · rw [agrees builder.length (Nat.le_refl _) (by simp), here]
    · intro state after before
      rw [List.length_append, List.length_singleton] at after
      rw [agrees state (by omega) (same_length ▸ before), beyond state after]
  rw [set_at]
  constructor
  · constructor
    · exact (List.prefix_append _ _).trans (List.prefix_append _ _)
    · intro inside
      simp
    · exact closed
    · intro code agrees
      obtain ⟨split, around⟩ := looped code agrees
      exact Bridges.loop split around
  · constructor
    · exact (List.prefix_append _ _).trans (List.prefix_append _ _)
    · intro inside
      rw [same_length]
      exact body_there
    · exact closed
    · intro code agrees
      obtain ⟨split, around⟩ := looped code agrees
      exact (around.trans (Bridges.loop split around)).congr fun i k => counted_one_iff.symm

theorem added_compileRepeat {compileBody : Compile}
    (body : ∀ builder next, Added value r builder (compileBody builder next).1
      (compileBody builder next).2 next)
    (count : RepeatCount) (builder : ProgramBuilder) (next : Nat) :
    Added value (Spans.Counted count.min count.max r) builder
      (compileRepeat compileBody count.min count.max builder next).1
      (compileRepeat compileBody count.min count.max builder next).2 next := by
  have counted : ∀ {required min : Nat} {max : Option Nat}, required + min = count.min →
      max.map (fun most => required + most) = count.max → ∀ i k,
      (∃ j, Spans.Iterate r required i j ∧ Spans.Counted min max r j k) ↔
        Spans.Counted count.min count.max r i k := by
    intro required min max low high i k
    rw [Spans.iterate_then_counted, low, high]
  have ordered := count.ordered
  cases bounded : count.max with
  | none =>
    obtain ⟨stays, enters⟩ := added_loop (body (builder ++ [ProgramState.split none next]) builder.length)
    rw [← bounded]
    by_cases some_time : 0 < count.min
    · have all := added_requiredCopies body (count.min - 1) enters
      simp only [compileRepeat, bounded, loop, some_time, decide_true, if_true]
      exact bounded ▸ all.congr (counted (by omega) (by simp [bounded]))
    · have all := added_requiredCopies body (count.min - 1) stays
      simp only [compileRepeat, bounded, loop, some_time, decide_false]
      exact bounded ▸ all.congr (counted (by omega) (by simp [bounded]))
  | some most =>
    have low := ordered most bounded
    have unchanged : Added value (fun i j => i = j) builder builder next next :=
      Added.refl builder next
    have none_yet := unchanged.congr fun i j =>
      (Spans.counted_none_of_max_zero (r := r)).symm
    have optional := added_optionalCopies body (most - count.min) none_yet
    have all := added_requiredCopies body count.min optional
    rw [← bounded]
    simp only [compileRepeat, bounded]
    exact bounded ▸ all.congr (counted (by omega) (by simp [bounded]; omega))

/-- The branches of a choice so far: none at all, or an entry in front of them. -/
def BranchesAdded (value : List Nat) (branches : List Plan) (builder : ProgramBuilder) (next : Nat) :
    ProgramBuilder × Option Nat → Prop
  | (built, none) => built = builder ∧ ∀ i j, ¬ planChoiceSpans value branches i j
  | (built, some entry) => Added value (planChoiceSpans value branches) builder built entry next

theorem added_joinBranch {branches : List Plan} {others : Option Nat} {own : Nat}
    (h : BranchesAdded value branches builder next (middle, others))
    (h' : Added value r middle built own next) :
    Added value (fun i j => r i j ∨ planChoiceSpans value branches i j) builder
      (joinBranch built own others).1 (joinBranch built own others).2 next := by
  cases others with
  | none =>
    obtain ⟨rfl, nothing⟩ := h
    exact h'.congr fun i j => by simp [nothing i j]
  | some entry => exact Added.split h h'

end Adding

section Compiling
variable {value : List Nat}

mutual

theorem compilePlan_added (plan : Plan) (builder : ProgramBuilder) (next : Nat) :
    Added value (plan.Spans value) builder (compilePlan plan builder next).1
      (compilePlan plan builder next).2 next := by
  match plan with
  | .consume literal => exact added_consume builder literal next
  | .assert mask =>
    rw [compilePlan]
    split
    · next anything =>
      apply (Added.refl builder next).congr
      intro i j
      simp [Plan.Spans, anything, anyContext_holds]
    · exact added_assert builder mask next
  | .sequence items =>
    rw [compilePlan]
    exact compileSequence_added items builder next
  | .choice first rest =>
    rw [compilePlan]
    exact added_joinBranch (compileBranches_added rest builder next)
      (compilePlan_added first (compileBranches rest builder next).1 next)
  | .repeated body count =>
    rw [compilePlan]
    exact added_compileRepeat (fun builder next => compilePlan_added body builder next) count builder
      next

theorem compileSequence_added (items : List Plan) (builder : ProgramBuilder) (next : Nat) :
    Added value (planSequenceSpans value items) builder (compileSequence items builder next).1
      (compileSequence items builder next).2 next := by
  match items with
  | [] => exact Added.refl builder next
  | item :: rest =>
    rw [compileSequence]
    exact (compileSequence_added rest builder next).trans
      (compilePlan_added item (compileSequence rest builder next).1
        (compileSequence rest builder next).2)

theorem compileBranches_added (branches : List Plan) (builder : ProgramBuilder) (next : Nat) :
    BranchesAdded value branches builder next (compileBranches branches builder next) := by
  match branches with
  | [] => exact ⟨rfl, fun i j spans => spans⟩
  | branch :: rest =>
    rw [compileBranches]
    exact added_joinBranch (compileBranches_added rest builder next)
      (compilePlan_added branch (compileBranches rest builder next).1 next)

end

/-- The builder a plan is compiled into, after the state of the match. -/
def builtPlan (plan : Plan) : ProgramBuilder × Nat := compilePlan plan [.matched] 0

theorem builtPlan_added (value : List Nat) (plan : Plan) :
    Added value (plan.Spans value) [.matched] (builtPlan plan).1 (builtPlan plan).2 0 :=
  compilePlan_added plan [.matched] 0

theorem builtPlan_entry_lt (plan : Plan) : (builtPlan plan).2 < (builtPlan plan).1.length :=
  (builtPlan_added [] plan).entry_lt (by decide)

theorem builtPlan_matched (plan : Plan) : (builtPlan plan).1[0]? = some .matched :=
  kept_getElem? (builtPlan_added [] plan).kept (by decide)

theorem builtPlan_closed (plan : Plan) : Closed (builtPlan plan).1 0 := by
  intro state own _ here target named
  cases state with
  | zero =>
    rw [builtPlan_matched, Option.some.injEq] at here
    simp [← here, ProgramState.targets] at named
  | succ state =>
    exact (builtPlan_added [] plan).closed (by decide) _ own (Nat.succ_le_succ (Nat.zero_le state))
      here target named

theorem builtPlan_reaches (plan : Plan) (i : Nat) :
    Reaches (fun state => (builtPlan plan).1[state]?) value (builtPlan plan).2 i ↔
      ∃ j, plan.Spans value i j := by
  have bridges := (builtPlan_added value plan).bridges (fun state => (builtPlan plan).1[state]?)
    fun _ _ _ => rfl
  constructor
  · rintro ⟨n, path⟩
    obtain ⟨j, _, _, spans, _⟩ := bridges.leaves n i path
    exact ⟨j, spans⟩
  · rintro ⟨j, spans⟩
    exact bridges.enters i j spans ⟨0, builtPlan_matched plan⟩

end Compiling

section Renumbering

theorem filter_getElem?_countP {α : Type} (p : α → Bool) (all : List α) {i : Nat} {x : α}
    (here : all[i]? = some x) (kept : p x = true) :
    (all.filter p)[(all.take i).countP p]? = some x := by
  induction all generalizing i with
  | nil => simp at here
  | cons first rest ih =>
    cases i with
    | zero =>
      obtain rfl : first = x := by simpa using here
      simp [List.filter_cons_of_pos kept]
    | succ i =>
      rw [List.getElem?_cons_succ] at here
      have later := ih here
      rw [List.take_succ_cons, List.countP_cons]
      by_cases own : p first = true
      · rw [List.filter_cons_of_pos own, if_pos own, List.getElem?_cons_succ]
        exact later
      · rw [List.filter_cons_of_neg own, if_neg own]
        exact later

theorem renumbered_getElem? (builder : ProgramBuilder) {state : Nat} {own : ProgramState}
    (here : builder[state]? = some own) :
    (renumberedStates builder)[renumbered builder state]? =
      some (own.renumber (renumbered builder)) := by
  rw [renumberedStates, List.getElem?_map, renumbered, here, Option.any_some]
  cases kind : own.isConsume with
  | true =>
    have found := filter_getElem?_countP ProgramState.isConsume builder here kind
    have inside := (List.getElem?_eq_some_iff.mp found).1
    simp only [if_true]
    rw [List.getElem?_append_left inside, found, Option.map_some]
  | false =>
    have found := filter_getElem?_countP (fun other => !other.isConsume) builder here (by simp [kind])
    simp only [Bool.false_eq_true, if_false]
    rw [List.getElem?_append_right (by rw [List.countP_eq_length_filter]; omega),
      List.countP_eq_length_filter, Nat.add_sub_cancel_left, found, Option.map_some]

theorem renumber_emptyTargets (own : ProgramState) (ρ : Nat → Nat) (context : Nat) :
    (own.renumber ρ).emptyTargets context = (own.emptyTargets context).map ρ := by
  cases own with
  | consume literal next => rfl
  | split next alternative => cases next <;> rfl
  | assert mask next =>
    simp only [ProgramState.renumber, ProgramState.emptyTargets]
    split <;> rfl
  | matched => rfl

theorem renumber_eq_consume {own : ProgramState} {ρ : Nat → Nat} {literal : Consumed} {next : Nat}
    (same : own.renumber ρ = .consume literal next) :
    ∃ target, own = .consume literal target ∧ next = ρ target := by
  cases own with
  | consume literal' target =>
    simp only [ProgramState.renumber, ProgramState.consume.injEq] at same
    exact ⟨target, by rw [same.1], same.2.symm⟩
  | split next alternative => simp [ProgramState.renumber] at same
  | assert mask next => simp [ProgramState.renumber] at same
  | matched => simp [ProgramState.renumber] at same

theorem renumber_eq_matched {own : ProgramState} {ρ : Nat → Nat}
    (same : own.renumber ρ = .matched) : own = .matched := by
  cases own <;> simp_all [ProgramState.renumber]

theorem emptyTargets_named {own : ProgramState} {context target : Nat}
    (leads : target ∈ own.emptyTargets context) : target ∈ own.targets := by
  cases own with
  | consume literal next => simp [ProgramState.emptyTargets] at leads
  | split next alternative => exact leads
  | assert mask next =>
    rw [ProgramState.emptyTargets] at leads
    split at leads
    · exact leads
    · exact absurd leads List.not_mem_nil
  | matched => simp [ProgramState.emptyTargets] at leads

variable {builder : ProgramBuilder} {value : List Nat}

theorem renumbered_leads {state i target j : Nat}
    (h : Leads (fun state => builder[state]?) value state i target j) :
    Leads (fun state => (renumberedStates builder)[state]?) value (renumbered builder state) i
      (renumbered builder target) j := by
  cases h with
  | consume here found accepted =>
    exact Leads.consume (renumbered_getElem? builder here) found accepted
  | empty here leads =>
    apply Leads.empty (renumbered_getElem? builder here)
    rw [renumber_emptyTargets]
    exact List.mem_map_of_mem leads

theorem leads_of_renumbered (closed : Closed builder 0) {state i later j : Nat}
    (inside : state < builder.length)
    (h : Leads (fun state => (renumberedStates builder)[state]?) value (renumbered builder state) i
      later j) :
    ∃ target, target < builder.length ∧ later = renumbered builder target ∧
      Leads (fun state => builder[state]?) value state i target j := by
  have known : builder[state]? = some builder[state] := List.getElem?_eq_getElem inside
  have renamed := renumbered_getElem? builder known
  cases h with
  | consume here found accepted =>
    rw [renamed, Option.some.injEq] at here
    obtain ⟨target, own, rfl⟩ := renumber_eq_consume here
    rw [own] at known
    have named := closed state _ (Nat.zero_le _) known target (by simp [ProgramState.targets])
    exact ⟨target, named, rfl, Leads.consume known found accepted⟩
  | empty here leads =>
    rw [renamed, Option.some.injEq] at here
    rw [← here, renumber_emptyTargets] at leads
    obtain ⟨target, own, rfl⟩ := List.mem_map.mp leads
    have named := closed state _ (Nat.zero_le _) known target (emptyTargets_named own)
    exact ⟨target, named, rfl, Leads.empty known own⟩

theorem renumbered_reachesIn (closed : Closed builder 0) (n : Nat) {state i : Nat}
    (inside : state < builder.length) :
    ReachesIn (fun state => (renumberedStates builder)[state]?) value n (renumbered builder state) i ↔
      ReachesIn (fun state => builder[state]?) value n state i := by
  induction n generalizing state i with
  | zero =>
    have known : builder[state]? = some builder[state] := List.getElem?_eq_getElem inside
    simp only [ReachesIn, renumbered_getElem? builder known, Option.some.injEq, known]
    constructor
    · exact renumber_eq_matched
    · intro own
      rw [own]
      rfl
  | succ n ih =>
    simp only [ReachesIn]
    constructor
    · rintro ⟨later, j, first, rest⟩
      obtain ⟨target, there, rfl, first'⟩ := leads_of_renumbered closed inside first
      exact ⟨target, j, first', (ih there).mp rest⟩
    · rintro ⟨target, j, first, rest⟩
      have there : target < builder.length := by
        cases first with
        | consume here found accepted =>
          exact closed state _ (Nat.zero_le _) here target (by simp [ProgramState.targets])
        | empty here leads =>
          exact closed state _ (Nat.zero_le _) here target (emptyTargets_named leads)
      exact ⟨renumbered builder target, j, renumbered_leads first, (ih there).mpr rest⟩

end Renumbering

/-- What a program is read as. -/
def PatternProgram.code (program : PatternProgram) (state : Nat) : Option ProgramState :=
  program.states[state]?

theorem compileProgram_reaches (plan : Plan) (value : List Nat) (i : Nat) :
    Reaches (compileProgram plan).code value (compileProgram plan).start i ↔
      ∃ j, plan.Spans value i j := by
  rw [← builtPlan_reaches plan i]
  exact exists_congr fun n =>
    renumbered_reachesIn (builtPlan_closed plan) n (builtPlan_entry_lt plan)

end Narsil.Pattern
