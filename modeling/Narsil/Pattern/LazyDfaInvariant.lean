import Narsil.Pattern.Classes
import Narsil.Pattern.LazyDfa

/-!
# What the lazy automaton keeps

Every edge and every answer a state object holds is the one the simulation gives,
whichever cache it was made in, and the cache stays within its limit.
-/
namespace Narsil.Pattern

theorem digits_injective {m n : Nat} (same : Nat.toDigits 10 m = Nat.toDigits 10 n) : m = n := by
  have read : Nat.ofDigitChars 10 (Nat.toDigits 10 m) 0 = Nat.ofDigitChars 10 (Nat.toDigits 10 n) 0 := by
    rw [same]
  rwa [Nat.ofDigitChars_ten_toDigits, Nat.ofDigitChars_ten_toDigits] at read

theorem not_digit {c : Char} (h : c.isDigit = false) (n : Nat) : c ∉ Nat.toDigits 10 n := by
  intro member
  rw [Nat.isDigit_of_mem_toDigits (by decide) (by decide) member] at h
  exact absurd h (by decide)

theorem cut_injective {c : Char} {left left' right right' : List Char} (h : c ∉ left) (h' : c ∉ left')
    (same : left ++ c :: right = left' ++ c :: right') : left = left' ∧ right = right' := by
  induction left generalizing left' with
  | nil =>
    cases left' with
    | nil => exact ⟨rfl, (List.cons.inj same).2⟩
    | cons first rest => exact absurd (List.cons.inj same).1 fun equal => h' (by simp [equal])
  | cons first rest ih =>
    cases left' with
    | nil => exact absurd (List.cons.inj same).1 fun equal => h (by simp [equal])
    | cons first' rest' =>
      obtain ⟨rfl, tails⟩ := List.cons.inj same
      obtain ⟨rfl, rights⟩ := ih (fun member => h (by simp [member])) (fun member => h' (by simp [member])) tails
      exact ⟨rfl, rights⟩

theorem splitOn_joined (position : Nat) (rest : List Nat) :
    ([','].intercalate ((position :: rest).map (Nat.toDigits 10))).splitOn ',' =
      (position :: rest).map (Nat.toDigits 10) := by
  apply List.splitOn_intercalate
  · intro digits member
    obtain ⟨n, _, rfl⟩ := List.mem_map.mp member
    exact not_digit (by decide) n
  · simp

theorem joined_injective {positions others : List Nat}
    (same : [','].intercalate (positions.map (Nat.toDigits 10)) =
      [','].intercalate (others.map (Nat.toDigits 10))) : positions = others := by
  have empty : ∀ position rest,
      [','].intercalate ((position :: rest).map (Nat.toDigits 10)) ≠ [] := by
    intro position rest nothing
    have read := splitOn_joined position rest
    rw [nothing, List.splitOn_nil, List.map_cons] at read
    exact Nat.toDigits_ne_nil (List.cons.inj read).1.symm
  cases positions with
  | nil =>
    cases others with
    | nil => rfl
    | cons other rest => exact absurd same.symm (empty other rest)
  | cons position rest =>
    cases others with
    | nil => exact absurd same (empty position rest)
    | cons other rest' =>
      apply List.map_injective_iff.mpr (fun m n => digits_injective)
      have read := splitOn_joined position rest
      rw [same, splitOn_joined other rest'] at read
      exact read.symm

theorem stateKey_injective {positions others : List Nat} {kind kind' : Nat}
    (same : stateKey positions kind = stateKey others kind') : positions = others ∧ kind = kind' := by
  obtain ⟨kinds, joined⟩ := cut_injective (not_digit (by decide) kind) (not_digit (by decide) kind') same
  exact ⟨joined_injective joined, digits_injective kinds⟩

structure Alike (sim other : PositionSimulation) : Prop where
  after : ∀ position, position ∈ sim.after ↔ position ∈ other.after
  previousKind : sim.previousKind = other.previousKind

theorem Alike.refl (sim : PositionSimulation) : Alike sim sim := ⟨fun _ => Iff.rfl, rfl⟩

theorem Alike.trans {sim other third : PositionSimulation} (h : Alike sim other) (h' : Alike other third) :
    Alike sim third :=
  ⟨fun position => (h.after position).trans (h'.after position), h.previousKind.trans h'.previousKind⟩

/-- The same outcome, and simulations that know the same when they go on. -/
def AlikeSteps : StepOutcome × PositionSimulation → StepOutcome × PositionSimulation → Prop
  | (.continues, sim), (.continues, other) => Alike sim other
  | (.matched, _), (.matched, _) => True
  | (.dead, _), (.dead, _) => True
  | _, _ => False

section Steps
variable {program : PatternProgram} {sim other : PositionSimulation}

theorem reached_alike (alike : Alike sim other) (context state : Nat) :
    Reached program sim context state ↔ Reached program other context state := by
  have starts : program.fromStart sim = program.fromStart other := by
    rw [PatternProgram.fromStart, PatternProgram.fromStart, alike.previousKind]
  have roots : ∀ root, root ∈ program.following sim.after ↔ root ∈ program.following other.after := by
    intro root
    simp only [PatternProgram.following, List.mem_filterMap, alike.after]
  simp only [Reached, starts, Search.Reachable, roots]

theorem Closure.unique {reached : Nat → Prop} {left right : Option (List Nat)}
    (h : Closure program reached left) (h' : Closure program reached right) :
    (left = none ∧ right = none) ∨ ∃ listed listed', left = some listed ∧ right = some listed' ∧
      ∀ position, position ∈ listed ↔ position ∈ listed' := by
  have clash : ∀ {listed : List Nat}, Closure program reached none →
      ¬ Closure program reached (some listed) := by
    rintro listed ⟨state, is_reached, matched⟩ ⟨_, unmatched⟩
    rw [unmatched state is_reached] at matched
    exact absurd matched (by decide)
  cases left with
  | none =>
    cases right with
    | none => exact Or.inl ⟨rfl, rfl⟩
    | some listed => exact absurd h' (clash h)
  | some listed =>
    cases right with
    | none => exact absurd h (clash h')
    | some listed' =>
      exact Or.inr ⟨listed, listed', rfl, rfl, fun position => (h.1 position).trans (h'.1 position).symm⟩

theorem close_alike (h : program.Sound) (alike : Alike sim other) (context : Nat) :
    (program.close sim context = none ∧ program.close other context = none) ∨
      ∃ listed listed', program.close sim context = some listed ∧
        program.close other context = some listed' ∧ ∀ position, position ∈ listed ↔ position ∈ listed' := by
  have own := close_spec h sim context
  have others := close_spec h other context
  rw [show Reached program sim context = Reached program other context from
    funext fun state => propext (reached_alike alike context state)] at own
  exact own.unique others

theorem endMatches_alike (h : program.Sound) (alike : Alike sim other) :
    program.endMatches sim = program.endMatches other := by
  rw [PatternProgram.endMatches, PatternProgram.endMatches, alike.previousKind]
  rcases close_alike h alike (contextOf other.previousKind AFTER_VALUE_END) with
    ⟨left, right⟩ | ⟨listed, listed', left, right, _⟩
  · rw [left, right]
  · rw [left, right]
    rfl

/-- Code points of one kind that the same positions accept. -/
structure SameCodePoint (program : PatternProgram) (a b : Nat) : Prop where
  kind : kindOf a = kindOf b
  accepted : ∀ position, program.accepts position a = program.accepts position b

theorem step_alike (h : program.Sound) (alike : Alike sim other) {a b : Nat}
    (same : SameCodePoint program a b) : AlikeSteps (program.step sim a) (program.step other b) := by
  rw [PatternProgram.step, PatternProgram.step]
  simp only [alike.previousKind, same.kind, same.accepted]
  rcases close_alike h alike (contextOf other.previousKind (kindOf b)) with
    ⟨left, right⟩ | ⟨listed, listed', left, right, listed_same⟩
  · simp only [left, right]
    trivial
  · simp only [left, right]
    have kept : ∀ position, position ∈ listed.filter (fun position => program.accepts position b) ↔
        position ∈ listed'.filter fun position => program.accepts position b := by
      intro position
      rw [List.mem_filter, List.mem_filter, listed_same]
    have empty : (listed.filter fun position => program.accepts position b).isEmpty =
        (listed'.filter fun position => program.accepts position b).isEmpty := by
      rw [Bool.eq_iff_iff, List.isEmpty_iff, List.isEmpty_iff, List.eq_nil_iff_forall_not_mem,
        List.eq_nil_iff_forall_not_mem]
      simp only [kept]
    rw [empty]
    split
    · trivial
    · exact ⟨kept, rfl⟩

end Steps

/-- A program whose classes keep apart the code points it tells apart. -/
structure PatternProgram.Classed (program : PatternProgram) : Prop extends program.Sound where
  uniform : ∀ a b, program.classes.classOf a = program.classes.classOf b → SameCodePoint program a b

theorem compileProgram_classed (node : PatternNode) (caseFold : Bool) (host : PatternHost) :
    (compileProgram (lowerPattern node caseFold host)).Classed where
  toSound := compileProgram_sound _
  uniform _ _ same :=
    ⟨(class_uniform node caseFold host same).1, (class_uniform node caseFold host same).2⟩

/-- Objects stay where they are, with their positions, kind and generation. -/
def Extends (heap later : List DfaState) : Prop :=
  ∀ (reference : Nat) (state : DfaState), heap[reference]? = some state →
    ∃ kept, later[reference]? = some kept ∧ kept.load = state.load ∧ kept.generation = state.generation

theorem Extends.refl (heap : List DfaState) : Extends heap heap :=
  fun _ state here => ⟨state, here, rfl, rfl⟩

theorem Extends.trans {heap middle later : List DfaState} (h : Extends heap middle)
    (h' : Extends middle later) : Extends heap later := by
  intro reference state here
  obtain ⟨kept, there, loads, generation⟩ := h reference state here
  obtain ⟨kept', there', loads', generation'⟩ := h' reference kept there
  exact ⟨kept', there', loads'.trans loads, generation'.trans generation⟩

theorem Extends.allocate (heap : List DfaState) (state : DfaState) : Extends heap (heap ++ [state]) := by
  intro reference own here
  have inside := (List.getElem?_eq_some_iff.mp here).1
  exact ⟨own, by rw [List.getElem?_append_left inside, here], rfl, rfl⟩

theorem Extends.modify (heap : List DfaState) (reference : Nat) {change : DfaState → DfaState}
    (loads : ∀ state, (change state).load = state.load)
    (generation : ∀ state, (change state).generation = state.generation) :
    Extends heap (heap.modify reference change) := by
  intro other state here
  by_cases same : reference = other
  · subst same
    exact ⟨change state, by rw [List.getElem?_modify_eq, here]; rfl, loads state, generation state⟩
  · exact ⟨state, by rw [List.getElem?_modify_ne _ _ same, here], rfl, rfl⟩

/-- The state object of a reference knows what a simulation does. -/
def Holds (heap : List DfaState) (reference : Nat) (sim : PositionSimulation) : Prop :=
  ∃ state, heap[reference]? = some state ∧ Alike state.load sim

theorem Holds.extends {heap later : List DfaState} {reference : Nat} {sim : PositionSimulation}
    (h : Holds heap reference sim) (grown : Extends heap later) : Holds later reference sim := by
  obtain ⟨state, here, alike⟩ := h
  obtain ⟨kept, there, loads, _⟩ := grown reference state here
  exact ⟨kept, there, loads ▸ alike⟩

/-- A target is where a step of the simulation leads. -/
def TargetRight (heap : List DfaState) (target : DfaTarget) : StepOutcome × PositionSimulation → Prop
  | (.matched, _) => target = .matched
  | (.dead, _) => target = .dead
  | (.continues, sim) => ∃ reference, target = .state reference ∧ Holds heap reference sim

theorem TargetRight.extends {heap later : List DfaState} {target : DfaTarget}
    {result : StepOutcome × PositionSimulation} (h : TargetRight heap target result)
    (grown : Extends heap later) : TargetRight later target result := by
  obtain ⟨outcome, sim⟩ := result
  cases outcome with
  | matched => exact h
  | dead => exact h
  | continues =>
    obtain ⟨reference, is_target, holds⟩ := h
    exact ⟨reference, is_target, holds.extends grown⟩

theorem TargetRight.alike {heap : List DfaState} {target : DfaTarget}
    {result other : StepOutcome × PositionSimulation} (h : TargetRight heap target result)
    (alike : AlikeSteps result other) : TargetRight heap target other := by
  obtain ⟨outcome, sim⟩ := result
  obtain ⟨outcome', sim'⟩ := other
  cases outcome <;> cases outcome' <;> first | exact h | exact absurd alike id | skip
  obtain ⟨reference, is_target, state, here, own⟩ := h
  exact ⟨reference, is_target, state, here, own.trans alike⟩

/-- An edge of a class is right for every code point of the class. -/
def EdgeRight (program : PatternProgram) (heap : List DfaState) (origin : PositionSimulation)
    (codePointClass : Int) (target : DfaTarget) : Prop :=
  ∀ codePoint, program.classes.classOf codePoint = codePointClass →
    TargetRight heap target (program.step origin codePoint)

/-- What a state object holds is what the simulation says of its positions. -/
structure StateRight (program : PatternProgram) (heap : List DfaState) (state : DfaState) : Prop where
  endMatch : ∀ answer, state.endMatch = some answer → program.endMatches state.load = answer
  dense : ∀ edges (k : Nat) target, state.denseEdges = some edges → edges[k]? = some (some target) →
    EdgeRight program heap state.load (k : Int) target
  sparse : ∀ edges codePointClass target, state.sparseEdges = some edges →
    Assoc.lookup edges codePointClass = some target →
    EdgeRight program heap state.load codePointClass target

def HeapRight (program : PatternProgram) (heap : List DfaState) : Prop :=
  ∀ (reference : Nat) (state : DfaState), heap[reference]? = some state → StateRight program heap state

section Heap
variable {program : PatternProgram} {heap later : List DfaState} {state : DfaState}

theorem EdgeRight.extends {origin : PositionSimulation} {codePointClass : Int} {target : DfaTarget}
    (h : EdgeRight program heap origin codePointClass target) (grown : Extends heap later) :
    EdgeRight program later origin codePointClass target :=
  fun codePoint same => (h codePoint same).extends grown

theorem StateRight.extends (h : StateRight program heap state) (grown : Extends heap later) :
    StateRight program later state where
  endMatch := h.endMatch
  dense edges k target is_dense here := (h.dense edges k target is_dense here).extends grown
  sparse edges codePointClass target is_sparse here :=
    (h.sparse edges codePointClass target is_sparse here).extends grown

theorem fresh_right (program : PatternProgram) (heap : List DfaState) (positions : List Nat)
    (previousKind : Nat) (generation : Int) :
    StateRight program heap (.fresh positions previousKind generation) where
  endMatch answer held := by simp [DfaState.fresh] at held
  dense edges k target held := by simp [DfaState.fresh] at held
  sparse edges codePointClass target held := by simp [DfaState.fresh] at held

theorem HeapRight.allocate (h : HeapRight program heap) (own : StateRight program heap state) :
    HeapRight program (heap ++ [state]) := by
  intro reference other here
  have grown := Extends.allocate heap state
  rcases Nat.lt_or_ge reference heap.length with inside | beyond
  · rw [List.getElem?_append_left inside] at here
    exact (h reference other here).extends grown
  · rw [List.getElem?_append_right beyond] at here
    obtain ⟨_, is_state⟩ := List.getElem?_eq_some_iff.mp here
    rw [List.getElem_singleton] at is_state
    exact is_state ▸ own.extends grown

theorem HeapRight.modify (h : HeapRight program heap) (reference : Nat) {change : DfaState → DfaState}
    (loads : ∀ state, (change state).load = state.load)
    (generation : ∀ state, (change state).generation = state.generation)
    (right : ∀ state, heap[reference]? = some state → StateRight program heap state →
      StateRight program heap (change state)) :
    HeapRight program (heap.modify reference change) := by
  intro other own here
  have grown := Extends.modify heap reference loads generation
  by_cases same : reference = other
  · subst same
    rw [List.getElem?_modify_eq] at here
    obtain ⟨before, found, rfl⟩ := Option.map_eq_some_iff.mp here
    exact (right before found (h reference before found)).extends grown
  · rw [List.getElem?_modify_ne _ _ same] at here
    exact (h other own here).extends grown

theorem clearEdges_right (h : StateRight program heap state) :
    StateRight program heap state.clearEdges where
  endMatch := h.endMatch
  dense edges k target held := by simp [DfaState.clearEdges] at held
  sparse edges codePointClass target held := by simp [DfaState.clearEdges] at held

theorem setSparse_right (h : StateRight program heap state) {codePointClass : Int} {target : DfaTarget}
    (own : EdgeRight program heap state.load codePointClass target) :
    StateRight program heap (state.setSparse codePointClass target) where
  endMatch := h.endMatch
  dense := h.dense
  sparse edges other reached held here := by
    obtain rfl := Option.some.inj held
    rw [Assoc.lookup_set] at here
    split at here
    · next same =>
      obtain rfl := Option.some.inj here
      exact same ▸ own
    · cases known : state.sparseEdges with
      | none => simp [known, Assoc.lookup] at here
      | some edges => exact h.sparse edges other reached known (by simpa [known] using here)

theorem setDense_right (h : StateRight program heap state) {denseClasses : Nat} {codePointClass : Int}
    {target : DfaTarget} (natural : 0 ≤ codePointClass)
    (own : EdgeRight program heap state.load codePointClass target) :
    StateRight program heap (state.setDense denseClasses codePointClass target) where
  endMatch := h.endMatch
  sparse := h.sparse
  dense edges k reached held here := by
    obtain rfl := Option.some.inj held
    rw [List.getElem?_set] at here
    split at here
    · next same =>
      split at here
      · obtain rfl := Option.some.inj (Option.some.inj here)
        have class_same : (k : Int) = codePointClass := by omega
        exact class_same ▸ own
      · exact absurd here (by simp)
    · cases known : state.denseEdges with
      | none =>
        simp only [known, Option.getD_none, List.getElem?_replicate] at here
        split at here <;> exact absurd here (by simp)
      | some edges => exact h.dense edges k reached known (by simpa [known] using here)

theorem cached_right (h : StateRight program heap state) {dense : Bool} {codePointClass : Int}
    {target : DfaTarget} (natural : dense = true → 0 ≤ codePointClass)
    (found : state.cached dense codePointClass = some target) :
    EdgeRight program heap state.load codePointClass target := by
  rw [DfaState.cached] at found
  cases dense with
  | true =>
    simp only [if_true] at found
    obtain ⟨edges, held, here⟩ := Option.bind_eq_some_iff.mp found
    have right := h.dense edges codePointClass.toNat target held (by simpa [Option.join_eq_some_iff] using here)
    rwa [Int.toNat_of_nonneg (natural rfl)] at right
  | false =>
    simp only [Bool.false_eq_true, if_false] at found
    obtain ⟨edges, held, here⟩ := Option.bind_eq_some_iff.mp found
    exact h.sparse edges codePointClass target held here

end Heap

end Narsil.Pattern
