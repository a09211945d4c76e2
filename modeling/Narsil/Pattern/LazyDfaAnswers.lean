import Narsil.Pattern.LazyDfaInvariant

/-!
# The lazy automaton answers as the simulation does

What every method keeps, and the run of a value side by side with the simulation
of it.
-/
namespace Narsil.Pattern

/-- What holds between any two calls. -/
structure LazyDfa.Kept (program : PatternProgram) (dfa : LazyDfa) : Prop where
  heap_right : HeapRight program dfa.heap
  start_holds : Holds dfa.heap dfa.start .reset
  state_there : dfa.state < dfa.heap.length
  keyed : ∀ key reference, Assoc.lookup dfa.states key = some reference →
    ∃ state, dfa.heap[reference]? = some state ∧ stateKey state.positions state.previousKind = key
  within : 0 ≤ dfa.cacheLimitBytes → (dfa.cachedBytes : Int) ≤ dfa.cacheLimitBytes

/-- What the cache is free to change leaves the run of a value alone. -/
structure LazyDfa.Carries (dfa later : LazyDfa) : Prop where
  grown : Extends dfa.heap later.heap
  state : later.state = dfa.state
  simulating : later.simulating = dfa.simulating
  decided : later.decided = dfa.decided
  simulation : later.simulation = dfa.simulation
  limit : later.cacheLimitBytes = dfa.cacheLimitBytes
  classes : later.denseClasses = dfa.denseClasses

namespace LazyDfa

theorem Carries.refl (dfa : LazyDfa) : Carries dfa dfa := ⟨Extends.refl _, rfl, rfl, rfl, rfl, rfl, rfl⟩

theorem Carries.trans {dfa middle later : LazyDfa} (h : Carries dfa middle) (h' : Carries middle later) :
    Carries dfa later where
  grown := h.grown.trans h'.grown
  state := h'.state.trans h.state
  simulating := h'.simulating.trans h.simulating
  decided := h'.decided.trans h.decided
  simulation := h'.simulation.trans h.simulation
  limit := h'.limit.trans h.limit
  classes := h'.classes.trans h.classes

theorem lt_of_extends {heap later : List DfaState} (grown : Extends heap later) {reference : Nat}
    (inside : reference < heap.length) : reference < later.length := by
  obtain ⟨_, there, _, _⟩ := grown reference _ (List.getElem?_eq_getElem inside)
  exact (List.getElem?_eq_some_iff.mp there).1

/-- A method that keeps everything, whatever it does to the cache. -/
def Keeps (program : PatternProgram) (dfa later : LazyDfa) : Prop :=
  Kept program dfa → Kept program later ∧ Carries dfa later

theorem Keeps.trans {program : PatternProgram} {dfa middle later : LazyDfa}
    (h : Keeps program dfa middle) (h' : Keeps program middle later) : Keeps program dfa later := by
  intro kept
  obtain ⟨kept', carries⟩ := h kept
  obtain ⟨kept'', carries'⟩ := h' kept'
  exact ⟨kept'', carries.trans carries'⟩

/-- A way of taking bytes that keeps everything. -/
def ReserveKeeps (program : PatternProgram) (reserve : Reserve) : Prop :=
  ∀ dfa bytes, Keeps program dfa (reserve dfa bytes).2

section Cache
variable {program : PatternProgram}

theorem clear_all (references : List Nat) {heap : List DfaState} (h : HeapRight program heap) :
    HeapRight program (references.foldl (fun heap reference => heap.modify reference .clearEdges) heap) ∧
      Extends heap (references.foldl (fun heap reference => heap.modify reference .clearEdges) heap) := by
  induction references generalizing heap with
  | nil => exact ⟨h, Extends.refl heap⟩
  | cons reference rest ih =>
    have loads : ∀ state : DfaState, state.clearEdges.load = state.load := fun _ => rfl
    have generation : ∀ state : DfaState, state.clearEdges.generation = state.generation := fun _ => rfl
    obtain ⟨right, grown⟩ := ih (h.modify reference loads generation fun _ _ own => clearEdges_right own)
    exact ⟨right, (Extends.modify heap reference loads generation).trans grown⟩

theorem dropCache_keeps (dfa : LazyDfa) : Keeps program dfa dfa.dropCache := by
  intro kept
  obtain ⟨right, grown⟩ := clear_all (dfa.states.map Prod.snd ++ [dfa.start, dfa.state]) kept.heap_right
  constructor
  · exact ⟨right, kept.start_holds.extends grown, lt_of_extends grown kept.state_there,
      fun key reference found => by simp [dropCache, Assoc.lookup] at found, fun limit => limit⟩
  · exact ⟨grown, rfl, rfl, rfl, rfl, rfl, rfl⟩

theorem allocate_keeps (dfa : LazyDfa) (positions : List Nat) (previousKind : Nat) (generation : Int) :
    Keeps program dfa (dfa.allocate (.fresh positions previousKind generation)) := by
  intro kept
  have grown := Extends.allocate dfa.heap (.fresh positions previousKind generation)
  constructor
  · refine ⟨kept.heap_right.allocate (fresh_right program _ _ _ _), kept.start_holds.extends grown,
      lt_of_extends grown kept.state_there, ?_, kept.within⟩
    intro key reference found
    obtain ⟨state, here, keyed⟩ := kept.keyed key reference found
    obtain ⟨later, there, loads, _⟩ := grown reference state here
    have same : later.positions = state.positions ∧ later.previousKind = state.previousKind :=
      PositionSimulation.mk.inj loads
    exact ⟨later, there, by rw [same.1, same.2, keyed]⟩
  · exact ⟨grown, rfl, rfl, rfl, rfl, rfl, rfl⟩

/-- The object that stands for a set of positions after a kind. -/
def Interned (dfa : LazyDfa) (reference : Nat) (positions : List Nat) (previousKind : Nat) : Prop :=
  ∃ state, dfa.heap[reference]? = some state ∧ state.positions = positions ∧
    state.previousKind = previousKind

theorem intern_spec {reserve : Reserve} (h : ReserveKeeps program reserve) (dfa : LazyDfa)
    (positions : List Nat) (previousKind : Nat) (kept : Kept program dfa) :
    Kept program (intern reserve dfa positions previousKind).2 ∧
      Carries dfa (intern reserve dfa positions previousKind).2 ∧
      Interned (intern reserve dfa positions previousKind).2
        (intern reserve dfa positions previousKind).1 positions previousKind := by
  rw [intern]
  cases known : Assoc.lookup dfa.states (stateKey positions previousKind) with
  | some existing =>
    obtain ⟨state, here, keyed⟩ := kept.keyed _ existing known
    obtain ⟨same, same_kind⟩ := stateKey_injective keyed
    exact ⟨kept, Carries.refl dfa, state, here, same, same_kind⟩
  | none =>
    have reserved := h dfa (stateBytes positions (stateKey positions previousKind)) kept
    simp only
    generalize reserve dfa (stateBytes positions (stateKey positions previousKind)) = result at reserved
    obtain ⟨fits, middle⟩ := result
    obtain ⟨kept', carries⟩ := reserved
    have made : ∀ generation : Int, (middle.allocate (.fresh positions previousKind generation)).heap[
        middle.heap.length]? = some (.fresh positions previousKind generation) :=
      fun _ => List.getElem?_concat_length
    cases fits with
    | false =>
      obtain ⟨kept'', carries'⟩ :=
        allocate_keeps middle positions previousKind UNCACHED_GENERATION kept'
      exact ⟨kept'', carries.trans carries', _, made _, rfl, rfl⟩
    | true =>
      obtain ⟨kept'', carries'⟩ := allocate_keeps middle positions previousKind middle.generation kept'
      refine ⟨{ kept'' with keyed := ?_ }, carries.trans { carries' with }, _, made _, rfl, rfl⟩
      intro key reference found
      rw [Assoc.lookup_set] at found
      split at found
      · next same =>
        obtain rfl := Option.some.inj found
        exact ⟨_, made _, same.symm⟩
      · exact kept''.keyed key reference found

theorem restartCache_keeps {reserve : Reserve} (h : ReserveKeeps program reserve) (dfa : LazyDfa) :
    Keeps program dfa (restartCache reserve dfa) := by
  intro kept
  obtain ⟨dropped, carries⟩ := dropCache_keeps dfa kept
  have restarted : Kept program
      { dfa.dropCache with codePointsSinceReset := 0, generation := dfa.dropCache.generation + 1 } :=
    { dropped with }
  obtain ⟨state, here, alike⟩ := dropped.start_holds
  have start : (dfa.dropCache.heap.getD dfa.dropCache.start
      (.fresh [] BEFORE_VALUE_START UNCACHED_GENERATION)) = state := by
    rw [List.getD_eq_getElem?_getD, here, Option.getD_some]
  obtain ⟨interned, carries', own, there, same, same_kind⟩ :=
    intern_spec h _ state.positions state.previousKind restarted
  rw [restartCache]
  simp only [object, start]
  constructor
  · refine { interned with start_holds := ⟨own, there, ?_⟩ }
    rw [show own.load = state.load by rw [DfaState.load, DfaState.load, same, same_kind]]
    exact alike
  · exact carries.trans { carries' with }

theorem reserveWithin_keeps (depth : Nat) : ReserveKeeps program (reserveWithin depth) := by
  induction depth with
  | zero => exact fun dfa bytes kept => ⟨kept, Carries.refl dfa⟩
  | succ depth ih =>
    intro dfa bytes kept
    rw [reserveWithin]
    split
    · next fits =>
      refine ⟨{ kept with within := ?_ }, ⟨Extends.refl _, rfl, rfl, rfl, rfl, rfl, rfl⟩⟩
      intro _
      push_cast
      exact fits
    · split
      · exact ⟨kept, Carries.refl dfa⟩
      · have restarted := restartCache_keeps ih dfa
        simp only
        split
        · exact restarted kept
        · exact restarted.trans (ih _ bytes) kept

theorem reserve_keeps : ReserveKeeps program reserve := reserveWithin_keeps 2

theorem update_keeps (dfa : LazyDfa) (reference : Nat) {change : DfaState → DfaState}
    (loads : ∀ state, (change state).load = state.load)
    (generation : ∀ state, (change state).generation = state.generation)
    (right : ∀ state, dfa.heap[reference]? = some state → StateRight program dfa.heap state →
      StateRight program dfa.heap (change state)) :
    Keeps program dfa (dfa.update reference change) := by
  intro kept
  have grown := Extends.modify dfa.heap reference loads generation
  constructor
  · refine ⟨kept.heap_right.modify reference loads generation right, kept.start_holds.extends grown,
      lt_of_extends grown kept.state_there, ?_, kept.within⟩
    intro key other found
    obtain ⟨state, here, keyed⟩ := kept.keyed key other found
    obtain ⟨later, there, same_load, _⟩ := grown other state here
    obtain ⟨same, same_kind⟩ := PositionSimulation.mk.inj same_load
    exact ⟨later, there, by rw [same, same_kind, keyed]⟩
  · exact ⟨grown, rfl, rfl, rfl, rfl, rfl, rfl⟩

end Cache

section Values
variable {program : PatternProgram}

theorem object_eq {dfa : LazyDfa} {reference : Nat} {state : DfaState}
    (here : dfa.heap[reference]? = some state) : dfa.object reference = state := by
  rw [object, List.getD_eq_getElem?_getD, here, Option.getD_some]

/-- The edge to keep is right for the object it starts from. -/
def KeptRight (program : PatternProgram) (dfa : LazyDfa) (reference : Nat) (codePointClass : Int)
    (target : DfaTarget) : Prop :=
  ∃ state, dfa.heap[reference]? = some state ∧
    EdgeRight program dfa.heap state.load codePointClass target

theorem KeptRight.extends {dfa later : LazyDfa} {reference : Nat} {codePointClass : Int}
    {target : DfaTarget} (h : KeptRight program dfa reference codePointClass target)
    (grown : Extends dfa.heap later.heap) : KeptRight program later reference codePointClass target := by
  obtain ⟨state, here, right⟩ := h
  obtain ⟨kept, there, loads, _⟩ := grown reference state here
  exact ⟨kept, there, loads ▸ right.extends grown⟩

theorem KeptRight.set {dfa : LazyDfa} {reference : Nat} {codePointClass : Int} {target : DfaTarget}
    (h : KeptRight program dfa reference codePointClass target) {change : DfaState → DfaState}
    (loads : ∀ state, (change state).load = state.load)
    (generation : ∀ state, (change state).generation = state.generation)
    (right : ∀ state, StateRight program dfa.heap state →
      EdgeRight program dfa.heap state.load codePointClass target →
      StateRight program dfa.heap (change state)) :
    Keeps program dfa (dfa.update reference change) := by
  obtain ⟨state, here, edge⟩ := h
  apply update_keeps dfa reference loads generation
  intro own there own_right
  obtain rfl := Option.some.inj (here.symm.trans there)
  exact right state own_right edge

theorem keepEdge_keeps (dfa : LazyDfa) (reference : Nat) (current dense : Bool) (codePointClass : Int)
    (target : DfaTarget) (natural : dense = true → 0 ≤ codePointClass)
    (h : KeptRight program dfa reference codePointClass target) :
    Keeps program dfa (dfa.keepEdge reference current dense codePointClass target) := by
  intro kept
  rw [keepEdge]
  split
  · exact ⟨kept, Carries.refl dfa⟩
  · have reserved := reserve_keeps dfa MATCHER_TRANSITION_BYTES kept
    generalize reserve dfa MATCHER_TRANSITION_BYTES = result at reserved
    obtain ⟨fits, middle⟩ := result
    obtain ⟨kept', carries⟩ := reserved
    have h' := h.extends carries.grown
    have onward : ∀ later, Keeps program middle later → Kept program later ∧ Carries dfa later := by
      intro later keeps
      obtain ⟨kept'', carries'⟩ := keeps kept'
      exact ⟨kept'', carries.trans carries'⟩
    cases fits with
    | false => exact ⟨kept', carries⟩
    | true =>
      simp only
      split
      · exact ⟨kept', carries⟩
      · split
        · exact onward _ (h'.set (fun _ => rfl) (fun _ => rfl) fun _ own edge => setSparse_right own edge)
        · next is_dense =>
          have positive : 0 ≤ codePointClass := natural (by simpa using is_dense)
          split
          · exact onward _ (h'.set (fun _ => rfl) (fun _ => rfl) fun _ own edge =>
              setDense_right own positive edge)
          · have slots : Keeps program middle
                (reserve middle (middle.denseClasses * MATCHER_EDGE_SLOT_BYTES)).2 :=
              reserve_keeps middle _
            have grown := (slots kept').2.grown
            generalize reserve middle (middle.denseClasses * MATCHER_EDGE_SLOT_BYTES) = result at slots grown
            obtain ⟨fits', last⟩ := result
            cases fits' with
            | false => exact onward last slots
            | true =>
              simp only
              split
              · exact onward last slots
              · have set : Keeps program last (last.update reference fun state =>
                    state.setDense last.denseClasses codePointClass target) :=
                  (h'.extends grown).set (fun _ => rfl) (fun _ => rfl)
                    fun _ own edge => setDense_right own positive edge
                exact onward _ (slots.trans set)

/-- Apart from what the simulation was last loaded with. -/
def Moves (dfa later : LazyDfa) : Prop := ∃ sim, Carries { dfa with simulation := sim } later

theorem targetOf_spec (dfa : LazyDfa) (result : StepOutcome × PositionSimulation)
    (kept : Kept program dfa) :
    Kept program (dfa.targetOf result).2 ∧ Moves dfa (dfa.targetOf result).2 ∧
      TargetRight (dfa.targetOf result).2.heap (dfa.targetOf result).1 result := by
  obtain ⟨outcome, stepped⟩ := result
  have loaded : Kept program { dfa with simulation := stepped } := { kept with }
  cases outcome with
  | matched => exact ⟨loaded, ⟨stepped, Carries.refl _⟩, rfl⟩
  | dead => exact ⟨loaded, ⟨stepped, Carries.refl _⟩, rfl⟩
  | continues =>
    obtain ⟨interned, carries, state, here, same, same_kind⟩ :=
      intern_spec reserve_keeps { dfa with simulation := stepped }
        (stepped.after.insertionSort fun left right => left ≤ right) stepped.previousKind loaded
    refine ⟨interned, ⟨stepped, carries⟩, _, rfl, state, here, ?_, same_kind⟩
    intro position
    rw [DfaState.load, same]
    exact List.mem_insertionSort _

theorem TargetRight.state {heap : List DfaState} {reference : Nat}
    {result : StepOutcome × PositionSimulation} (h : TargetRight heap (.state reference) result) :
    ∃ sim, result = (.continues, sim) ∧ Holds heap reference sim := by
  obtain ⟨outcome, sim⟩ := result
  cases outcome with
  | matched => exact DfaTarget.noConfusion h
  | dead => exact DfaTarget.noConfusion h
  | continues =>
    obtain ⟨target, same, holds⟩ := h
    obtain rfl := DfaTarget.state.inj same
    exact ⟨sim, rfl, holds⟩

/-- What an edge is known to do for a simulation the state holds. -/
def EdgeSpec (program : PatternProgram) (dfa : LazyDfa) (codePoint : Nat)
    (result : DfaTarget × LazyDfa) : Prop :=
  Kept program result.2 ∧ Moves dfa result.2 ∧
    ∀ sim, Holds dfa.heap dfa.state sim →
      TargetRight result.2.heap result.1 (program.step sim codePoint)

theorem edge_spec (h : program.Classed) (dfa : LazyDfa) (codePoint : Nat) (kept : Kept program dfa) :
    EdgeSpec program dfa codePoint
      (dfa.edge program dfa.state codePoint (program.classes.classOf codePoint)) := by
  obtain ⟨state, here⟩ : ∃ state, dfa.heap[dfa.state]? = some state :=
    ⟨_, List.getElem?_eq_getElem kept.state_there⟩
  -- any other simulation the state holds steps alike
  have same_step : ∀ sim, Holds dfa.heap dfa.state sim →
      AlikeSteps (program.step state.load codePoint) (program.step sim codePoint) := by
    rintro sim ⟨own, there, alike⟩
    obtain rfl := Option.some.inj (here.symm.trans there)
    exact step_alike h.toSound alike (h.uniform codePoint codePoint rfl)
  have natural : (Decidable.decide (0 ≤ program.classes.classOf codePoint) &&
      Decidable.decide (program.classes.classOf codePoint < dfa.denseClasses)) = true →
        0 ≤ program.classes.classOf codePoint := by
    intro dense
    rw [Bool.and_eq_true, decide_eq_true_eq] at dense
    exact dense.1
  rw [edge]
  simp only [object_eq here]
  split
  · next target cached =>
    split at cached
    · have right := cached_right (kept.heap_right _ state here) natural cached codePoint rfl
      exact ⟨kept, ⟨dfa.simulation, Carries.refl dfa⟩, fun sim holds => right.alike (same_step sim holds)⟩
    · exact absurd cached (by simp)
  · obtain ⟨reached, ⟨loaded, moves⟩, right⟩ :=
      targetOf_spec dfa (program.step state.load codePoint) kept
    generalize dfa.targetOf (program.step state.load codePoint) = result at reached moves right
    obtain ⟨target, middle⟩ := result
    have edge_right : KeptRight program middle dfa.state (program.classes.classOf codePoint) target := by
      obtain ⟨own, there, loads, _⟩ := moves.grown dfa.state state here
      refine ⟨own, there, ?_⟩
      intro other same
      rw [loads]
      exact right.alike (step_alike h.toSound (Alike.refl _) (h.uniform codePoint other same.symm))
    obtain ⟨kept', carries⟩ := keepEdge_keeps middle dfa.state
      (Decidable.decide (state.generation = dfa.generation)) _ (program.classes.classOf codePoint)
      target natural edge_right reached
    exact ⟨kept', ⟨loaded, moves.trans carries⟩, fun sim holds =>
      (right.extends carries.grown).alike (same_step sim holds)⟩

/-- An undecided automaton knows what the simulation does. -/
def Follows (dfa : LazyDfa) (sim : PositionSimulation) : Prop :=
  dfa.decided = none ∧
    if dfa.simulating then Alike dfa.simulation sim else Holds dfa.heap dfa.state sim

theorem simulate_spec (dfa : LazyDfa) (origin : Nat) (kept : Kept program dfa) :
    Kept program (dfa.simulate origin) ∧
      (dfa.simulate origin).cacheLimitBytes = dfa.cacheLimitBytes ∧
      ∀ sim, dfa.decided = none → Holds dfa.heap origin sim → Follows (dfa.simulate origin) sim := by
  obtain ⟨restarted, carries⟩ := restartCache_keeps reserve_keeps dfa kept
  obtain ⟨state, here, _⟩ := restarted.start_holds
  refine ⟨{ restarted with state_there := (List.getElem?_eq_some_iff.mp here).1 }, carries.limit, ?_⟩
  intro sim undecided holds
  obtain ⟨own, there, alike⟩ := holds
  refine ⟨carries.decided.trans undecided, ?_⟩
  simp only [simulate, if_true, object_eq there]
  exact alike

theorem settle_spec (dfa : LazyDfa) (kept : Kept program dfa) :
    Kept program (if dfa.wantsSimulation then dfa.simulate dfa.state else dfa) ∧
      (if dfa.wantsSimulation then dfa.simulate dfa.state else dfa).cacheLimitBytes =
        dfa.cacheLimitBytes ∧
      ∀ sim, Follows dfa sim →
        Follows (if dfa.wantsSimulation then dfa.simulate dfa.state else dfa) sim := by
  split
  · next wants =>
    obtain ⟨kept', limit, follows⟩ := simulate_spec dfa dfa.state kept
    refine ⟨kept', limit, ?_⟩
    rintro sim ⟨undecided, holds⟩
    rw [wantsSimulation, Bool.and_eq_true, Bool.not_eq_true'] at wants
    simp only [wants.1, Bool.false_eq_true, if_false] at holds
    exact follows sim undecided holds
  · exact ⟨kept, rfl, fun _ follows => follows⟩

theorem begin_spec (dfa : LazyDfa) (kept : Kept program dfa) :
    Kept program dfa.begin ∧ dfa.begin.cacheLimitBytes = dfa.cacheLimitBytes ∧
      Follows dfa.begin .reset := by
  obtain ⟨state, here, alike⟩ := kept.start_holds
  have begun : Kept program { dfa with decided := none, simulating := false, state := dfa.start } :=
    { kept with state_there := (List.getElem?_eq_some_iff.mp here).1 }
  obtain ⟨kept', limit, follows⟩ := settle_spec _ begun
  exact ⟨kept', limit, follows .reset ⟨rfl, state, here, alike⟩⟩

/-- What feeding a code point tells of a step of the simulation. -/
def Fed (result : Bool × LazyDfa) : StepOutcome × PositionSimulation → Prop
  | (.matched, _) => result.1 = false ∧ result.2.decided = some true
  | (.dead, _) => result.1 = false ∧ result.2.decided = some false
  | (.continues, sim) => result.1 = true ∧ Follows result.2 sim

/-- Feeding a code point keeps everything, and does what a step of the simulation does. -/
def FeedSpec (program : PatternProgram) (dfa : LazyDfa) (codePoint : Nat) (result : Bool × LazyDfa) : Prop :=
  Kept program result.2 ∧ result.2.cacheLimitBytes = dfa.cacheLimitBytes ∧
    ∀ sim, Follows dfa sim → Fed result (program.step sim codePoint)

theorem feed_simulating (h : program.Classed) (dfa : LazyDfa) (codePoint : Nat) (kept : Kept program dfa)
    (simulating : dfa.simulating = true) : FeedSpec program dfa codePoint (dfa.feed program codePoint) := by
  have stepped : ∀ sim, Follows dfa sim →
      AlikeSteps (program.step dfa.simulation codePoint) (program.step sim codePoint) := by
    rintro sim ⟨_, alike⟩
    rw [simulating, if_pos rfl] at alike
    exact step_alike h.toSound alike (h.uniform codePoint codePoint rfl)
  rw [feed, if_pos simulating]
  generalize program.step dfa.simulation codePoint = result at stepped
  obtain ⟨outcome, after⟩ := result
  cases outcome with
  | matched =>
    refine ⟨{ kept with }, rfl, fun sim follows => ?_⟩
    have alike := stepped sim follows
    generalize program.step sim codePoint = other at alike
    obtain ⟨outcome', after'⟩ := other
    cases outcome' <;> first | exact ⟨rfl, rfl⟩ | exact absurd alike id
  | dead =>
    refine ⟨{ kept with }, rfl, fun sim follows => ?_⟩
    have alike := stepped sim follows
    generalize program.step sim codePoint = other at alike
    obtain ⟨outcome', after'⟩ := other
    cases outcome' <;> first | exact ⟨rfl, rfl⟩ | exact absurd alike id
  | continues =>
    refine ⟨{ kept with }, rfl, fun sim follows => ?_⟩
    have alike := stepped sim follows
    generalize program.step sim codePoint = other at alike
    obtain ⟨outcome', after'⟩ := other
    cases outcome' <;> first | exact absurd alike id | skip
    refine ⟨rfl, follows.1, ?_⟩
    simp only [simulating, if_true]
    exact alike

theorem feed_cached (h : program.Classed) (dfa : LazyDfa) (codePoint : Nat) (kept : Kept program dfa)
    (caching : dfa.simulating = false) : FeedSpec program dfa codePoint (dfa.feed program codePoint) := by
  have counted : Kept program { dfa with codePointsSinceReset := dfa.codePointsSinceReset + 1 } :=
    { kept with }
  have edged := edge_spec h _ codePoint counted
  rw [feed, if_neg (by simp [caching])]
  simp only at edged ⊢
  generalize edge program { dfa with codePointsSinceReset := dfa.codePointsSinceReset + 1 } dfa.state
    codePoint (program.classes.classOf codePoint) = result at edged
  obtain ⟨target, later⟩ := result
  obtain ⟨kept', ⟨loaded, moves⟩, right⟩ := edged
  have right' : ∀ sim, Follows dfa sim → TargetRight later.heap target (program.step sim codePoint) := by
    rintro sim ⟨_, holds⟩
    rw [caching, if_neg (by decide)] at holds
    exact right sim holds
  have undecided : ∀ sim, Follows dfa sim → later.decided = none ∧ later.simulating = false :=
    fun sim follows => ⟨moves.decided.trans follows.1, moves.simulating.trans caching⟩
  cases target with
  | matched =>
    refine ⟨{ kept' with }, moves.limit, fun sim follows => ?_⟩
    have own := right' sim follows
    generalize program.step sim codePoint = result at own
    obtain ⟨outcome, after⟩ := result
    cases outcome with
    | matched => exact ⟨rfl, rfl⟩
    | dead => exact DfaTarget.noConfusion own
    | continues => exact absurd own (by rintro ⟨_, same, _⟩; exact DfaTarget.noConfusion same)
  | dead =>
    refine ⟨{ kept' with }, moves.limit, fun sim follows => ?_⟩
    have own := right' sim follows
    generalize program.step sim codePoint = result at own
    obtain ⟨outcome, after⟩ := result
    cases outcome with
    | matched => exact DfaTarget.noConfusion own
    | dead => exact ⟨rfl, rfl⟩
    | continues => exact absurd own (by rintro ⟨_, same, _⟩; exact DfaTarget.noConfusion same)
  | state reference =>
    have there : reference < later.heap.length := by
      have here := List.getElem?_eq_getElem kept.state_there
      obtain ⟨_, _, _, found, _⟩ := TargetRight.state (right _ ⟨_, here, Alike.refl _⟩)
      exact (List.getElem?_eq_some_iff.mp found).1
    have moved : Kept program { later with state := reference } := { kept' with state_there := there }
    obtain ⟨kept'', limit, settled⟩ := settle_spec _ moved
    refine ⟨kept'', limit.trans moves.limit, fun sim follows => ?_⟩
    obtain ⟨after, stepped, holds⟩ := TargetRight.state (right' sim follows)
    rw [stepped]
    obtain ⟨none_yet, running⟩ := undecided sim follows
    refine ⟨rfl, settled after ⟨none_yet, ?_⟩⟩
    simp only [running, Bool.false_eq_true, if_false]
    exact holds

theorem feed_spec (h : program.Classed) (dfa : LazyDfa) (codePoint : Nat) (kept : Kept program dfa) :
    FeedSpec program dfa codePoint (dfa.feed program codePoint) := by
  cases simulating : dfa.simulating with
  | true => exact feed_simulating h dfa codePoint kept simulating
  | false => exact feed_cached h dfa codePoint kept simulating

theorem matched_spec (h : program.Classed) (dfa : LazyDfa) (kept : Kept program dfa) :
    Kept program (dfa.matched program).2 ∧
      (dfa.matched program).2.cacheLimitBytes = dfa.cacheLimitBytes ∧
      (∀ answer, dfa.decided = some answer → (dfa.matched program).1 = answer) ∧
      ∀ sim, Follows dfa sim → (dfa.matched program).1 = program.endMatches sim := by
  rw [matched]
  cases decided : dfa.decided with
  | some answer =>
    refine ⟨kept, rfl, fun _ same => Option.some.inj same, ?_⟩
    rintro sim ⟨undecided, _⟩
    rw [decided] at undecided
    exact absurd undecided (by simp)
  | none =>
    cases simulating : dfa.simulating with
    | true =>
      refine ⟨kept, rfl, fun _ same => absurd same (by simp), ?_⟩
      rintro sim ⟨_, alike⟩
      rw [simulating, if_pos rfl] at alike
      exact endMatches_alike h.toSound alike
    | false =>
      obtain ⟨state, here⟩ : ∃ state, dfa.heap[dfa.state]? = some state :=
        ⟨_, List.getElem?_eq_getElem kept.state_there⟩
      have answered : ∀ sim, Follows dfa sim → program.endMatches state.load = program.endMatches sim := by
        rintro sim ⟨_, holds⟩
        rw [simulating, if_neg (by decide)] at holds
        obtain ⟨own, there, alike⟩ := holds
        obtain rfl := Option.some.inj (here.symm.trans there)
        exact endMatches_alike h.toSound alike
      simp only [Bool.false_eq_true, if_false, object_eq here]
      cases known : state.endMatch with
      | some endMatch =>
        refine ⟨kept, rfl, fun _ same => absurd same (by simp), fun sim follows => ?_⟩
        rw [← answered sim follows]
        exact ((kept.heap_right _ state here).endMatch endMatch known).symm
      | none =>
        have loaded : Kept program { dfa with simulation := state.load } := { kept with }
        have noted : ∀ own, dfa.heap[dfa.state]? = some own → StateRight program dfa.heap own →
            StateRight program dfa.heap
              { own with endMatch := some (program.endMatches state.load) } := by
          intro own there right
          obtain rfl := Option.some.inj (here.symm.trans there)
          exact { right with endMatch := fun _ same => Option.some.inj same }
        have keeps : Keeps program { dfa with simulation := state.load }
            (LazyDfa.update { dfa with simulation := state.load } dfa.state fun own =>
              { own with endMatch := some (program.endMatches state.load) }) :=
          update_keeps _ _ (fun _ => rfl) (fun _ => rfl) noted
        have settled := (keeps loaded).1
        rw [decided, simulating] at settled
        exact ⟨settled, rfl, fun _ same => absurd same (by simp), answered⟩

theorem feedAll_spec (h : program.Classed) (value : List Nat) (dfa : LazyDfa) (kept : Kept program dfa) :
    Kept program ((dfa.feedAll program value).matched program).2 ∧
      ((dfa.feedAll program value).matched program).2.cacheLimitBytes = dfa.cacheLimitBytes ∧
      ∀ sim, Follows dfa sim →
        ((dfa.feedAll program value).matched program).1 = program.simulateFrom sim value := by
  induction value generalizing dfa with
  | nil =>
    obtain ⟨kept', limit, _, answered⟩ := matched_spec h dfa kept
    exact ⟨kept', limit, answered⟩
  | cons codePoint rest ih =>
    obtain ⟨fed_kept, fed_limit, fed⟩ := feed_spec h dfa codePoint kept
    rw [feedAll]
    cases result : dfa.feed program codePoint with
    | mk goesOn later =>
      rw [result] at fed_kept fed_limit fed
      cases goesOn with
      | true =>
        obtain ⟨kept', limit, answered⟩ := ih later fed_kept
        refine ⟨kept', limit.trans fed_limit, fun sim follows => ?_⟩
        have own := fed sim follows
        rw [PatternProgram.simulateFrom]
        generalize program.step sim codePoint = step at own
        obtain ⟨outcome, after⟩ := step
        cases outcome with
        | matched => exact Bool.noConfusion own.1
        | dead => exact Bool.noConfusion own.1
        | continues => exact answered after own.2
      | false =>
        obtain ⟨kept', limit, decided, _⟩ := matched_spec h later fed_kept
        refine ⟨kept', limit.trans fed_limit, fun sim follows => ?_⟩
        have own := fed sim follows
        rw [PatternProgram.simulateFrom]
        generalize program.step sim codePoint = step at own
        obtain ⟨outcome, after⟩ := step
        cases outcome with
        | matched => exact decided true own.2
        | dead => exact decided false own.2
        | continues => exact Bool.noConfusion own.1

theorem matchesValue_spec (h : program.Classed) (value : List Nat) (dfa : LazyDfa)
    (kept : Kept program dfa) :
    Kept program (dfa.matchesValue program value).2 ∧
      (dfa.matchesValue program value).1 = program.simulate value := by
  obtain ⟨begun, _, follows⟩ := begin_spec dfa kept
  obtain ⟨kept', _, answered⟩ := feedAll_spec h value dfa.begin begun
  exact ⟨kept', answered .reset follows⟩

theorem answers_spec (h : program.Classed) (values : List (List Nat)) (dfa : LazyDfa)
    (kept : Kept program dfa) : dfa.answers program values = values.map program.simulate := by
  induction values generalizing dfa with
  | nil => rfl
  | cons value rest ih =>
    obtain ⟨kept', answered⟩ := matchesValue_spec h value dfa kept
    rw [answers, List.map_cons, ← answered, ← ih _ kept']

theorem unset_kept (program : PatternProgram) (stateLimitBytes : Int) :
    Kept program (unset program stateLimitBytes) where
  heap_right reference state here := by
    rw [unset] at here
    have member := List.mem_of_getElem? here
    rw [List.mem_singleton] at member
    exact member ▸ fresh_right program _ _ _ _
  start_holds := ⟨_, rfl, Alike.refl _⟩
  state_there := by
    show 0 < 1
    decide
  keyed key reference found := by simp [unset, Assoc.lookup] at found
  within limit := limit

theorem create_spec (program : PatternProgram) (stateLimitBytes : Int) :
    Kept program (create program stateLimitBytes) ∧
      (create program stateLimitBytes).cacheLimitBytes =
        stateLimitBytes - program.bytes - simulationBytes program := by
  obtain ⟨kept, carries, state, here, same, same_kind⟩ :=
    intern_spec reserve_keeps (unset program stateLimitBytes) [] BEFORE_VALUE_START
      (unset_kept program stateLimitBytes)
  rw [create]
  generalize intern reserve (unset program stateLimitBytes) [] BEFORE_VALUE_START = result at *
  obtain ⟨start, interned⟩ := result
  have created : Kept program { interned with start := start, state := start } :=
    { kept with
      start_holds := ⟨state, here, by
        rw [DfaState.load, same, same_kind]
        exact Alike.refl _⟩
      state_there := (List.getElem?_eq_some_iff.mp here).1 }
  obtain ⟨kept', limit, _⟩ := settle_spec _ created
  exact ⟨kept', limit.trans carries.limit⟩

theorem call_spec (h : program.Classed) (dfa : LazyDfa) (request : DfaCall) (kept : Kept program dfa) :
    Kept program (dfa.call program request) ∧
      (dfa.call program request).cacheLimitBytes = dfa.cacheLimitBytes := by
  cases request with
  | begin => exact ⟨(begin_spec dfa kept).1, (begin_spec dfa kept).2.1⟩
  | feed codePoint =>
    obtain ⟨kept', limit, _⟩ := feed_spec h dfa codePoint kept
    exact ⟨kept', limit⟩
  | matched => exact ⟨(matched_spec h dfa kept).1, (matched_spec h dfa kept).2.1⟩

theorem calls_spec (h : program.Classed) (requests : List DfaCall) (dfa : LazyDfa)
    (kept : Kept program dfa) :
    Kept program (requests.foldl (LazyDfa.call program) dfa) ∧
      (requests.foldl (LazyDfa.call program) dfa).cacheLimitBytes = dfa.cacheLimitBytes := by
  induction requests generalizing dfa with
  | nil => exact ⟨kept, rfl⟩
  | cons request rest ih =>
    obtain ⟨kept', limit⟩ := call_spec h dfa request kept
    obtain ⟨kept'', limit'⟩ := ih (dfa.call program request) kept'
    exact ⟨kept'', limit'.trans limit⟩

theorem heldBytes_le {dfa : LazyDfa} (kept : Kept program dfa) {stateLimitBytes : Int}
    (limit : dfa.cacheLimitBytes = stateLimitBytes - program.bytes - simulationBytes program)
    (fits : (program.bytes + simulationBytes program : Int) ≤ stateLimitBytes) :
    (dfa.heldBytes program : Int) ≤ stateLimitBytes := by
  have held := kept.within (by omega)
  rw [heldBytes]
  push_cast
  omega

end Values

end LazyDfa

/-- Whatever is asked of the automaton, values run through it one after the other are
    answered as by the simulation, and the bytes it holds stay within a limit that the
    program and the simulation fit in; code points of one class are not told apart. -/
theorem lazyDfa_answers_simulation (node : PatternNode) (caseFold : Bool) (host : PatternHost)
    (stateLimitBytes : Int) :
    let program := compileProgram (lowerPattern node caseFold host)
    (∀ (requests : List DfaCall) (values : List (List Nat)),
      (requests.foldl (LazyDfa.call program) (LazyDfa.create program stateLimitBytes)).answers
        program values = values.map program.simulate) ∧
    (∀ a b, program.classes.classOf a = program.classes.classOf b →
      kindOf a = kindOf b ∧ ∀ position, program.accepts position a = program.accepts position b) ∧
    ((program.bytes + simulationBytes program : Int) ≤ stateLimitBytes →
      ∀ requests : List DfaCall,
        ((requests.foldl (LazyDfa.call program)
          (LazyDfa.create program stateLimitBytes)).heldBytes program : Int) ≤ stateLimitBytes) := by
  have classed := compileProgram_classed node caseFold host
  intro program
  obtain ⟨created, limit⟩ := LazyDfa.create_spec program stateLimitBytes
  refine ⟨?_, ?_, ?_⟩
  · intro requests values
    exact LazyDfa.answers_spec classed values _ (LazyDfa.calls_spec classed requests _ created).1
  · exact fun a b same => class_uniform node caseFold host same
  · intro fits requests
    obtain ⟨kept, same_limit⟩ := LazyDfa.calls_spec classed requests _ created
    exact LazyDfa.heldBytes_le kept (same_limit.trans limit) fits

end Narsil.Pattern
