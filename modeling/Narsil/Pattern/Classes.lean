import Narsil.Pattern.Simulation

/-!
# Classes of code points

Two code points of one class are accepted by the same positions of the program
and are of the same kind, so one transition stands for both.
-/
namespace Narsil.Pattern

/-- An edge lies below both code points or above both. -/
def SameSide (edge a b : Nat) : Prop := edge ≤ a ↔ edge ≤ b

theorem searchStarts_spec {starts : List Nat} (sorted : starts.Pairwise fun left right => left ≤ right)
    (codePoint rounds low high : Nat) (enough : high - low < rounds) (ordered : low ≤ high)
    (inside : high ≤ starts.length)
    (below : ∀ i (bound : i < starts.length), i < low → starts[i] ≤ codePoint)
    (above : ∀ i (bound : i < starts.length), high ≤ i → codePoint < starts[i]) :
    ∀ i (bound : i < starts.length),
      starts[i] ≤ codePoint ↔ i < searchStarts starts codePoint rounds low high := by
  induction rounds generalizing low high with
  | zero => omega
  | succ rounds ih =>
    rw [searchStarts]
    split
    · next narrow =>
      have middle : (low + high) / 2 < starts.length := by omega
      have here : starts.getD ((low + high) / 2) 0 = starts[(low + high) / 2] := by
        simp [List.getD_eq_getElem?_getD, List.getElem?_eq_getElem middle]
      have along : ∀ i j (left : i < starts.length) (right : j < starts.length), i ≤ j →
          starts[i] ≤ starts[j] := by
        intro i j left right early
        rcases Nat.lt_or_eq_of_le early with before | rfl
        · exact List.pairwise_iff_getElem.mp sorted i j left right before
        · exact Nat.le_refl _
      simp only [here]
      split
      · next upto =>
        apply ih
        · omega
        · omega
        · exact inside
        · intro i bound early
          exact Nat.le_trans (along i _ bound middle (Nat.le_of_lt_succ early)) upto
        · exact above
      · next beyond =>
        apply ih
        · omega
        · omega
        · omega
        · exact below
        · intro i bound late
          exact Nat.lt_of_lt_of_le (Nat.lt_of_not_le beyond) (along _ i middle bound late)
    · next closed =>
      obtain rfl : low = high := by omega
      intro i bound
      constructor
      · intro upto
        rcases Nat.lt_or_ge i low with before | after
        · exact before
        · exact absurd upto (Nat.not_le_of_lt (above i bound after))
      · exact below i bound

theorem classOf_eq_searched (starts : List Nat) (isFoldTarget : Option (Nat → Bool)) (codePoint : Nat) :
    (codePointClasses starts isFoldTarget).classOf codePoint =
      searchedClass starts isFoldTarget codePoint := by
  rw [CodePointClasses.classOf]
  cases found : (codePointClasses starts isFoldTarget).direct[codePoint]? with
  | none => rfl
  | some direct =>
    simp only [codePointClasses, List.getElem?_map, Option.map_eq_some_iff] at found
    obtain ⟨own, listed, rfl⟩ := found
    rw [List.getElem?_eq_some_iff] at listed
    obtain ⟨bound, rfl⟩ := listed
    rw [List.getElem_range]

theorem same_class {starts : List Nat} (sorted : starts.Pairwise fun left right => left ≤ right)
    {isFoldTarget : Option (Nat → Bool)} {a b : Nat}
    (same : (codePointClasses starts isFoldTarget).classOf a =
      (codePointClasses starts isFoldTarget).classOf b) :
    a = b ∨ ((∀ edge ∈ starts, SameSide edge a b) ∧
      ∀ check, isFoldTarget = some check → check a = false ∧ check b = false) := by
  rw [classOf_eq_searched, classOf_eq_searched, searchedClass, searchedClass] at same
  split at same
  · split at same
    · exact Or.inl (by omega)
    · omega
  · next unfolded =>
    split at same
    · omega
    · next unfolded' =>
      right
      have found : ∀ codePoint i (bound : i < starts.length), starts[i] ≤ codePoint ↔
          i < searchStarts starts codePoint (starts.length + 1) 0 starts.length := fun codePoint =>
        searchStarts_spec sorted codePoint (starts.length + 1) 0 starts.length (by omega)
          (Nat.zero_le _) (Nat.le_refl _) (by omega) (by omega)
      constructor
      · intro edge member
        obtain ⟨i, bound, rfl⟩ := List.mem_iff_getElem.mp member
        rw [SameSide, found a i bound, found b i bound, Int.ofNat.inj same]
      · rintro check rfl
        rw [Option.any_some, Bool.not_eq_true] at unfolded unfolded'
        exact ⟨unfolded, unfolded'⟩

/-- A test tells two code points apart at an edge of its ranges or by what folds to them. -/
def CodePointTest.Uniform (test : CodePointTest) : Prop :=
  ∀ a b, (∀ range ∈ test.ranges, SameSide range.1 a b ∧ SameSide (range.2 + 1) a b) →
    (∀ check, test.isFoldTarget = some check → check a = false ∧ check b = false) →
    test.has a = test.has b

theorem inRanges_congr {ranges : List (Nat × Nat)} {a b : Nat}
    (same : ∀ range ∈ ranges, SameSide range.1 a b ∧ SameSide (range.2 + 1) a b) :
    inRanges ranges a = inRanges ranges b := by
  have loop : ∀ rounds low high,
      searchRanges ranges a rounds low high = searchRanges ranges b rounds low high := by
    intro rounds
    induction rounds with
    | zero => exact fun _ _ => rfl
    | succ rounds ih =>
      intro low high
      rw [searchRanges, searchRanges]
      cases found : ranges[(low + high) / 2]? with
      | none => simp [found]
      | some range =>
        obtain ⟨from_low, past_high⟩ := same range (List.mem_of_getElem? found)
        rw [SameSide] at from_low past_high
        have under : (a < range.1) = (b < range.1) := by
          apply propext
          omega
        have above : (range.2 < a) = (range.2 < b) := by
          apply propext
          omega
        simp only [found, under, above, ih]
  exact loop _ _ _

theorem rangeTest_uniform (ranges : List (Nat × Nat)) (negated : Bool) :
    (rangeTest ranges negated).Uniform := by
  intro a b same _
  have ranged : inRanges ranges a = inRanges ranges b := inRanges_congr same
  simp only [rangeTest, ranged]

theorem foldedRangeTest_uniform (ranges : List (Nat × Nat)) (negated : Bool) (host : PatternHost) :
    (foldedRangeTest ranges negated host).Uniform := by
  intro a b same unfolded
  obtain ⟨none_a, none_b⟩ := unfolded _ rfl
  rw [decide_eq_false_iff_not, Nat.not_lt, Nat.le_zero, List.length_eq_zero_iff] at none_a none_b
  have ranged : inRanges ranges a = inRanges ranges b := inRanges_congr same
  simp only [foldedRangeTest, holdsFold, none_a, none_b, ranged, List.any_nil]

/-- A test a lowered expression may hold. -/
def LoweredTest (host : PatternHost) (test : CodePointTest) : Prop :=
  test.Uniform ∧ ∀ check, test.isFoldTarget = some check →
    check = fun folded => decide (0 < (singleFoldSourcesOf host folded).length)

theorem classTest_lowered (host : PatternHost) (name : ClassName) : LoweredTest host (classTest name) :=
  ⟨rangeTest_uniform _ _, by simp [classTest, rangeTest]⟩

theorem setTest_lowered (items : List SetItem) (negated caseFold : Bool) (host : PatternHost) :
    LoweredTest host (setTest items negated caseFold host) := by
  cases caseFold with
  | false => exact ⟨rangeTest_uniform _ _, by simp [setTest, rangeTest]⟩
  | true =>
    refine ⟨foldedRangeTest_uniform _ _ host, ?_⟩
    intro check is_check
    exact (Option.some.inj is_check).symm

/-- Every position of the plan consumes something of a kind. -/
def Plan.Consumes (P : Consumed → Prop) (plan : Plan) : Prop := ∀ literal ∈ planConsumed plan, P literal

section Consuming
variable {P : Consumed → Prop}

theorem plansConsumed_eq (plans : List Plan) : plansConsumed plans = plans.flatMap planConsumed := by
  induction plans with
  | nil => rfl
  | cons plan rest ih => rw [plansConsumed, ih, List.flatMap_cons]

theorem mem_plansConsumed {plans : List Plan} {literal : Consumed} :
    literal ∈ plansConsumed plans ↔ ∃ plan ∈ plans, literal ∈ planConsumed plan := by
  rw [plansConsumed_eq, List.mem_flatMap]

theorem flushMask_consumes {kept : List Plan} (h : ∀ item ∈ kept, item.Consumes P) (mask : Nat) :
    ∀ item ∈ flushMask kept mask, item.Consumes P := by
  intro item member
  rw [flushMask] at member
  split at member
  · rcases List.mem_append.mp member with old | new
    · exact h item old
    · rw [List.mem_singleton.mp new]
      exact fun literal absurd_member => absurd absurd_member List.not_mem_nil
  · exact h item member

theorem pushed_consumes {state : List Plan × Nat} {item : Plan} (h : ∀ kept ∈ state.1, kept.Consumes P)
    (own : item.Consumes P) : ∀ kept ∈ flushMask state.1 state.2 ++ [item], kept.Consumes P := by
  intro kept member
  rcases List.mem_append.mp member with old | new
  · exact flushMask_consumes h state.2 kept old
  · exact List.mem_singleton.mp new ▸ own

mutual

theorem visitSequence_consumes {state : List Plan × Nat} (h : ∀ kept ∈ state.1, kept.Consumes P)
    (item : Plan) (own : item.Consumes P) : ∀ kept ∈ (visitSequence state item).1, kept.Consumes P := by
  match item with
  | .sequence items =>
    apply visitSequenceItems_consumes h items
    exact fun item member literal listed => own literal (mem_plansConsumed.mpr ⟨item, member, listed⟩)
  | .assert mask => exact h
  | .consume literal => exact pushed_consumes h own
  | .choice first rest => exact pushed_consumes h own
  | .repeated body count => exact pushed_consumes h own

theorem visitSequenceItems_consumes {state : List Plan × Nat} (h : ∀ kept ∈ state.1, kept.Consumes P)
    (items : List Plan) (own : ∀ item ∈ items, item.Consumes P) :
    ∀ kept ∈ (visitSequenceItems state items).1, kept.Consumes P := by
  match items with
  | [] => exact h
  | item :: rest =>
    exact visitSequenceItems_consumes (visitSequence_consumes h item (own item (by simp))) rest
      fun later member => own later (by simp [member])

end

theorem sequenceOf_consumes {items : List Plan} (own : ∀ item ∈ items, item.Consumes P) :
    (sequenceOf items).Consumes P := by
  have none_kept : ∀ kept ∈ (([], ANY_CONTEXT_MASK) : List Plan × Nat).1, kept.Consumes P := by simp
  have visited := visitSequenceItems_consumes none_kept items own
  rw [sequenceOf]
  generalize visitSequenceItems ([], ANY_CONTEXT_MASK) items = state at visited
  obtain ⟨kept, mask⟩ := state
  have flushed := flushMask_consumes visited mask
  simp only
  split
  · exact fun literal absurd_member => absurd absurd_member List.not_mem_nil
  · split
    · next item only => exact flushed item (by simp [only])
    · intro literal member
      obtain ⟨item, listed, consumed⟩ := mem_plansConsumed.mp member
      exact flushed item listed literal consumed

mutual

theorem visitChoice_consumes {state : ChoiceState} (h : ∀ kept ∈ state.kept, kept.Consumes P)
    (branch : Plan) (own : branch.Consumes P) :
    ∀ kept ∈ (visitChoice state branch).kept, kept.Consumes P := by
  have pushed : ∀ kept ∈ state.kept ++ [branch], kept.Consumes P := by
    intro kept member
    rcases List.mem_append.mp member with old | new
    · exact h kept old
    · exact List.mem_singleton.mp new ▸ own
  match branch with
  | .choice first rest =>
    apply visitChoiceBranches_consumes
    · exact visitChoice_consumes h first fun literal listed =>
        own literal (List.mem_append_left _ listed)
    · exact fun branch member literal listed =>
        own literal (List.mem_append_right _ (mem_plansConsumed.mpr ⟨branch, member, listed⟩))
  | .assert mask => exact h
  | .consume literal => exact pushed
  | .sequence items => exact pushed
  | .repeated body count => exact pushed

theorem visitChoiceBranches_consumes {state : ChoiceState} (h : ∀ kept ∈ state.kept, kept.Consumes P)
    (branches : List Plan) (own : ∀ branch ∈ branches, branch.Consumes P) :
    ∀ kept ∈ (visitChoiceBranches state branches).kept, kept.Consumes P := by
  match branches with
  | [] => exact h
  | branch :: rest =>
    exact visitChoiceBranches_consumes (visitChoice_consumes h branch (own branch (by simp))) rest
      fun later member => own later (by simp [member])

end

theorem choiceOf_consumes {branches : List Plan} (own : ∀ branch ∈ branches, branch.Consumes P) :
    (choiceOf branches).Consumes P := by
  have none_kept : ∀ kept ∈ (⟨[], 0, false⟩ : ChoiceState).kept, kept.Consumes P := by simp
  have visited := visitChoiceBranches_consumes none_kept branches own
  rw [choiceOf]
  generalize visitChoiceBranches ⟨[], 0, false⟩ branches = state at visited
  obtain ⟨kept, mask, empty⟩ := state
  cases kept with
  | nil => exact fun literal absurd_member => absurd absurd_member List.not_mem_nil
  | cons first rest =>
    have tail : ∀ plan ∈ (if empty then rest ++ [.assert mask] else rest), Plan.Consumes P plan := by
      intro plan member
      split at member
      · rcases List.mem_append.mp member with old | new
        · exact visited plan (by simp [old])
        · rw [List.mem_singleton.mp new]
          exact fun literal absurd_member => absurd absurd_member List.not_mem_nil
      · exact visited plan (by simp [member])
    simp only
    split
    · exact visited first (by simp)
    · intro literal member
      rcases List.mem_append.mp member with own | later
      · exact visited first (by simp) literal own
      · obtain ⟨plan, listed, consumed⟩ := mem_plansConsumed.mp later
        exact tail plan listed literal consumed

theorem repeatOf_consumes {body : Plan} (own : body.Consumes P) (count : RepeatCount) :
    (repeatOf body count).Consumes P := by
  have nothing : ∀ mask, (Plan.assert mask).Consumes P :=
    fun mask literal absurd_member => absurd absurd_member List.not_mem_nil
  have inner : ∀ body : Plan, body.Consumes P → (repeatedBody body count).Consumes P := by
    intro body own
    unfold repeatedBody
    split
    · exact own
    · cases body with
      | repeated inner innerCount =>
        dsimp only
        split <;> exact own
      | consume literal => exact own
      | assert mask => exact own
      | sequence items => exact own
      | choice first rest => exact own
  unfold repeatOf
  split
  · exact nothing _
  · cases body with
    | assert mask =>
      dsimp only
      split <;> exact nothing _
    | consume literal => exact inner _ own
    | sequence items => exact inner _ own
    | choice first rest => exact inner _ own
    | repeated inner' innerCount => exact inner _ own

end Consuming

/-- Only the tests of classes and sets are lowered. -/
def LoweredConsumed (host : PatternHost) (literal : Consumed) : Prop :=
  ∀ test, literal.test = some test → LoweredTest host test

section Lowering
variable (caseFold : Bool) (host : PatternHost)

theorem literals_lowered (text : List Nat) :
    ∀ plan ∈ text.map literalPlan, plan.Consumes (LoweredConsumed host) := by
  intro plan member
  obtain ⟨codePoint, _, rfl⟩ := List.mem_map.mp member
  intro literal listed
  rw [literalPlan, planConsumed, List.mem_singleton] at listed
  subst listed
  simp [LoweredConsumed, Consumed.test]

theorem tested_lowered {test : CodePointTest} (lowered : LoweredTest host test) :
    (Plan.consume (.tested test)).Consumes (LoweredConsumed host) := by
  intro literal listed own is_test
  obtain rfl := List.mem_singleton.mp listed
  obtain rfl := Option.some.inj is_test
  exact lowered

theorem setPlan_lowered (negated : Bool) (items : List SetItem) :
    (setPlan negated items caseFold host).Consumes (LoweredConsumed host) := by
  have single := tested_lowered host (setTest_lowered items negated caseFold host)
  rw [setPlan]
  split
  · exact single
  · split
    · exact single
    · apply choiceOf_consumes
      intro branch member
      rcases List.mem_cons.mp member with rfl | fold
      · exact single
      · obtain ⟨text, _, rfl⟩ := List.mem_map.mp fold
        exact sequenceOf_consumes (literals_lowered host text)

mutual

theorem lowerNode_lowered (node : PatternNode) :
    (lowerNode caseFold host node).Consumes (LoweredConsumed host) := by
  match node with
  | .literal codePoint =>
    rw [lowerNode]
    split
    · exact sequenceOf_consumes (literals_lowered host _)
    · exact literals_lowered host [codePoint] _ (by simp)
  | .any =>
    intro literal listed
    obtain rfl := List.mem_singleton.mp listed
    simp [LoweredConsumed, Consumed.test]
  | .charClass name => exact tested_lowered host (classTest_lowered host name)
  | .set negated items =>
    rw [lowerNode]
    exact setPlan_lowered caseFold host negated items
  | .assert mask => exact fun literal absurd_member => absurd absurd_member List.not_mem_nil
  | .sequence items =>
    rw [lowerNode]
    exact sequenceOf_consumes (lowerNodes_lowered items)
  | .choice first rest =>
    rw [lowerNode]
    apply choiceOf_consumes
    intro branch member
    rcases List.mem_cons.mp member with rfl | later
    · exact lowerNode_lowered first
    · exact lowerNodes_lowered rest branch later
  | .repeated body count =>
    rw [lowerNode]
    exact repeatOf_consumes (lowerNode_lowered body) count
  | .numberRange expansion =>
    rw [lowerNode]
    exact lowerNode_lowered expansion

theorem lowerNodes_lowered (nodes : List PatternNode) :
    ∀ plan ∈ lowerNodes caseFold host nodes, plan.Consumes (LoweredConsumed host) := by
  match nodes with
  | [] => simp [lowerNodes]
  | node :: rest =>
    intro plan member
    rw [lowerNodes] at member
    rcases List.mem_cons.mp member with rfl | later
    · exact lowerNode_lowered node
    · exact lowerNodes_lowered rest plan later

end

end Lowering

/-- The states of a builder consume something of a kind, where they consume. -/
def BuildsConsumes (P : Consumed → Prop) (builder : ProgramBuilder) : Prop :=
  ∀ literal next, ProgramState.consume literal next ∈ builder → P literal

section Building
variable {P : Consumed → Prop} {builder : ProgramBuilder}

theorem BuildsConsumes.add (h : BuildsConsumes P builder) {state : ProgramState}
    (own : ∀ literal next, state = .consume literal next → P literal) :
    BuildsConsumes P (builder.add state).1 := by
  intro literal next member
  rcases List.mem_append.mp member with old | new
  · exact h literal next old
  · exact own literal next (List.mem_singleton.mp new).symm

theorem BuildsConsumes.split (h : BuildsConsumes P builder) (first : Option Nat) (second : Nat) :
    BuildsConsumes P (builder.add (.split first second)).1 :=
  h.add fun _ _ same => ProgramState.noConfusion same

variable {compileBody : Compile}

theorem optionalCopies_consumes
    (body : ∀ builder next, BuildsConsumes P builder → BuildsConsumes P (compileBody builder next).1)
    (next optional : Nat) (builder : ProgramBuilder) (entry : Nat) (h : BuildsConsumes P builder) :
    BuildsConsumes P (optionalCopies compileBody next optional builder entry).1 := by
  induction optional generalizing builder entry with
  | zero => exact h
  | succ optional ih => exact ih _ _ ((body builder entry h).split _ _)

theorem requiredCopies_consumes
    (body : ∀ builder next, BuildsConsumes P builder → BuildsConsumes P (compileBody builder next).1)
    (required : Nat) (builder : ProgramBuilder) (entry : Nat) (h : BuildsConsumes P builder) :
    BuildsConsumes P (requiredCopies compileBody required builder entry).1 := by
  induction required generalizing builder entry with
  | zero => exact h
  | succ required ih => exact ih _ _ (body builder entry h)

theorem compileRepeat_consumes
    (body : ∀ builder next, BuildsConsumes P builder → BuildsConsumes P (compileBody builder next).1)
    (min : Nat) (max : Option Nat) (builder : ProgramBuilder) (next : Nat) (h : BuildsConsumes P builder) :
    BuildsConsumes P (compileRepeat compileBody min max builder next).1 := by
  cases max with
  | none =>
    apply requiredCopies_consumes body
    intro literal target member
    rcases List.mem_or_eq_of_mem_set member with old | new
    · exact body _ _ (h.split none next) literal target old
    · exact ProgramState.noConfusion new
  | some most =>
    apply requiredCopies_consumes body
    exact optionalCopies_consumes body next _ builder next h

theorem joinBranch_consumes (h : BuildsConsumes P builder) (first : Nat) (others : Option Nat) :
    BuildsConsumes P (joinBranch builder first others).1 := by
  cases others with
  | none => exact h
  | some entry => exact h.split (some first) entry

mutual

theorem compilePlan_consumes (plan : Plan) (own : plan.Consumes P) (builder : ProgramBuilder) (next : Nat)
    (h : BuildsConsumes P builder) : BuildsConsumes P (compilePlan plan builder next).1 := by
  match plan with
  | .consume literal =>
    apply h.add
    intro other target same
    rw [ProgramState.consume.injEq] at same
    exact same.1 ▸ own literal (by simp [planConsumed])
  | .assert mask =>
    rw [compilePlan]
    split
    · exact h
    · exact h.add fun literal target same => ProgramState.noConfusion same
  | .sequence items =>
    rw [compilePlan]
    exact compileSequence_consumes items
      (fun item member literal listed => own literal (mem_plansConsumed.mpr ⟨item, member, listed⟩))
      builder next h
  | .choice first rest =>
    rw [compilePlan]
    apply joinBranch_consumes
    apply compilePlan_consumes first fun literal listed => own literal (List.mem_append_left _ listed)
    exact compileBranches_consumes rest
      (fun branch member literal listed =>
        own literal (List.mem_append_right _ (mem_plansConsumed.mpr ⟨branch, member, listed⟩)))
      builder next h
  | .repeated body count =>
    rw [compilePlan]
    exact compileRepeat_consumes (compilePlan_consumes body own) count.min count.max builder next h

theorem compileSequence_consumes (items : List Plan) (own : ∀ item ∈ items, item.Consumes P)
    (builder : ProgramBuilder) (next : Nat) (h : BuildsConsumes P builder) :
    BuildsConsumes P (compileSequence items builder next).1 := by
  match items with
  | [] => exact h
  | item :: rest =>
    rw [compileSequence]
    apply compilePlan_consumes item (own item (by simp))
    exact compileSequence_consumes rest (fun later member => own later (by simp [member])) builder next h

theorem compileBranches_consumes (branches : List Plan) (own : ∀ branch ∈ branches, branch.Consumes P)
    (builder : ProgramBuilder) (next : Nat) (h : BuildsConsumes P builder) :
    BuildsConsumes P (compileBranches branches builder next).1 := by
  match branches with
  | [] => exact h
  | branch :: rest =>
    rw [compileBranches]
    apply joinBranch_consumes
    apply compilePlan_consumes branch (own branch (by simp))
    exact compileBranches_consumes rest (fun later member => own later (by simp [member])) builder next h

end

end Building

theorem compileProgram_consumes (plan : Plan) {position : Nat} {literal : Consumed} {next : Nat}
    (here : (compileProgram plan).code position = some (.consume literal next)) :
    literal ∈ planConsumed plan := by
  have built : BuildsConsumes (· ∈ planConsumed plan) (builtPlan plan).1 :=
    compilePlan_consumes plan (fun _ listed => listed) [.matched] 0
      fun literal next member => ProgramState.noConfusion (List.mem_singleton.mp member)
  obtain ⟨before, member, renamed⟩ := List.mem_map.mp (List.mem_of_getElem? here)
  obtain ⟨target, rfl, _⟩ := renumber_eq_consume renamed
  apply built literal target
  rcases List.mem_append.mp member with kept | kept <;> exact List.mem_of_mem_filter kept

theorem kindOf_congr {a b : Nat} (same : ∀ edge ∈ WORD_KIND_EDGES, SameSide edge a b) :
    kindOf a = kindOf b := by
  have word : isWordCodePoint a = isWordCodePoint b := by
    simp only [WORD_KIND_EDGES, List.mem_cons, List.not_mem_nil, or_false, forall_eq_or_imp, forall_eq,
      SameSide] at same
    rw [Bool.eq_iff_iff]
    simp only [isWordCodePoint, Bool.or_eq_true, Bool.and_eq_true, decide_eq_true_eq]
    omega
  rw [kindOf, kindOf, word]

theorem compileProgram_classes (plan : Plan) : (compileProgram plan).classes = planClasses plan := rfl

theorem mem_sortedEdges {plan : Plan} {edge : Nat} :
    edge ∈ ((collectClassEdges plan).dedup.insertionSort fun left right => left ≤ right) ↔
      edge ∈ collectClassEdges plan := by
  rw [List.mem_insertionSort, List.mem_dedup]

/-- Two code points of one class of a lowered expression are of one kind, and the same
    positions accept them. -/
theorem class_uniform (node : PatternNode) (caseFold : Bool) (host : PatternHost) {a b : Nat}
    (same : (compileProgram (lowerPattern node caseFold host)).classes.classOf a =
      (compileProgram (lowerPattern node caseFold host)).classes.classOf b) :
    kindOf a = kindOf b ∧ ∀ position,
      (compileProgram (lowerPattern node caseFold host)).accepts position a =
        (compileProgram (lowerPattern node caseFold host)).accepts position b := by
  have lowered := lowerNode_lowered caseFold host node
  rw [← lowerPattern] at lowered
  generalize lowerPattern node caseFold host = plan at same lowered
  rw [compileProgram_classes, planClasses] at same
  rcases same_class (List.pairwise_insertionSort _ _) same with rfl | ⟨sides, unfolded⟩
  · exact ⟨rfl, fun _ => rfl⟩
  have edges : ∀ edge ∈ collectClassEdges plan, SameSide edge a b :=
    fun edge member => sides edge (mem_sortedEdges.mpr member)
  refine ⟨kindOf_congr fun edge member => edges edge (List.mem_append_left _ member), ?_⟩
  intro position
  by_cases consumes : (compileProgram plan).isConsume position = true
  · obtain ⟨literal, next, here⟩ := isConsume_iff.mp consumes
    have listed := compileProgram_consumes plan here
    have own_edges : ∀ edge ∈ literal.classEdges, SameSide edge a b := fun edge member =>
      edges edge (List.mem_append_right _ (List.mem_flatMap.mpr ⟨literal, listed, member⟩))
    rw [Bool.eq_iff_iff, accepts_iff here, accepts_iff here]
    cases literal with
    | any => exact Iff.rfl
    | codePoint own =>
      have low := own_edges own (by simp [Consumed.classEdges])
      have high := own_edges (own + 1) (by simp [Consumed.classEdges])
      simp only [SameSide, Consumed.Accepts] at low high ⊢
      omega
    | tested test =>
      obtain ⟨uniform, folds⟩ := lowered _ listed test rfl
      rw [Consumed.Accepts, Consumed.Accepts, uniform a b]
      · intro range member
        constructor
        · exact own_edges _ (List.mem_flatMap.mpr ⟨range, member, by simp⟩)
        · exact own_edges _ (List.mem_flatMap.mpr ⟨range, member, by simp⟩)
      · intro check is_check
        -- the classes hold the check of some test, and all tests hold the same one
        have test_listed : test ∈ planTests plan := List.mem_filterMap.mpr ⟨_, listed, rfl⟩
        cases found : (planTests plan).findSome? CodePointTest.isFoldTarget with
        | none =>
          have none_holds := List.findSome?_eq_none_iff.mp found test test_listed
          rw [none_holds] at is_check
          exact absurd is_check (by simp)
        | some shared =>
          obtain ⟨other, other_listed, is_shared⟩ := List.exists_of_findSome?_eq_some found
          obtain ⟨literal', listed', is_test⟩ := List.mem_filterMap.mp other_listed
          have same_check := (lowered _ listed' other is_test).2 shared is_shared
          rw [folds check is_check, ← same_check]
          exact unfolded shared found
  · have unread : ∀ codePoint, (compileProgram plan).accepts position codePoint = false := by
      intro codePoint
      rw [PatternProgram.accepts]
      rw [isConsume_iff, PatternProgram.code] at consumes
      split
      · next here => exact absurd ⟨_, _, here⟩ consumes
      · next here => exact absurd ⟨_, _, here⟩ consumes
      · next here => exact absurd ⟨_, _, here⟩ consumes
      · rfl
    rw [unread a, unread b]

end Narsil.Pattern
