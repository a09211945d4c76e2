import Mathlib.Algebra.Order.BigOperators.Group.List
import Narsil.Pattern.RunArrays

/-!
# Merging frozen indexes

The runs of several indexes are taken in order, the smallest first; the postings of a
run that several of them hold are put together.
-/
namespace Narsil.Pattern

structure PatternMergeInput where
  arrays : PatternIndexArrays
  remap : List Int

/-- An input and the place of its next run. -/
abbrev MergeCursor : Type := PatternMergeInput × Nat

namespace MergeCursor

def current (cursor : MergeCursor) : Option Run :=
  if cursor.1.arrays.offsets.length - 1 ≤ cursor.2 then none else cursor.1.arrays.runs[cursor.2]?

/-- What the input adds to the postings of a run. -/
def adds (run : Run) (cursor : MergeCursor) : List Nat :=
  if cursor.current = some run then
    remapAscending (cursor.1.arrays.postingsAt cursor.2) (some cursor.1.remap)
  else []

def advance (run : Run) (cursor : MergeCursor) : MergeCursor :=
  if cursor.current = some run then (cursor.1, cursor.2 + 1) else cursor

end MergeCursor

/-- The smaller of two runs, where there are two. -/
def smallerRun (smallest current : Option Run) : Option Run :=
  match current, smallest with
  | none, _ => smallest
  | some run, none => some run
  | some run, some other => if compareRuns run other < 0 then some run else some other

def smallestRun (cursors : List MergeCursor) : Option Run :=
  cursors.foldl (fun smallest cursor => smallerRun smallest cursor.current) none

/-- The loop over the runs, with more rounds than there are runs. -/
def mergeRuns : Nat → PatternIndexArrays → List MergeCursor → PatternIndexArrays
  | 0, merged, _ => merged
  | rounds + 1, merged, cursors =>
    match smallestRun cursors with
    | none => merged
    | some run =>
      mergeRuns rounds (merged.pushRun run (Ascending.settle (cursors.flatMap (MergeCursor.adds run))))
        (cursors.map (MergeCursor.advance run))

def mergePatternArrays (inputs : List PatternMergeInput) : PatternIndexArrays :=
  let docIds := inputs.flatMap fun input => remapAscending input.arrays.docIds (some input.remap)
  mergeRuns ((inputs.map fun input => input.arrays.runs.length).sum + 1)
    ⟨Ascending.settle docIds, [], [0], []⟩ (inputs.map fun input => (input, 0))

/-- A run is none of those after it. -/
def AtMost (run other : Run) : Prop := run = other ∨ Before run other

theorem AtMost.trans {run other third : Run} (h : AtMost run other) (h' : AtMost other third) :
    AtMost run third := by
  rcases h with rfl | before
  · exact h'
  · rcases h' with rfl | before'
    · exact Or.inr before
    · exact Or.inr (before.trans before')

/-- The smallest of the runs found, when some are. -/
def Smallest (found : Run → Prop) : Option Run → Prop
  | none => ∀ run, ¬ found run
  | some run => found run ∧ ∀ other, found other → AtMost run other

theorem Smallest.congr {found found' : Run → Prop} {smallest : Option Run} (h : Smallest found smallest)
    (same : ∀ run, found run ↔ found' run) : Smallest found' smallest := by
  rwa [show found' = found from funext fun run => propext (same run).symm]

theorem smallerRun_smallest {found : Run → Prop} {smallest : Option Run} (h : Smallest found smallest)
    (current : Option Run) :
    Smallest (fun run => found run ∨ current = some run) (smallerRun smallest current) := by
  cases current with
  | none =>
    apply h.congr
    simp
  | some run =>
    cases smallest with
    | none =>
      refine ⟨Or.inr rfl, ?_⟩
      rintro other (old | same)
      · exact absurd old (h other)
      · exact Or.inl (Option.some.inj same)
    | some own =>
      obtain ⟨own_found, below⟩ := h
      rw [smallerRun]
      split
      · next less =>
        refine ⟨Or.inr rfl, ?_⟩
        rintro other (old | same)
        · exact AtMost.trans (Or.inr less) (below other old)
        · exact Or.inl (Option.some.inj same)
      · next not_less =>
        refine ⟨Or.inl own_found, ?_⟩
        rintro other (old | same)
        · exact below other old
        · obtain rfl := Option.some.inj same
          rcases before_trichotomy own run with before | rfl | after
          · exact Or.inr before
          · exact Or.inl rfl
          · exact absurd after not_less

theorem smallestRun_spec (cursors : List MergeCursor) :
    Smallest (fun run => ∃ cursor ∈ cursors, cursor.current = some run) (smallestRun cursors) := by
  have general : ∀ (rest : List MergeCursor) (found : Run → Prop) (smallest : Option Run),
      Smallest found smallest →
      Smallest (fun run => found run ∨ ∃ cursor ∈ rest, cursor.current = some run)
        (rest.foldl (fun smallest cursor => smallerRun smallest cursor.current) smallest) := by
    intro rest
    induction rest with
    | nil => exact fun found smallest h => h.congr (by simp)
    | cons cursor rest ih =>
      intro found smallest h
      apply (ih _ _ (smallerRun_smallest h cursor.current)).congr
      intro run
      rw [List.exists_mem_cons_iff]
      exact or_assoc
  have all := general cursors (fun _ => False) none fun _ => id
  exact all.congr (by simp)

/-- What the input added to the postings of a run before its cursor. -/
def MergeCursor.added (run : Run) (cursor : MergeCursor) : List Nat :=
  ((Assoc.lookup (cursor.1.arrays.source.take cursor.2) run).getD []).filterMap
    (remapped (some cursor.1.remap))

/-- The runs of the input that are still to come. -/
def MergeCursor.left (cursor : MergeCursor) : List (Run × List Nat) :=
  cursor.1.arrays.source.drop cursor.2

section Cursors
variable {cursor : MergeCursor}

theorem source_ordered (valid : cursor.1.arrays.Valid) : Ordered cursor.1.arrays.source := by
  obtain ⟨entries, ordered, same⟩ := valid
  rw [same, source_arraysOf]
  exact ordered

theorem current_eq (valid : cursor.1.arrays.Valid) :
    cursor.current = (cursor.1.arrays.source[cursor.2]?).map Prod.fst := by
  obtain ⟨entries, ordered, same⟩ := valid
  have count : (arraysOf cursor.1.arrays.docIds entries).offsets.length - 1 = entries.length := by
    have spec := (Offsets.Packed.pack_spec (entries.map Prod.snd)).1
    rw [List.length_map] at spec
    rw [arraysOf]
    dsimp only
    omega
  rw [MergeCursor.current, same, source_arraysOf, count]
  split
  · next past => rw [List.getElem?_eq_none past, Option.map_none]
  · rw [arraysOf, List.getElem?_map]

theorem postingsAt_source (valid : cursor.1.arrays.Valid) {place : Nat} {entry : Run × List Nat}
    (here : cursor.1.arrays.source[place]? = some entry) :
    cursor.1.arrays.postingsAt place = entry.2 := by
  obtain ⟨entries, ordered, same⟩ := valid
  rw [same, source_arraysOf] at here
  rw [same]
  exact postingsAt_arraysOf here

theorem left_of_current (valid : cursor.1.arrays.Valid) {run : Run} (here : cursor.current = some run) :
    ∃ postings, cursor.1.arrays.source[cursor.2]? = some (run, postings) ∧
      cursor.left = (run, postings) :: cursor.1.arrays.source.drop (cursor.2 + 1) := by
  rw [current_eq valid, Option.map_eq_some_iff] at here
  obtain ⟨⟨own, postings⟩, there, rfl⟩ := here
  refine ⟨postings, there, ?_⟩
  obtain ⟨bound, same⟩ := List.getElem?_eq_some_iff.mp there
  rw [MergeCursor.left, List.drop_eq_getElem_cons bound, same]

theorem left_of_none (valid : cursor.1.arrays.Valid) (ended : cursor.current = none) :
    cursor.left = [] := by
  rw [current_eq valid, Option.map_eq_none_iff, List.getElem?_eq_none_iff] at ended
  exact List.drop_eq_nil_of_le ended

theorem advance_left (cursor : MergeCursor) (run : Run) :
    (cursor.advance run).left = cursor.left.drop (if cursor.current = some run then 1 else 0) := by
  rw [MergeCursor.advance]
  split
  · rw [MergeCursor.left, MergeCursor.left, List.drop_drop]
  · rfl

theorem advance_passed (valid : cursor.1.arrays.Valid) {run : Run}
    (below : ∀ other, cursor.current = some other → AtMost run other) :
    ∀ entry ∈ (cursor.advance run).left, Before run entry.1 := by
  intro entry member
  rw [advance_left] at member
  cases here : cursor.current with
  | none =>
    rw [left_of_none valid here, List.drop_nil] at member
    exact absurd member List.not_mem_nil
  | some other =>
    obtain ⟨postings, there, left⟩ := left_of_current valid here
    have ordered : Ordered cursor.left :=
      (source_ordered valid).sublist ((List.drop_sublist _ _).map Prod.fst)
    rw [left, Ordered, List.map_cons, List.pairwise_cons] at ordered
    have later : ∀ entry ∈ cursor.1.arrays.source.drop (cursor.2 + 1), Before other entry.1 :=
      fun entry listed => ordered.1 entry.1 (List.mem_map_of_mem listed)
    rw [left, here] at member
    rcases below other here with rfl | before
    · rw [if_pos rfl] at member
      exact later entry member
    · have different : other ≠ run := fun same => Before.irrefl run (same ▸ before)
      rw [if_neg (by simpa using different)] at member
      rcases List.mem_cons.mp member with rfl | listed
      · exact before
      · exact before.trans (later entry listed)

theorem advance_added (valid : cursor.1.arrays.Valid) (run other : Run)
    (fresh : run ∉ (cursor.1.arrays.source.take cursor.2).map Prod.fst) :
    Ascending.sort ((cursor.advance run).added other) =
      if other = run then Ascending.sort (cursor.adds run) else Ascending.sort (cursor.added other) := by
  have unseen : Assoc.lookup (cursor.1.arrays.source.take cursor.2) run = none :=
    Assoc.lookup_eq_none.mpr fresh
  rw [MergeCursor.advance, MergeCursor.adds]
  split
  · next here =>
    obtain ⟨postings, there, _⟩ := left_of_current valid here
    have taken : cursor.1.arrays.source.take (cursor.2 + 1) =
        cursor.1.arrays.source.take cursor.2 ++ [(run, postings)] := by
      rw [List.take_add_one, there]
      rfl
    rw [MergeCursor.added, taken, Assoc.lookup_append]
    split
    · next same =>
      subst same
      rw [unseen, Option.none_or, postingsAt_source valid there, remapAscending_eq,
        Ascending.sort_of_sorted (Ascending.sort_sorted _)]
      simp [Assoc.lookup]
    · next different =>
      have not_last : Assoc.lookup [(run, postings)] other = none := by
        simp [Assoc.lookup, Ne.symm different]
      rw [not_last, Option.or_none]
      rfl
  · split
    · next same =>
      rw [MergeCursor.added, same, unseen]
      rfl
    · rfl

end Cursors

/-- What holds between two rounds: the runs listed and passed are before all that are left,
    and each is listed with what was added for it. -/
structure Merging (listed : List (Run × List Nat)) (cursors : List MergeCursor) : Prop where
  valid : ∀ cursor ∈ cursors, cursor.1.arrays.Valid
  ordered : Ordered listed
  listed_passed : ∀ run ∈ listed.map Prod.fst, ∀ cursor ∈ cursors, ∀ entry ∈ cursor.left,
    Before run entry.1
  taken_passed : ∀ own ∈ cursors, ∀ run ∈ (own.1.arrays.source.take own.2).map Prod.fst,
    ∀ cursor ∈ cursors, ∀ entry ∈ cursor.left, Before run entry.1
  answers : ∀ run, (Assoc.lookup listed run).getD [] =
    Ascending.sort (cursors.flatMap fun cursor => cursor.added run)

theorem Merging.start {inputs : List PatternMergeInput} (valid : ∀ input ∈ inputs, input.arrays.Valid) :
    Merging [] (inputs.map fun input => (input, 0)) where
  valid cursor member := by
    obtain ⟨input, listed, rfl⟩ := List.mem_map.mp member
    exact valid input listed
  ordered := List.Pairwise.nil
  listed_passed run member := absurd member List.not_mem_nil
  taken_passed own member run taken := by
    obtain ⟨input, listed, rfl⟩ := List.mem_map.mp member
    simp at taken
  answers run := by
    have nothing : ∀ part ∈ inputs.map (fun input => ((input, 0) : MergeCursor)),
        MergeCursor.added run part = [] := by
      intro part member
      obtain ⟨input, _, rfl⟩ := List.mem_map.mp member
      simp [MergeCursor.added, Assoc.lookup]
    rw [List.flatMap_eq_nil_iff.mpr nothing]
    rfl

theorem Merging.step {listed : List (Run × List Nat)} {cursors : List MergeCursor}
    (h : Merging listed cursors) {run : Run} (smallest : smallestRun cursors = some run) :
    Merging (listed ++ held [(run, Ascending.settle (cursors.flatMap (MergeCursor.adds run)))])
      (cursors.map (MergeCursor.advance run)) := by
  have spec := smallestRun_spec cursors
  rw [smallest] at spec
  obtain ⟨⟨holder, is_cursor, holds⟩, least⟩ := spec
  have passed : ∀ cursor ∈ cursors, ∀ entry ∈ (cursor.advance run).left, Before run entry.1 :=
    fun cursor member => advance_passed (h.valid cursor member) fun other here =>
      least other ⟨cursor, member, here⟩
  have shrinks : ∀ (cursor : MergeCursor), ∀ entry ∈ (cursor.advance run).left, entry ∈ cursor.left := by
    intro cursor entry member
    rw [advance_left] at member
    exact List.mem_of_mem_drop member
  -- the run is still left at the input that holds it, so nothing before it is the run
  obtain ⟨own_postings, _, own_left⟩ := left_of_current (h.valid holder is_cursor) holds
  have own_entry : (run, own_postings) ∈ holder.left := own_left ▸ List.mem_cons_self
  have unlisted : run ∉ listed.map Prod.fst := fun member =>
    Before.irrefl run (h.listed_passed run member holder is_cursor _ own_entry)
  have untaken : ∀ cursor ∈ cursors,
      run ∉ (cursor.1.arrays.source.take cursor.2).map Prod.fst := fun cursor member taken =>
    Before.irrefl run (h.taken_passed cursor member run taken holder is_cursor _ own_entry)
  have new_keys : ∀ other, other ∈ (held [(run,
      Ascending.settle (cursors.flatMap (MergeCursor.adds run)))]).map Prod.fst → other = run := by
    intro other member
    have kept := (List.filter_sublist.map Prod.fst).subset member
    simpa using kept
  constructor
  · intro cursor member
    obtain ⟨before, listed, rfl⟩ := List.mem_map.mp member
    rw [MergeCursor.advance]
    split <;> exact h.valid before listed
  · rw [Ordered, List.map_append, List.pairwise_append]
    refine ⟨h.ordered, ?_, ?_⟩
    · exact (List.pairwise_singleton _ run).sublist (List.filter_sublist.map Prod.fst)
    · intro other member own is_own
      rw [new_keys own is_own]
      exact h.listed_passed other member holder is_cursor _ own_entry
  · intro other member cursor is_later entry left
    obtain ⟨before, listed, rfl⟩ := List.mem_map.mp is_later
    rw [List.map_append, List.mem_append] at member
    rcases member with old | new
    · exact h.listed_passed other old before listed entry (shrinks before entry left)
    · rw [new_keys other new]
      exact passed before listed entry left
  · intro own is_own other taken cursor is_later entry left
    obtain ⟨before, listed, rfl⟩ := List.mem_map.mp is_later
    obtain ⟨own_before, own_listed, rfl⟩ := List.mem_map.mp is_own
    rw [MergeCursor.advance] at taken
    split at taken
    · next here =>
      obtain ⟨postings, there, _⟩ := left_of_current (h.valid own_before own_listed) here
      rw [List.take_add_one, there, List.map_append, List.mem_append] at taken
      rcases taken with old | new
      · exact h.taken_passed own_before own_listed other old before listed entry
          (shrinks before entry left)
      · have same : other = run := by simpa using new
        rw [same]
        exact passed before listed entry left
    · exact h.taken_passed own_before own_listed other taken before listed entry
        (shrinks before entry left)
  · intro other
    have added : ∀ cursor ∈ cursors, Ascending.sort ((cursor.advance run).added other) =
        if other = run then Ascending.sort (cursor.adds run) else Ascending.sort (cursor.added other) :=
      fun cursor member => advance_added (h.valid cursor member) run other (untaken cursor member)
    rw [List.flatMap_map, Assoc.lookup_append]
    by_cases same : other = run
    · subst same
      have new : Ordered [(other, Ascending.settle (cursors.flatMap (MergeCursor.adds other)))] :=
        List.pairwise_singleton _ _
      have found : Assoc.lookup
          [(other, Ascending.settle (cursors.flatMap (MergeCursor.adds other)))] other =
            some (Ascending.settle (cursors.flatMap (MergeCursor.adds other))) := by
        simp [Assoc.lookup]
      rw [Assoc.lookup_eq_none.mpr unlisted, Option.none_or, lookup_held new.distinct, found, Option.getD_some,
        Ascending.settle_eq_sort]
      apply Ascending.sort_flatMap_congr
      intro cursor member
      rw [added cursor member, if_pos rfl]
    · have not_new : Assoc.lookup (held [(run,
          Ascending.settle (cursors.flatMap (MergeCursor.adds run)))]) other = none :=
        Assoc.lookup_eq_none.mpr fun member => same (new_keys other member)
      rw [not_new, Option.or_none, h.answers other]
      apply Ascending.sort_flatMap_congr
      intro cursor member
      rw [added cursor member, if_neg same]

/-- The runs still to come, over all inputs. -/
def runsLeft (cursors : List MergeCursor) : Nat := (cursors.map fun cursor => cursor.left.length).sum

theorem runsLeft_advance {cursors : List MergeCursor} (valid : ∀ cursor ∈ cursors, cursor.1.arrays.Valid)
    {run : Run} (some_holds : ∃ cursor ∈ cursors, cursor.current = some run) :
    runsLeft (cursors.map (MergeCursor.advance run)) < runsLeft cursors := by
  rw [runsLeft, runsLeft, List.map_map]
  apply List.sum_lt_sum
  · intro cursor _
    rw [Function.comp_apply, advance_left, List.length_drop]
    exact Nat.sub_le _ _
  · obtain ⟨cursor, member, here⟩ := some_holds
    refine ⟨cursor, member, ?_⟩
    obtain ⟨postings, _, left⟩ := left_of_current (valid cursor member) here
    rw [Function.comp_apply, advance_left, if_pos here, List.length_drop, left, List.length_cons]
    exact Nat.lt_succ_self _

/-- What the inputs hold of a run, for the ordinals their tables give. -/
def inputPostings (run : Run) (input : PatternMergeInput) : List Nat :=
  ((readPatternArrays input.arrays).postings run).filterMap (remapped (some input.remap))

theorem added_of_done {cursor : MergeCursor} (valid : cursor.1.arrays.Valid)
    (done : cursor.left = []) (run : Run) : cursor.added run = inputPostings run cursor.1 := by
  have whole : cursor.1.arrays.source.take cursor.2 = cursor.1.arrays.source :=
    List.take_of_length_le (List.drop_eq_nil_iff.mp done)
  obtain ⟨entries, ordered, same⟩ := valid
  rw [MergeCursor.added, whole, inputPostings, same, source_arraysOf, read_arraysOf ordered]

theorem mergeRuns_spec (rounds : Nat) {docIds : List Nat} {listed : List (Run × List Nat)}
    {cursors : List MergeCursor} (h : Merging listed cursors) (enough : runsLeft cursors < rounds) :
    ∃ merged, Ordered merged ∧
      mergeRuns rounds (arraysOf docIds listed) cursors = arraysOf docIds merged ∧
      ∀ run, (Assoc.lookup merged run).getD [] =
        Ascending.sort (cursors.flatMap fun cursor => inputPostings run cursor.1) := by
  induction rounds generalizing listed cursors with
  | zero => omega
  | succ rounds ih =>
    rw [mergeRuns]
    have spec := smallestRun_spec cursors
    cases smallest : smallestRun cursors with
    | none =>
      rw [smallest] at spec
      refine ⟨listed, h.ordered, rfl, ?_⟩
      intro run
      rw [h.answers run]
      apply Ascending.sort_flatMap_congr
      intro cursor member
      have ended : cursor.current = none := by
        cases here : cursor.current with
        | none => rfl
        | some other => exact absurd ⟨cursor, member, here⟩ (spec other)
      rw [added_of_done (h.valid cursor member) (left_of_none (h.valid cursor member) ended)]
    | some run =>
      rw [smallest] at spec
      have fewer := runsLeft_advance h.valid spec.1
      obtain ⟨merged, ordered, same, answers⟩ := ih (h.step smallest) (by omega)
      refine ⟨merged, ordered, ?_, ?_⟩
      · rw [← same]
        have pushed : _ = arraysOf docIds (listed ++
            held [(run, Ascending.settle (cursors.flatMap (MergeCursor.adds run)))]) :=
          pushRuns_arraysOf [(run, Ascending.settle (cursors.flatMap (MergeCursor.adds run)))]
        rw [List.foldl_cons, List.foldl_nil] at pushed
        rw [← pushed]
      · intro other
        rw [answers other, List.flatMap_map]
        congr 2
        funext cursor
        rw [MergeCursor.advance]
        split <;> rfl

theorem mergePatternArrays_spec {inputs : List PatternMergeInput}
    (valid : ∀ input ∈ inputs, input.arrays.Valid) :
    (mergePatternArrays inputs).Valid ∧
      (readPatternArrays (mergePatternArrays inputs)).documents =
        Ascending.sort (inputs.flatMap fun input =>
          (readPatternArrays input.arrays).documents.filterMap (remapped (some input.remap))) ∧
      ∀ run, (readPatternArrays (mergePatternArrays inputs)).postings run =
        Ascending.sort (inputs.flatMap fun input =>
          ((readPatternArrays input.arrays).postings run).filterMap (remapped (some input.remap))) := by
  have start := Merging.start valid
  have enough : runsLeft (inputs.map fun input => ((input, 0) : MergeCursor)) <
      (inputs.map fun input => input.arrays.runs.length).sum + 1 := by
    rw [runsLeft, List.map_map]
    have same : (fun cursor : MergeCursor => cursor.left.length) ∘ (fun input => (input, 0)) =
        fun input : PatternMergeInput => input.arrays.runs.length := by
      funext input
      simp [MergeCursor.left, PatternIndexArrays.source]
    rw [same]
    exact Nat.lt_succ_self _
  obtain ⟨merged, ordered, same, answers⟩ := mergeRuns_spec _ start enough
  have whole : mergePatternArrays inputs = arraysOf (Ascending.settle (inputs.flatMap fun input =>
      remapAscending input.arrays.docIds (some input.remap))) merged := same
  refine ⟨⟨merged, ordered, by rw [whole]; rfl⟩, ?_, ?_⟩
  · rw [whole]
    show Ascending.settle _ = _
    rw [Ascending.settle_eq_sort]
    apply Ascending.sort_flatMap_congr
    intro input _
    rw [remapAscending_eq, Ascending.sort_of_sorted (Ascending.sort_sorted _)]
    rfl
  · intro run
    rw [whole, read_arraysOf ordered, answers run, List.flatMap_map]
    rfl

end Narsil.Pattern
