import Narsil.Ascending.Settling
import Narsil.Offsets.Packed
import Narsil.Pattern.Expression

/-!
# Runs and the arrays that list them

Three code points in a row are a run. The arrays of an index hold its documents, and
each of its runs with the ordinals of the documents that hold it.
-/
namespace Narsil.Pattern

def PATTERN_RUN_CODE_POINTS : Nat := 3

structure Run where
  first : Nat
  second : Nat
  third : Nat
  deriving DecidableEq, Repr

def collectRunKeys : List Nat → List Run
  | first :: second :: third :: rest => ⟨first, second, third⟩ :: collectRunKeys (second :: third :: rest)
  | _ => []

def Run.codePoints (run : Run) : List Nat := [run.first, run.second, run.third]

theorem mem_collectRunKeys {run : Run} {codePoints : List Nat} :
    run ∈ collectRunKeys codePoints ↔ run.codePoints <:+: codePoints := by
  induction codePoints using collectRunKeys.induct with
  | case1 first second third rest ih =>
    have front : run = ⟨first, second, third⟩ ↔
        run.codePoints <+: first :: second :: third :: rest := by
      obtain ⟨a, b, c⟩ := run
      simp only [Run.mk.injEq, Run.codePoints, List.cons_prefix_cons, List.nil_prefix, and_true]
    rw [collectRunKeys, List.mem_cons, ih, front]
    exact List.infix_cons_iff.symm
  | case2 codePoints short =>
    have few : codePoints.length < 3 := by
      match codePoints, short with
      | [], _ => simp
      | [_], _ => simp
      | [_, _], _ => simp
      | a :: b :: c :: rest, short => exact absurd rfl (short a b c rest)
    have nothing : collectRunKeys codePoints = [] := by
      match codePoints, few with
      | [], _ => rfl
      | [_], _ => rfl
      | [_, _], _ => rfl
    rw [nothing]
    simp only [List.not_mem_nil, false_iff]
    intro held
    have shorter := held.length_le
    simp only [Run.codePoints, List.length_cons, List.length_nil] at shorter
    omega

/-- The first difference of two runs. -/
def compareRuns (left right : Run) : Int :=
  if left.first ≠ right.first then left.first - right.first
  else if left.second ≠ right.second then left.second - right.second
  else left.third - right.third

def Before (left right : Run) : Prop := compareRuns left right < 0

theorem before_iff {left right : Run} :
    Before left right ↔ left.first < right.first ∨ (left.first = right.first ∧
      (left.second < right.second ∨ (left.second = right.second ∧ left.third < right.third))) := by
  unfold Before compareRuns
  split
  · omega
  · split <;> omega

theorem compareRuns_eq_zero {left right : Run} : compareRuns left right = 0 ↔ left = right := by
  obtain ⟨a, b, c⟩ := left
  obtain ⟨a', b', c'⟩ := right
  rw [Run.mk.injEq]
  unfold compareRuns
  dsimp only
  split
  · omega
  · split <;> omega

theorem Before.trans {left middle right : Run} (h : Before left middle) (h' : Before middle right) :
    Before left right := by
  rw [before_iff] at *
  omega

theorem Before.irrefl (run : Run) : ¬ Before run run := by
  rw [before_iff]
  omega

theorem compareRuns_pos {left right : Run} : 0 < compareRuns left right ↔ Before right left := by
  rw [before_iff]
  unfold compareRuns
  split
  · omega
  · split <;> omega

theorem before_trichotomy (left right : Run) : Before left right ∨ left = right ∨ Before right left := by
  rcases Int.lt_trichotomy (compareRuns left right) 0 with less | same | more
  · exact Or.inl less
  · exact Or.inr (Or.inl (compareRuns_eq_zero.mp same))
  · exact Or.inr (Or.inr (compareRuns_pos.mp more))

/-- The arrays of one field's index. -/
structure PatternIndexArrays where
  docIds : List Nat
  runs : List Run
  offsets : List Nat
  postings : List Nat

/-- An ordinal by a table that drops the ones it has no place for. -/
def remapped (remap : Option (List Int)) (ordinal : Nat) : Option Nat :=
  match remap with
  | none => some ordinal
  | some table =>
    match table[ordinal]? with
    | none => none
    | some mapped => if mapped < 0 then none else some mapped.toNat

/-- What remapping in ascending order appends. -/
def remapAscending (source : List Nat) (remap : Option (List Int)) : List Nat :=
  Ascending.settle (source.filterMap (remapped remap))

/-- One more run with its postings, left out when it has none. -/
def PatternIndexArrays.pushRun (arrays : PatternIndexArrays) (run : Run) (postings : List Nat) :
    PatternIndexArrays :=
  if postings.length = 0 then arrays
  else
    { arrays with
      runs := arrays.runs ++ [run]
      offsets := arrays.offsets ++ [arrays.postings.length + postings.length]
      postings := arrays.postings ++ postings }

/-- The arrays of runs in order, each with its postings. -/
def buildArrays (documents : List Nat) (source : List (Run × List Nat)) (remap : Option (List Int)) :
    PatternIndexArrays :=
  source.foldl (fun arrays entry => arrays.pushRun entry.1 (remapAscending entry.2 remap))
    ⟨remapAscending documents remap, [], [0], []⟩

/-- The postings of the run at a place. -/
def PatternIndexArrays.postingsAt (arrays : PatternIndexArrays) (run : Nat) : List Nat :=
  Offsets.Packed.segment ⟨arrays.offsets, arrays.postings⟩ run

/-- The loop of `findRun`, with more rounds than the distance it halves. -/
def searchRuns (runs : List Run) (run : Run) : Nat → Nat → Nat → Option Nat
  | 0, _, _ => none
  | rounds + 1, low, high =>
    if low < high then
      let middle := (low + high) / 2
      match runs[middle]? with
      | none => none
      | some own =>
        let difference := compareRuns own run
        if difference = 0 then some middle
        else if difference < 0 then searchRuns runs run rounds (middle + 1) high
        else searchRuns runs run rounds low middle
    else none

def findRun (runs : List Run) (run : Run) : Option Nat :=
  searchRuns runs run (runs.length + 1) 0 runs.length

/-- What an index answers. -/
structure PatternIndexReader where
  documents : List Nat
  postings : Run → List Nat

def readPatternArrays (arrays : PatternIndexArrays) : PatternIndexReader where
  documents := arrays.docIds
  postings run :=
    match findRun arrays.runs run with
    | none => []
    | some place => arrays.postingsAt place

/-- The runs of the arrays with their postings. -/
def PatternIndexArrays.source (arrays : PatternIndexArrays) : List (Run × List Nat) :=
  arrays.runs.mapIdx fun place run => (run, arrays.postingsAt place)

/-- The arrays of an index that is frozen already. -/
def PatternIndexArrays.toArrays (arrays : PatternIndexArrays) (remap : Option (List Int)) :
    PatternIndexArrays := buildArrays arrays.docIds arrays.source remap

/-- The arrays that list runs with their postings. -/
def arraysOf (docIds : List Nat) (entries : List (Run × List Nat)) : PatternIndexArrays where
  docIds := docIds
  runs := entries.map Prod.fst
  offsets := (Offsets.Packed.pack (entries.map Prod.snd)).offsets
  postings := (Offsets.Packed.pack (entries.map Prod.snd)).values

/-- Each run once, in order. -/
def Ordered (entries : List (Run × List Nat)) : Prop := (entries.map Prod.fst).Pairwise Before

/-- Arrays that can be searched: they list runs in order. -/
def PatternIndexArrays.Valid (arrays : PatternIndexArrays) : Prop :=
  ∃ entries, Ordered entries ∧ arrays = arraysOf arrays.docIds entries

theorem searchRuns_iff {runs : List Run} (ordered : runs.Pairwise Before) {run : Run}
    (rounds low high : Nat) (enough : high - low < rounds) (inside : high ≤ runs.length)
    (outside : ∀ i, runs[i]? = some run → low ≤ i ∧ i < high) (i : Nat) :
    searchRuns runs run rounds low high = some i ↔ runs[i]? = some run := by
  have along : ∀ {i j : Nat} {left right : Run}, runs[i]? = some left → runs[j]? = some right →
      i < j → Before left right := by
    intro i j left right at_i at_j less
    obtain ⟨hi, rfl⟩ := List.getElem?_eq_some_iff.mp at_i
    obtain ⟨hj, rfl⟩ := List.getElem?_eq_some_iff.mp at_j
    exact List.pairwise_iff_getElem.mp ordered i j hi hj less
  induction rounds generalizing low high with
  | zero => omega
  | succ rounds ih =>
    rw [searchRuns]
    split
    · next narrow =>
      have here : runs[(low + high) / 2]? = some runs[(low + high) / 2] :=
        List.getElem?_eq_getElem (by omega)
      simp only [here]
      split
      · next equal =>
        have same := compareRuns_eq_zero.mp equal
        rw [same] at here
        rw [Option.some.injEq]
        constructor
        · rintro rfl
          exact here
        · intro found
          rcases Nat.lt_trichotomy ((low + high) / 2) i with before | rfl | after
          · exact absurd (along here found before) (Before.irrefl run)
          · rfl
          · exact absurd (along found here after) (Before.irrefl run)
      · next different =>
        split
        · next less =>
          apply ih
          · omega
          · exact inside
          · intro j found
            obtain ⟨_, below⟩ := outside j found
            refine ⟨?_, below⟩
            by_contra early
            rcases Nat.lt_or_eq_of_le (show j ≤ (low + high) / 2 by omega) with before | rfl
            · exact Before.irrefl run ((along found here before).trans less)
            · exact different (compareRuns_eq_zero.mpr (Option.some.inj (here.symm.trans found)))
        · next not_less =>
          have more : Before run runs[(low + high) / 2] := compareRuns_pos.mp (by omega)
          apply ih
          · omega
          · omega
          · intro j found
            obtain ⟨above, _⟩ := outside j found
            refine ⟨above, ?_⟩
            by_contra late
            rcases Nat.lt_or_eq_of_le (show (low + high) / 2 ≤ j by omega) with after | rfl
            · exact Before.irrefl run (more.trans (along here found after))
            · exact different (compareRuns_eq_zero.mpr (Option.some.inj (here.symm.trans found)))
    · next closed =>
      simp only [reduceCtorEq, false_iff]
      intro found
      have bounds := outside i found
      omega

theorem findRun_iff {runs : List Run} (ordered : runs.Pairwise Before) {run : Run} (i : Nat) :
    findRun runs run = some i ↔ runs[i]? = some run := by
  apply searchRuns_iff ordered
  · omega
  · exact Nat.le_refl _
  · intro j found
    exact ⟨Nat.zero_le j, (List.getElem?_eq_some_iff.mp found).1⟩

theorem remapAscending_eq (source : List Nat) (remap : Option (List Int)) :
    remapAscending source remap = Ascending.sort (source.filterMap (remapped remap)) :=
  Ascending.settle_eq_sort _

section Answers
variable {docIds : List Nat} {entries : List (Run × List Nat)}

theorem postingsAt_arraysOf {place : Nat} {entry : Run × List Nat} (here : entries[place]? = some entry) :
    (arraysOf docIds entries).postingsAt place = entry.2 := by
  apply Offsets.Packed.segment_pack
  rw [List.getElem?_map, here, Option.map_some]

theorem source_arraysOf : (arraysOf docIds entries).source = entries := by
  apply List.ext_getElem?
  intro place
  rw [PatternIndexArrays.source, List.getElem?_mapIdx, arraysOf]
  simp only [List.getElem?_map, Option.map_map]
  cases here : entries[place]? with
  | none => rfl
  | some entry =>
    have read : (arraysOf docIds entries).postingsAt place = entry.2 := postingsAt_arraysOf here
    rw [arraysOf] at read
    simp only [Option.map_some, Function.comp_apply, read]

theorem Ordered.distinct (ordered : Ordered entries) : (entries.map Prod.fst).Nodup := by
  apply List.Pairwise.imp _ ordered
  rintro left right before rfl
  exact Before.irrefl left before

theorem read_arraysOf (ordered : Ordered entries) (run : Run) :
    (readPatternArrays (arraysOf docIds entries)).postings run =
      (Assoc.lookup entries run).getD [] := by
  have places : ∀ place, findRun (arraysOf docIds entries).runs run = some place ↔
      (entries.map Prod.fst)[place]? = some run := fun place => findRun_iff ordered place
  rw [readPatternArrays]
  dsimp only
  cases found : findRun (arraysOf docIds entries).runs run with
  | none =>
    have absent : run ∉ entries.map Prod.fst := by
      intro member
      obtain ⟨place, here⟩ := List.mem_iff_getElem?.mp member
      rw [(places place).mpr here] at found
      exact absurd found (by simp)
    rw [Assoc.lookup_eq_none.mpr absent]
    rfl
  | some place =>
    have here := (places place).mp found
    rw [List.getElem?_map] at here
    obtain ⟨entry, there, rfl⟩ := Option.map_eq_some_iff.mp here
    rw [Assoc.lookup_of_mem ordered.distinct (List.mem_of_getElem? there)]
    exact postingsAt_arraysOf there

theorem pushRun_arraysOf (run : Run) (postings : List Nat) :
    (arraysOf docIds entries).pushRun run postings =
      if postings = [] then arraysOf docIds entries
      else arraysOf docIds (entries ++ [(run, postings)]) := by
  rw [PatternIndexArrays.pushRun]
  simp only [List.length_eq_zero_iff]
  split
  · rfl
  · simp only [arraysOf, List.map_append, List.map_cons, List.map_nil, Offsets.Packed.pack_concat,
      Offsets.Packed.push]

/-- The runs that have postings. -/
def held (entries : List (Run × List Nat)) : List (Run × List Nat) :=
  entries.filter fun entry => entry.2 ≠ []

theorem pushRuns_arraysOf (more : List (Run × List Nat)) :
    more.foldl (fun arrays entry => PatternIndexArrays.pushRun arrays entry.1 entry.2)
      (arraysOf docIds entries) = arraysOf docIds (entries ++ held more) := by
  induction more generalizing entries with
  | nil => simp [held]
  | cons entry rest ih =>
    rw [List.foldl_cons, pushRun_arraysOf]
    split
    · next empty => rw [ih, held, held, List.filter_cons_of_neg (by simpa using empty)]
    · next some =>
      rw [ih, held, held, List.filter_cons_of_pos (by simpa using some), List.append_assoc]
      rfl

theorem held_ordered (ordered : Ordered entries) : Ordered (held entries) :=
  ordered.sublist (List.filter_sublist.map Prod.fst)

theorem lookup_held (distinct : (entries.map Prod.fst).Nodup) (run : Run) :
    (Assoc.lookup (held entries) run).getD [] = (Assoc.lookup entries run).getD [] := by
  have held_distinct : ((held entries).map Prod.fst).Nodup :=
    distinct.sublist (List.filter_sublist.map Prod.fst)
  cases found : Assoc.lookup entries run with
  | none =>
    have absent : run ∉ (held entries).map Prod.fst := fun member =>
      Assoc.lookup_eq_none.mp found ((List.filter_sublist.map Prod.fst).subset member)
    rw [Assoc.lookup_eq_none.mpr absent]
  | some postings =>
    by_cases empty : postings = []
    · subst empty
      cases kept : Assoc.lookup (held entries) run with
      | none => rfl
      | some own =>
        obtain ⟨member, _⟩ := List.mem_filter.mp (Assoc.mem_of_lookup kept)
        have same := Assoc.lookup_of_mem distinct member
        rw [found, Option.some.injEq] at same
        rw [Option.getD_some, Option.getD_some, same]
    · have member : (run, postings) ∈ held entries :=
        List.mem_filter.mpr ⟨Assoc.mem_of_lookup found, by simpa using empty⟩
      rw [Assoc.lookup_of_mem held_distinct member]

end Answers

/-- What an index answers for the ordinals a table gives its documents. -/
def Remaps (reader later : PatternIndexReader) (remap : Option (List Int)) : Prop :=
  later.documents = Ascending.sort (reader.documents.filterMap (remapped remap)) ∧
    ∀ run, later.postings run = Ascending.sort ((reader.postings run).filterMap (remapped remap))

theorem buildArrays_spec {documents : List Nat} {source : List (Run × List Nat)} (ordered : Ordered source)
    (remap : Option (List Int)) :
    (buildArrays documents source remap).Valid ∧
      (buildArrays documents source remap).docIds =
        Ascending.sort (documents.filterMap (remapped remap)) ∧
      ∀ run, (readPatternArrays (buildArrays documents source remap)).postings run =
        Ascending.sort (((Assoc.lookup source run).getD []).filterMap (remapped remap)) := by
  have mapped_ordered : Ordered (source.map fun entry => (entry.1, remapAscending entry.2 remap)) := by
    rw [Ordered, List.map_map]
    exact ordered
  have built : buildArrays documents source remap = arraysOf (remapAscending documents remap)
      (held (source.map fun entry => (entry.1, remapAscending entry.2 remap))) := by
    have pushed : _ = arraysOf (remapAscending documents remap)
        ([] ++ held (source.map fun entry => (entry.1, remapAscending entry.2 remap))) :=
      pushRuns_arraysOf (source.map fun entry => (entry.1, remapAscending entry.2 remap))
    rw [List.foldl_map, List.nil_append] at pushed
    exact pushed
  refine ⟨⟨_, held_ordered mapped_ordered, built ▸ rfl⟩, ?_, ?_⟩
  · rw [built]
    exact remapAscending_eq documents remap
  · intro run
    rw [built, read_arraysOf (held_ordered mapped_ordered), lookup_held mapped_ordered.distinct,
      Assoc.lookup_map_values fun postings => remapAscending postings remap]
    cases Assoc.lookup source run with
    | none => rfl
    | some postings => exact remapAscending_eq postings remap

theorem toArrays_spec {arrays : PatternIndexArrays} (valid : arrays.Valid) (remap : Option (List Int)) :
    (arrays.toArrays remap).Valid ∧
      Remaps (readPatternArrays arrays) (readPatternArrays (arrays.toArrays remap)) remap := by
  obtain ⟨entries, ordered, same⟩ := valid
  have source : arrays.source = entries := by
    rw [same]
    exact source_arraysOf
  obtain ⟨valid, docIds, postings⟩ := buildArrays_spec ordered remap
  rw [PatternIndexArrays.toArrays, source]
  refine ⟨valid, docIds, ?_⟩
  intro run
  rw [postings run]
  rw [same, read_arraysOf ordered]

end Narsil.Pattern
