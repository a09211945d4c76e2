import Narsil.Bits.Algebra
import Narsil.Fuzzy.BandedDistance
import Narsil.Pattern.BuiltIndexes
import Narsil.Pattern.TypoText

/-!
# Matching with typing errors

The documents in the rarest lists of a text's runs are compared with it, or every
document where the text has too few runs.
-/
namespace Narsil.Pattern

open Bits

structure TypoComparison where
  text : List Nat
  shortest : Int
  longest : Int
  caseFold : Bool
  tolerance : Nat
  host : PatternHost

namespace TypoComparison

def create (rawText : List Nat) (prepared : TypoText) (caseFold : Bool) (tolerance : Nat)
    (host : PatternHost) : TypoComparison :=
  let length : Int := if caseFold then prepared.folded.length else prepared.codePoints
  { text := if caseFold then prepared.folded else rawText
    shortest := length - tolerance
    longest := length + tolerance
    caseFold := caseFold
    tolerance := tolerance
    host := host }

/-- A value while it is counted; its folds are kept when it is compared folded. -/
structure Counted where
  folded : List Nat
  counted : Nat
  deriving DecidableEq, Repr

def countNext (comparison : TypoComparison) (read : Counted) (codePoint : Nat) : Counted :=
  if comparison.caseFold then
    let folded := read.folded ++ comparison.host.appendFoldedCodePoint codePoint
    ⟨folded, folded.length⟩
  else ⟨read.folded, read.counted + 1⟩

/-- The value is counted until it is too long. -/
def count (comparison : TypoComparison) : List Nat → Counted → Counted
  | [], read => read
  | codePoint :: rest, read =>
    if (read.counted : Int) ≤ comparison.longest then
      count comparison rest (comparison.countNext read codePoint)
    else read

def comparedForm (comparison : TypoComparison) (value : List Nat) : Option (List Nat) :=
  let read := comparison.count value ⟨[], 0⟩
  if (read.counted : Int) > comparison.longest ∨ (read.counted : Int) < comparison.shortest then none
  else some (if comparison.caseFold then read.folded else value)

def within (comparison : TypoComparison) (value : List Nat) : Bool :=
  match comparison.comparedForm value with
  | none => false
  | some compared =>
    (Fuzzy.tabulatedLevenshtein comparison.text compared comparison.tolerance).withinTolerance

end TypoComparison

/-- What a request for a text with typing errors asks. -/
structure TypoRequest where
  text : List Nat
  caseFold : Bool
  tolerance : PatternTolerance
  index : PatternIndexReader
  matched : Bitset
  host : PatternHost
  valueOf : Nat → FieldValue

structure TypoTest where
  needed : Nat
  runs : List Run
  comparison : TypoComparison

namespace TypoRequest

def typoText (request : TypoRequest) : TypoText := foldTypoText request.text request.host

def distinctRuns (request : TypoRequest) : List Run :=
  distinctTypoRuns request.typoText (typoRunLimit request.typoText.longestFold)

/-- The tolerance that a request comes to. -/
def resolved (request : TypoRequest) : Nat :=
  resolvedTypoTolerance request.tolerance request.typoText.longestFold request.distinctRuns.length

def preparedTypoTest (request : TypoRequest) : Option TypoTest :=
  if request.resolved = 0 then none
  else
    some
      { needed := typoRunsNeeded request.resolved request.typoText.longestFold
        runs := request.distinctRuns
        comparison := .create request.text request.typoText request.caseFold request.resolved request.host }

end TypoRequest

def rarestLists (index : PatternIndexReader) (test : TypoTest) : List (List Nat) :=
  if test.runs.length < test.needed then [index.documents]
  else
    ((test.runs.map index.postings).insertionSort fun left right => left.length ≤ right.length).take
      test.needed

/-- What was compared, and what matched. -/
structure TypoMatching where
  checked : Bitset
  found : Bitset

def testOrdinal (request : TypoRequest) (test : TypoTest) (matching : TypoMatching) (ordinal : Nat) :
    TypoMatching :=
  if ordinal / 32 ≥ matching.found.length ∨ matching.checked.has ordinal = true then matching
  else if matching.found.has ordinal = true then
    { matching with checked := matching.checked.set ordinal }
  else
    { checked := matching.checked.set ordinal
      found :=
        if (textsOf (request.valueOf ordinal)).any test.comparison.within then matching.found.set ordinal
        else matching.found }

def testList (request : TypoRequest) (test : TypoTest) (matching : TypoMatching) (list : List Nat) :
    TypoMatching := list.foldl (testOrdinal request test) matching

def matchWithinTolerance (request : TypoRequest) (test : TypoTest) : Bitset :=
  let nothing : TypoMatching := ⟨List.replicate request.matched.length 0, request.matched⟩
  ((rarestLists request.index test).foldl (testList request test) nothing).found

namespace TypoComparison

theorem count_spec (comparison : TypoComparison) (value : List Nat) (read : Counted)
    (same : comparison.caseFold = true → read.counted = read.folded.length) :
    let counted := comparison.count value read
    let length := read.counted + (foldedValue comparison.host comparison.caseFold value).length
    ((counted.counted : Int) > comparison.longest ∧ (length : Int) > comparison.longest) ∨
      (counted.counted = length ∧
        (comparison.caseFold = true → counted.folded = read.folded ++ foldedValue comparison.host true value)) := by
  induction value generalizing read with
  | nil =>
    right
    exact ⟨by simp [count, foldedValue], fun _ => by simp [count, foldedValue]⟩
  | cons codePoint rest ih =>
    have grown : (comparison.countNext read codePoint).counted =
        read.counted + (foldOf comparison.host comparison.caseFold codePoint).length := by
      unfold countNext foldOf
      cases folds : comparison.caseFold with
      | true => simp [same folds]
      | false => rfl
    have kept : comparison.caseFold = true → (comparison.countNext read codePoint).counted =
        (comparison.countNext read codePoint).folded.length := by
      intro folds
      rw [countNext, if_pos folds]
    have longer : (foldedValue comparison.host comparison.caseFold (codePoint :: rest)).length =
        (foldOf comparison.host comparison.caseFold codePoint).length +
          (foldedValue comparison.host comparison.caseFold rest).length := by
      rw [foldedValue, List.flatMap_cons, List.length_append, foldedValue]
    rw [count]
    split
    · rcases ih _ kept with ⟨past, long⟩ | ⟨counted, folded⟩
      · left
        refine ⟨past, ?_⟩
        omega
      · right
        refine ⟨by omega, ?_⟩
        intro folds
        rw [folded folds, countNext, if_pos folds, List.append_assoc]
        rfl
    · left
      omega

theorem within_iff (rawText : List Nat) (caseFold : Bool) (tolerance : Nat) (host : PatternHost)
    (value : List Nat) :
    (create rawText (foldTypoText rawText host) caseFold tolerance host).within value = true ↔
      Edits.editDistance (foldedValue host caseFold rawText) (foldedValue host caseFold value) ≤ tolerance := by
  generalize prepared : create rawText (foldTypoText rawText host) caseFold tolerance host = comparison
  have folds : comparison.caseFold = caseFold := by rw [← prepared]; rfl
  have by_host : comparison.host = host := by rw [← prepared]; rfl
  have bound : comparison.tolerance = tolerance := by rw [← prepared]; rfl
  have text : comparison.text = foldedValue host caseFold rawText := by
    rw [← prepared, create, foldTypoText_folded]
    cases caseFold with
    | true => rfl
    | false => exact (List.flatMap_singleton' rawText).symm
  have lengths : comparison.shortest = ((foldedValue host caseFold rawText).length : Int) - tolerance ∧
      comparison.longest = ((foldedValue host caseFold rawText).length : Int) + tolerance := by
    rw [← prepared, create, foldTypoText_folded, foldTypoText_codePoints, ← text, ← prepared, create,
      foldTypoText_folded]
    cases caseFold <;> exact ⟨rfl, rfl⟩
  have apart := Edits.length_le_editDistance (foldedValue host caseFold rawText)
    (foldedValue host caseFold value)
  have counted := comparison.count_spec value ⟨[], 0⟩ fun _ => rfl
  simp only [folds, by_host, Nat.zero_add, List.nil_append] at counted
  rw [within, comparedForm]
  split
  · next none_compared =>
    simp only [Bool.false_eq_true, false_iff]
    split at none_compared
    · next outside => omega
    · exact absurd none_compared (by simp)
  · next compared some_compared =>
    split at some_compared
    · exact absurd some_compared (by simp)
    · next inside =>
      rw [Option.some.injEq, folds] at some_compared
      have form : compared = foldedValue host caseFold value := by
        rw [← some_compared]
        cases caseFold with
        | true =>
          rcases counted with ⟨past, _⟩ | ⟨_, folded⟩
          · exact absurd (Or.inl past) inside
          · exact folded rfl
        | false => exact (List.flatMap_singleton' value).symm
      rw [Fuzzy.tabulatedLevenshtein_withinTolerance, form, text, bound]
      exact Int.ofNat_le

end TypoComparison

section Matching
variable {request : TypoRequest} {test : TypoTest}

/-- The document at the ordinal has a text within the tolerance. -/
def TypoTest.Finds (test : TypoTest) (request : TypoRequest) (ordinal : Nat) : Prop :=
  ∃ text ∈ textsOf (request.valueOf ordinal), test.comparison.within text = true

/-- What the lists compared so far have brought. -/
structure TypoMatching.After (request : TypoRequest) (test : TypoTest) (matching : TypoMatching)
    (listed : Nat → Prop) : Prop where
  length : matching.found.length = request.matched.length
  found : ∀ ordinal, matching.found.has ordinal = true ↔
    request.matched.has ordinal = true ∨
      (ordinal / 32 < request.matched.length ∧ listed ordinal ∧ test.Finds request ordinal)
  checked : ∀ ordinal, matching.checked.has ordinal = true → listed ordinal

theorem TypoMatching.After.ordinal {matching : TypoMatching} {listed : Nat → Prop}
    (after : matching.After request test listed) (ordinal : Nat) :
    (testOrdinal request test matching ordinal).After request test
      fun other => listed other ∨ other = ordinal := by
  have still : ∀ other, matching.found.has other = true →
      request.matched.has other = true ∨
        (other / 32 < request.matched.length ∧ (listed other ∨ other = ordinal) ∧ test.Finds request other) := by
    intro other found
    rcases (after.found other).mp found with before | ⟨inside, member, finds⟩
    · exact Or.inl before
    · exact Or.inr ⟨inside, Or.inl member, finds⟩
  have checked_set : ∀ other, (matching.checked.set ordinal).has other = true →
      listed other ∨ other = ordinal := by
    intro other checked
    rcases (Bitset.has_set _ _ _).mp checked with before | ⟨same, _⟩
    · exact Or.inl (after.checked other before)
    · exact Or.inr same
  -- all but the ordinal itself is as before
  have unchanged : (∀ inside : ordinal / 32 < request.matched.length, test.Finds request ordinal →
        matching.found.has ordinal = true) →
      ∀ other, matching.found.has other = true ↔ request.matched.has other = true ∨
        (other / 32 < request.matched.length ∧ (listed other ∨ other = ordinal) ∧ test.Finds request other) := by
    intro own other
    constructor
    · exact still other
    · rintro (before | ⟨inside, member | rfl, finds⟩)
      · exact (after.found other).mpr (Or.inl before)
      · exact (after.found other).mpr (Or.inr ⟨inside, member, finds⟩)
      · exact own inside finds
  rw [testOrdinal]
  split
  · next skipped =>
    constructor
    · exact after.length
    · apply unchanged
      intro inside finds
      rcases skipped with past | known
      · rw [after.length] at past
        omega
      · exact (after.found ordinal).mpr (Or.inr ⟨inside, after.checked ordinal known, finds⟩)
    · exact fun other known => Or.inl (after.checked other known)
  · split
    · next known =>
      constructor
      · exact after.length
      · exact unchanged fun _ _ => known
      · exact checked_set
    · next new =>
      constructor
      · dsimp only
        split
        · rw [Bitset.length_set, after.length]
        · exact after.length
      · dsimp only
        split
        · next finds =>
          have found : test.Finds request ordinal := by simpa [TypoTest.Finds] using finds
          intro other
          rw [Bitset.has_set, after.length]
          constructor
          · rintro (before | ⟨rfl, inside⟩)
            · exact still other before
            · exact Or.inr ⟨inside, Or.inr rfl, found⟩
          · rintro (before | ⟨inside, member | rfl, finds⟩)
            · exact Or.inl ((after.found other).mpr (Or.inl before))
            · exact Or.inl ((after.found other).mpr (Or.inr ⟨inside, member, finds⟩))
            · exact Or.inr ⟨rfl, inside⟩
        · next none_found =>
          apply unchanged
          intro _ finds
          exact absurd (by simpa [TypoTest.Finds] using finds) none_found
      · exact checked_set

theorem TypoMatching.After.congr {matching : TypoMatching} {listed listed' : Nat → Prop}
    (after : matching.After request test listed) (same : ∀ ordinal, listed ordinal ↔ listed' ordinal) :
    matching.After request test listed' := by
  have equal : listed = listed' := funext fun ordinal => propext (same ordinal)
  exact equal ▸ after

theorem TypoMatching.After.list (list : List Nat) {matching : TypoMatching} {listed : Nat → Prop}
    (after : matching.After request test listed) :
    (testList request test matching list).After request test
      fun ordinal => listed ordinal ∨ ordinal ∈ list := by
  induction list generalizing matching listed with
  | nil => exact after.congr fun ordinal => by simp
  | cons first rest ih =>
    exact (ih (after.ordinal first)).congr fun ordinal => by rw [List.mem_cons, or_assoc]

theorem TypoMatching.After.lists (lists : List (List Nat)) {matching : TypoMatching}
    {listed : Nat → Prop} (after : matching.After request test listed) :
    (lists.foldl (testList request test) matching).After request test
      fun ordinal => listed ordinal ∨ ∃ list ∈ lists, ordinal ∈ list := by
  induction lists generalizing matching listed with
  | nil => exact after.congr fun ordinal => by simp
  | cons first rest ih =>
    exact (ih (after.list first)).congr fun ordinal => by
      rw [List.exists_mem_cons_iff, or_assoc]

theorem matchWithinTolerance_found (request : TypoRequest) (test : TypoTest) :
    (matchWithinTolerance request test).length = request.matched.length ∧
      ∀ ordinal, (matchWithinTolerance request test).has ordinal = true ↔
        request.matched.has ordinal = true ∨ (ordinal / 32 < request.matched.length ∧
          (∃ list ∈ rarestLists request.index test, ordinal ∈ list) ∧ test.Finds request ordinal) := by
  have unchecked : ∀ ordinal, (Bitset.has (List.replicate request.matched.length 0) ordinal) = false := by
    intro ordinal
    rw [Bitset.has, List.getElem?_replicate]
    split
    · rfl
    · next word found =>
      split at found
      · obtain rfl := Option.some.inj found
        exact Nat.zero_testBit _
      · exact absurd found (by simp)
  have start : (⟨List.replicate request.matched.length 0, request.matched⟩ : TypoMatching).After request test
      fun _ => False := by
    constructor
    · rfl
    · simp
    · intro ordinal checked
      exact absurd checked (by simp [unchecked ordinal])
  have after := start.lists (rarestLists request.index test)
  refine ⟨after.length, ?_⟩
  intro ordinal
  rw [matchWithinTolerance, after.found ordinal, false_or]

theorem rarestLists_live {documents : Documents} (indexes : Indexes request.host documents request.index) :
    ∀ list ∈ rarestLists request.index test, ∀ ordinal ∈ list, ∃ value, documents ordinal value := by
  intro list member ordinal listed
  rw [rarestLists] at member
  split at member
  · obtain rfl := List.mem_singleton.mp member
    exact (indexes.documents_exact ordinal).mp listed
  · have posted := (List.mem_insertionSort _).mp (List.mem_of_mem_take member)
    obtain ⟨run, _, rfl⟩ := List.mem_map.mp posted
    obtain ⟨value, live, _⟩ := (indexes.postings_exact run ordinal).mp listed
    exact ⟨value, live⟩

theorem rarestLists_runs (index : PatternIndexReader) (enough : ¬ test.runs.length < test.needed)
    (distinct : test.runs.Nodup) :
    ∃ runs : List Run, runs.Nodup ∧ runs.length = test.needed ∧ (∀ run ∈ runs, run ∈ test.runs) ∧
      rarestLists index test = runs.map index.postings := by
  let fewer := fun left right : Run => (index.postings left).length ≤ (index.postings right).length
  refine ⟨(test.runs.insertionSort fewer).take test.needed, ?_, ?_, ?_, ?_⟩
  · exact ((List.perm_insertionSort fewer test.runs).nodup_iff.mpr distinct).sublist (List.take_sublist _ _)
  · rw [List.length_take, List.length_insertionSort]
    omega
  · exact fun run member => (List.mem_insertionSort _).mp (List.mem_of_mem_take member)
  · rw [rarestLists, if_neg enough, List.map_take]
    congr 1
    exact (List.map_insertionSort fewer _ index.postings test.runs fun _ _ _ _ => Iff.rfl).symm

theorem preparedTypoTest_spec (prepared : request.preparedTypoTest = some test) :
    test.needed = typoRunsNeeded request.resolved request.typoText.longestFold ∧
      test.runs = request.distinctRuns ∧
      test.comparison =
        .create request.text request.typoText request.caseFold request.resolved request.host := by
  rw [TypoRequest.preparedTypoTest] at prepared
  split at prepared
  · exact absurd prepared (by simp)
  · obtain rfl := Option.some.inj prepared
    exact ⟨rfl, rfl, rfl⟩

theorem TypoRequest.distinctRuns_distinct (request : TypoRequest) :
    DistinctRuns (foldedValue request.host true request.text) request.distinctRuns := by
  have folded : request.typoText.folded = foldedValue request.host true request.text :=
    foldTypoText_folded request.host request.text
  rw [← folded]
  exact distinctTypoRuns_distinct request.typoText (typoRunLimit request.typoText.longestFold)

end Matching

/-- The documents marked are those that have a value within the tolerance of the text: such
    a value has one of any runs that are as many as are needed, so the rarest lists have its
    document, and without so many runs every document is compared. -/
theorem matchWithinTolerance_loses_nothing (request : TypoRequest) (documents : Documents)
    (built : BuiltIndex request.host documents request.index)
    (stored : ∀ ordinal value, documents ordinal value → request.valueOf ordinal = value)
    (test : TypoTest) (prepared : request.preparedTypoTest = some test) :
    let near : List Nat → Prop := fun text =>
      Edits.editDistance (foldedValue request.host request.caseFold request.text)
        (foldedValue request.host request.caseFold text) ≤ request.resolved
    (matchWithinTolerance request test).length = request.matched.length ∧
      (∀ ordinal, (matchWithinTolerance request test).has ordinal = true ↔
        request.matched.has ordinal = true ∨ (ordinal / 32 < request.matched.length ∧
          ∃ value, documents ordinal value ∧ ∃ text ∈ textsOf value, near text)) ∧
      (∀ text runs, near text → DistinctRuns (foldedValue request.host true request.text) runs →
        runs.length = typoRunsNeeded request.resolved request.typoText.longestFold →
        ∃ run ∈ runs, run.codePoints <:+: foldedValue request.host true text) ∧
      (∀ ordinal value, documents ordinal value → (∃ text ∈ textsOf value, near text) →
        ∃ list ∈ rarestLists request.index test, ordinal ∈ list) ∧
      (request.distinctRuns.length < typoRunsNeeded request.resolved request.typoText.longestFold →
        rarestLists request.index test = [request.index.documents]) := by
  intro near
  have indexes := built.indexes
  obtain ⟨needed, runs_of, comparison⟩ := preparedTypoTest_spec prepared
  have within : ∀ text, test.comparison.within text = true ↔ near text := by
    rw [comparison]
    exact TypoComparison.within_iff request.text request.caseFold request.resolved request.host
  have kept : ∀ text runs, near text → DistinctRuns (foldedValue request.host true request.text) runs →
      runs.length = typoRunsNeeded request.resolved request.typoText.longestFold →
      ∃ run ∈ runs, run.codePoints <:+: foldedValue request.host true text := by
    intro text runs is_near distinct many
    exact typoRuns_kept distinct (Nat.le_of_eq many.symm) is_near
  have distinct := request.distinctRuns_distinct
  have listed : ∀ ordinal value, documents ordinal value → (∃ text ∈ textsOf value, near text) →
      ∃ list ∈ rarestLists request.index test, ordinal ∈ list := by
    rintro ordinal value there ⟨text, in_value, is_near⟩
    by_cases few : test.runs.length < test.needed
    · rw [rarestLists, if_pos few]
      exact ⟨_, List.mem_singleton_self _, (indexes.documents_exact ordinal).mpr ⟨value, there⟩⟩
    · obtain ⟨runs, runs_distinct, many, of_test, lists⟩ :=
        rarestLists_runs request.index few (runs_of ▸ distinct.1)
      have of_text : DistinctRuns (foldedValue request.host true request.text) runs :=
        ⟨runs_distinct, fun run member => distinct.2 run (runs_of ▸ of_test run member)⟩
      obtain ⟨run, member, held⟩ := kept text runs is_near of_text (needed ▸ many)
      have posted := (indexes.postings_exact run ordinal).mpr ⟨value, there, text, in_value, held⟩
      rw [lists]
      exact ⟨_, List.mem_map.mpr ⟨run, member, rfl⟩, posted⟩
  obtain ⟨length, found⟩ := matchWithinTolerance_found request test
  refine ⟨length, ?_, kept, listed, ?_⟩
  · intro ordinal
    rw [found]
    apply or_congr_right
    apply and_congr_right
    intro _
    constructor
    · rintro ⟨⟨list, member, in_list⟩, text, in_value, is_within⟩
      obtain ⟨value, there⟩ := rarestLists_live indexes list member ordinal in_list
      rw [stored ordinal value there] at in_value
      exact ⟨value, there, text, in_value, (within text).mp is_within⟩
    · rintro ⟨value, there, text, in_value, is_near⟩
      refine ⟨listed ordinal value there ⟨text, in_value, is_near⟩, text, ?_, (within text).mpr is_near⟩
      rwa [stored ordinal value there]
  · intro few
    rw [rarestLists, runs_of, needed, if_pos few]

theorem matchWithinTolerance_loses_nothing_abcdef :
    let host : PatternHost := ⟨fun codePoint => [codePoint], []⟩
    let value : FieldValue := .text [97, 98, 99, 100, 120, 102]
    let kept : Indexing :=
      ⟨createGrowingPatternIndex.add host 4 value, fun id own => False ∨
        (holdsTextValue value = true ∧ id = 4 ∧ own = value)⟩
    let request : TypoRequest :=
      ⟨[97, 98, 99, 100, 101, 102], true, .auto, kept.index.reader, [0], host, fun _ => value⟩
    let test : TypoTest :=
      ⟨4, request.distinctRuns, .create request.text request.typoText true 1 host⟩
    request.preparedTypoTest = some test ∧ matchWithinTolerance request test = [16] ∧
      (matchWithinTolerance request test).length = request.matched.length := by
  intro host value kept request test
  have disciplined : Transition.AllSteps (Indexing.next host) (Indexing.Allowed host) Indexing.start
      [.add 4 value] := ⟨fun _ => id, fun _ _ => trivial⟩
  have built : BuiltIndex host kept.documents kept.index.reader :=
    .growing [.add 4 value] kept disciplined rfl
  have stored : ∀ ordinal own, kept.documents ordinal own → request.valueOf ordinal = own := by
    rintro ordinal own (none_there | ⟨_, _, rfl⟩)
    · exact absurd none_there id
    · rfl
  have resolved : request.resolved = 1 := by decide
  have prepared : request.preparedTypoTest = some test := by
    rw [TypoRequest.preparedTypoTest, resolved]
    rfl
  exact ⟨prepared, by decide,
    (matchWithinTolerance_loses_nothing request kept.documents built stored test prepared).1⟩

end Narsil.Pattern
