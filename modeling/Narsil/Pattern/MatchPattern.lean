import Narsil.Bits.Algebra
import Narsil.Pattern.LazyDfaAnswers
import Narsil.Pattern.Shortlist

/-!
# Testing the documents of an index for a pattern

The documents the required runs leave are tested, each by its texts; without required
runs every document is.
-/
namespace Narsil.Pattern

open Bits

inductive LiteralOperator
  | eq | startsWith | endsWith | contains
  deriving DecidableEq, Repr

def ANCHORED_START : List LiteralOperator := [.eq, .startsWith]
def ANCHORED_END : List LiteralOperator := [.eq, .endsWith]

/-- What is tested: a text by its operator, or an expression that was read. -/
inductive PatternTest
  | literal (operator : LiteralOperator) (text : List Nat)
  | expression (node : PatternNode)

/-- A request; the search may have used the automaton of the expression before. -/
structure PatternMatchRequest where
  test : PatternTest
  caseFold : Bool
  index : PatternIndexReader
  matched : Bitset
  host : PatternHost
  valueOf : Nat → FieldValue
  stateLimitBytes : Int
  earlier : List DfaCall

inductive ValueMatcher
  | literal (matcher : LiteralMatcher)
  | expression (program : PatternProgram) (dfa : LazyDfa)

/-- One text of a value, read as the request asks. -/
def ValueMatcher.matchesText (matcher : ValueMatcher) (read : List Nat) : Bool × ValueMatcher :=
  match matcher with
  | .literal own =>
    let later := own.read read
    (later.matched, .literal later)
  | .expression program dfa =>
    let answered := dfa.matchesValue program read
    (answered.1, .expression program answered.2)

namespace PatternMatchRequest

def runs (request : PatternMatchRequest) : RunQuery :=
  match request.test with
  | .literal _ text => literalRuns request.host text
  | .expression node => requiredRuns request.host node

def matcher (request : PatternMatchRequest) : ValueMatcher :=
  match request.test with
  | .literal operator text =>
    .literal (.create (foldedValue request.host request.caseFold text)
      (operator ∈ ANCHORED_START) (operator ∈ ANCHORED_END))
  | .expression node =>
    let program := compileProgram (lowerPattern node request.caseFold request.host)
    .expression program
      (request.earlier.foldl (LazyDfa.call program) (LazyDfa.create program request.stateLimitBytes))

/-- The texts of a value are tested until one matches. -/
def testTexts (request : PatternMatchRequest) (matcher : ValueMatcher) : List (List Nat) → Bool × ValueMatcher
  | [] => (false, matcher)
  | text :: rest =>
    match matcher.matchesText (foldedValue request.host request.caseFold text) with
    | (true, later) => (true, later)
    | (false, later) => testTexts request later rest

/-- The loop over the candidates. -/
def testEach (request : PatternMatchRequest) : List Nat → ValueMatcher → Bitset → Bitset
  | [], _, found => found
  | ordinal :: rest, matcher, found =>
    if ordinal / 32 ≥ found.length ∨ found.has ordinal = true then testEach request rest matcher found
    else
      let tested := request.testTexts matcher (textsOf (request.valueOf ordinal))
      testEach request rest tested.2 (if tested.1 then found.set ordinal else found)

def candidates (request : PatternMatchRequest) : List Nat :=
  (shortlist request.index request.runs).getD request.index.documents

end PatternMatchRequest

def matchPattern (request : PatternMatchRequest) : Bitset :=
  request.testEach request.candidates request.matcher request.matched

/-- Every document is tested. -/
def matchEvery (request : PatternMatchRequest) : Bitset :=
  request.testEach request.index.documents request.matcher request.matched

/-- The text, read as the request asks, meets its test. -/
def PatternMatchRequest.Meets (request : PatternMatchRequest) (text : List Nat) : Prop :=
  match request.test with
  | .literal operator own =>
    LiteralMatches (operator ∈ ANCHORED_START) (operator ∈ ANCHORED_END)
      (foldedValue request.host request.caseFold own) (foldedValue request.host request.caseFold text)
  | .expression node =>
    node.Matches request.host request.caseFold (foldedValue request.host request.caseFold text)

/-- Some text of the value does. -/
def PatternMatchRequest.MeetsValue (request : PatternMatchRequest) (value : FieldValue) : Prop :=
  ∃ text ∈ textsOf value, request.Meets text

section Tested
variable {request : PatternMatchRequest}

/-- The matcher is one of the request; what it was used for is left open. -/
def Right (request : PatternMatchRequest) (matcher : ValueMatcher) : Prop :=
  match request.test, matcher with
  | .literal operator text, .literal own =>
    own.Of (foldedValue request.host request.caseFold text)
      (operator ∈ ANCHORED_START) (operator ∈ ANCHORED_END)
  | .expression node, .expression program dfa =>
    program = compileProgram (lowerPattern node request.caseFold request.host) ∧
      LazyDfa.Kept program dfa
  | _, _ => False

theorem matcher_right (request : PatternMatchRequest) : Right request request.matcher := by
  unfold Right PatternMatchRequest.matcher
  cases request.test with
  | literal operator text => exact LiteralMatcher.create_of _ _ _
  | expression node =>
    have classed := compileProgram_classed node request.caseFold request.host
    have created := (LazyDfa.create_spec (compileProgram (lowerPattern node request.caseFold request.host))
      request.stateLimitBytes).1
    exact ⟨rfl, (LazyDfa.calls_spec classed request.earlier _ created).1⟩

theorem matchesText_spec {matcher : ValueMatcher} (right : Right request matcher) (text : List Nat) :
    Right request (matcher.matchesText (foldedValue request.host request.caseFold text)).2 ∧
      ((matcher.matchesText (foldedValue request.host request.caseFold text)).1 = true ↔
        request.Meets text) := by
  rw [PatternMatchRequest.Meets]
  unfold Right at *
  cases asked : request.test with
  | literal operator own =>
    cases matcher with
    | literal own =>
      rw [asked] at right
      exact ⟨LiteralMatcher.Of.read right _, LiteralMatcher.read_matched right _⟩
    | expression program dfa =>
      rw [asked] at right
      exact absurd right id
  | expression node =>
    cases matcher with
    | literal own =>
      rw [asked] at right
      exact absurd right id
    | expression program dfa =>
      rw [asked] at right
      obtain ⟨rfl, kept⟩ := right
      have classed := compileProgram_classed node request.caseFold request.host
      obtain ⟨kept', answered⟩ := LazyDfa.matchesValue_spec classed
        (foldedValue request.host request.caseFold text) dfa kept
      refine ⟨⟨rfl, kept'⟩, ?_⟩
      show (dfa.matchesValue _ _).1 = true ↔ _
      rw [answered]
      exact simulate_iff_matches node request.caseFold request.host text

theorem testTexts_spec {matcher : ValueMatcher} (right : Right request matcher) (texts : List (List Nat)) :
    Right request (request.testTexts matcher texts).2 ∧
      ((request.testTexts matcher texts).1 = true ↔ ∃ text ∈ texts, request.Meets text) := by
  induction texts generalizing matcher with
  | nil => exact ⟨right, by simp [PatternMatchRequest.testTexts]⟩
  | cons text rest ih =>
    obtain ⟨still, answered⟩ := matchesText_spec right text
    rw [PatternMatchRequest.testTexts]
    generalize matcher.matchesText (foldedValue request.host request.caseFold text) = result at still answered
    obtain ⟨outcome, later⟩ := result
    rw [List.exists_mem_cons_iff]
    cases outcome with
    | true => exact ⟨still, by simpa using Or.inl (answered.mp rfl)⟩
    | false =>
      have no : ¬ request.Meets text := fun meets => absurd (answered.mpr meets) (by simp)
      obtain ⟨kept, rest_answered⟩ := ih still
      refine ⟨kept, ?_⟩
      simp only [rest_answered, no, false_or]

theorem testEach_spec {matcher : ValueMatcher} (right : Right request matcher) (candidates : List Nat)
    (found : Bitset) :
    (request.testEach candidates matcher found).length = found.length ∧
      ∀ ordinal, (request.testEach candidates matcher found).has ordinal = true ↔
        found.has ordinal = true ∨
          (ordinal / 32 < found.length ∧ ordinal ∈ candidates ∧
            request.MeetsValue (request.valueOf ordinal)) := by
  induction candidates generalizing matcher found with
  | nil => exact ⟨rfl, fun ordinal => by simp [PatternMatchRequest.testEach]⟩
  | cons candidate rest ih =>
    rw [PatternMatchRequest.testEach]
    split
    · next skipped =>
      obtain ⟨length, others⟩ := ih right found
      refine ⟨length, ?_⟩
      intro ordinal
      rw [others, List.mem_cons]
      constructor
      · rintro (before | ⟨within, member, meets⟩)
        · exact Or.inl before
        · exact Or.inr ⟨within, Or.inr member, meets⟩
      · rintro (before | ⟨within, rfl | member, meets⟩)
        · exact Or.inl before
        · rcases skipped with past | known
          · omega
          · exact Or.inl known
        · exact Or.inr ⟨within, member, meets⟩
    · next tested =>
      obtain ⟨still, answered⟩ := testTexts_spec right (textsOf (request.valueOf candidate))
      dsimp only
      generalize request.testTexts matcher (textsOf (request.valueOf candidate)) = result at still answered
      obtain ⟨outcome, later⟩ := result
      have within : candidate / 32 < found.length := by
        by_contra past
        exact tested (Or.inl (by omega))
      cases outcome with
      | true =>
        obtain ⟨length, others⟩ := ih still (found.set candidate)
        rw [Bitset.length_set] at length others
        refine ⟨length, ?_⟩
        intro ordinal
        dsimp only
        rw [if_pos rfl, others, Bitset.has_set, List.mem_cons]
        constructor
        · rintro ((before | ⟨rfl, _⟩) | ⟨inside, member, meets⟩)
          · exact Or.inl before
          · exact Or.inr ⟨within, Or.inl rfl, answered.mp rfl⟩
          · exact Or.inr ⟨inside, Or.inr member, meets⟩
        · rintro (before | ⟨inside, rfl | member, meets⟩)
          · exact Or.inl (Or.inl before)
          · exact Or.inl (Or.inr ⟨rfl, inside⟩)
          · exact Or.inr ⟨inside, member, meets⟩
      | false =>
        have not_met : ¬ request.MeetsValue (request.valueOf candidate) := fun meets =>
          absurd (answered.mpr meets) (by simp)
        obtain ⟨length, others⟩ := ih still found
        refine ⟨length, ?_⟩
        intro ordinal
        dsimp only
        rw [if_neg (by simp), others, List.mem_cons]
        constructor
        · rintro (before | ⟨inside, member, meets⟩)
          · exact Or.inl before
          · exact Or.inr ⟨inside, Or.inr member, meets⟩
        · rintro (before | ⟨inside, rfl | member, meets⟩)
          · exact Or.inl before
          · exact absurd meets not_met
          · exact Or.inr ⟨inside, member, meets⟩

theorem runs_held {text : List Nat} (meets : request.Meets text) :
    request.runs.Held (foldedValue request.host true text) := by
  rw [PatternMatchRequest.Meets] at meets
  rw [PatternMatchRequest.runs]
  cases asked : request.test with
  | literal operator own =>
    rw [asked] at meets
    exact literalRuns_held meets
  | expression node =>
    rw [asked] at meets
    exact requiredRuns_held meets

theorem runs_some {branches : List (List Run)} (query : request.runs = .any branches) :
    ∀ runs ∈ branches, runs ≠ [] := by
  rw [PatternMatchRequest.runs] at query
  cases asked : request.test with
  | literal operator own =>
    rw [asked] at query
    exact absurd query (by simp [literalRuns])
  | expression node =>
    rw [asked] at query
    exact requiredRuns_some query

theorem candidates_spec {documents : Documents} (indexes : Indexes request.host documents request.index) :
    (∀ ordinal ∈ request.candidates, ∃ value, documents ordinal value) ∧
      ∀ ordinal value, documents ordinal value → request.MeetsValue value →
        ordinal ∈ request.candidates := by
  rw [PatternMatchRequest.candidates]
  cases shortlisted : shortlist request.index request.runs with
  | none =>
    rw [Option.getD_none]
    constructor
    · exact fun ordinal => (indexes.documents_exact ordinal).mp
    · exact fun ordinal value live _ => (indexes.documents_exact ordinal).mpr ⟨value, live⟩
  | some candidates =>
    obtain ⟨live, found⟩ := shortlist_spec indexes (fun _ => runs_some) shortlisted
    refine ⟨live, ?_⟩
    rintro ordinal value there ⟨text, listed, meets⟩
    exact found ordinal value text there listed (runs_held meets)

/-- Documents that are tested, all that meet the test among them, are found by what is
    stored of them; a document nothing is stored of is not found. -/
theorem testEach_documents {documents : Documents} {tried : List Nat}
    (live : ∀ ordinal ∈ tried, ∃ value, documents ordinal value)
    (complete : ∀ ordinal value, documents ordinal value → request.MeetsValue value → ordinal ∈ tried)
    (stored : ∀ ordinal value, documents ordinal value → request.MeetsValue (request.valueOf ordinal) →
      request.valueOf ordinal = value) (ordinal : Nat) :
    (request.testEach tried request.matcher request.matched).has ordinal = true ↔
      request.matched.has ordinal = true ∨ (ordinal / 32 < request.matched.length ∧
        ∃ value, documents ordinal value ∧ request.valueOf ordinal = value ∧ request.MeetsValue value) := by
  rw [(testEach_spec (matcher_right request) tried request.matched).2 ordinal]
  apply or_congr_right
  apply and_congr_right
  intro _
  constructor
  · rintro ⟨member, meets⟩
    obtain ⟨value, there⟩ := live ordinal member
    have same := stored ordinal value there meets
    exact ⟨value, there, same, same ▸ meets⟩
  · rintro ⟨value, there, same, meets⟩
    exact ⟨complete ordinal value there meets, same.symm ▸ meets⟩

theorem matchPattern_has {documents : Documents} (indexes : Indexes request.host documents request.index)
    (stored : ∀ ordinal value, documents ordinal value → request.MeetsValue (request.valueOf ordinal) →
      request.valueOf ordinal = value) :
    (matchPattern request).length = request.matched.length ∧
      ∀ ordinal, (matchPattern request).has ordinal = true ↔
        request.matched.has ordinal = true ∨ (ordinal / 32 < request.matched.length ∧
          ∃ value, documents ordinal value ∧ request.valueOf ordinal = value ∧ request.MeetsValue value) := by
  obtain ⟨live, found⟩ := candidates_spec indexes
  exact ⟨(testEach_spec (matcher_right request) request.candidates request.matched).1,
    testEach_documents live found stored⟩

end Tested

/-- The documents answered through the shortlist are those that testing every document
    answers, and they are the documents whose value meets the test: a text that meets it
    holds every required run, or those of one branch. -/
theorem matchPattern_loses_nothing (request : PatternMatchRequest) (documents : Documents)
    (built : BuiltIndex request.host documents request.index)
    (stored : ∀ ordinal value, documents ordinal value → request.valueOf ordinal = value) :
    (matchPattern request).length = request.matched.length ∧
      (∀ ordinal, (matchPattern request).has ordinal = (matchEvery request).has ordinal) ∧
      (∀ ordinal, (matchPattern request).has ordinal = true ↔
        request.matched.has ordinal = true ∨
          (ordinal / 32 < request.matched.length ∧
            ∃ value, documents ordinal value ∧ request.MeetsValue value)) ∧
      ∀ text, request.Meets text → request.runs.Held (foldedValue request.host true text) := by
  have indexes := built.indexes
  have dropped : ∀ ordinal, (∃ value, documents ordinal value ∧ request.valueOf ordinal = value ∧
      request.MeetsValue value) ↔ ∃ value, documents ordinal value ∧ request.MeetsValue value := by
    intro ordinal
    constructor
    · rintro ⟨value, there, _, meets⟩
      exact ⟨value, there, meets⟩
    · rintro ⟨value, there, meets⟩
      exact ⟨value, there, stored ordinal value there, meets⟩
  obtain ⟨length, shortlisted⟩ := matchPattern_has indexes fun ordinal value there _ => stored ordinal value there
  have by_shortlist : ∀ ordinal, (matchPattern request).has ordinal = true ↔
      request.matched.has ordinal = true ∨ (ordinal / 32 < request.matched.length ∧
        ∃ value, documents ordinal value ∧ request.MeetsValue value) := by
    intro ordinal
    rw [shortlisted, dropped]
  have by_every : ∀ ordinal, (matchEvery request).has ordinal = true ↔
      request.matched.has ordinal = true ∨ (ordinal / 32 < request.matched.length ∧
        ∃ value, documents ordinal value ∧ request.MeetsValue value) := by
    intro ordinal
    rw [← dropped]
    exact testEach_documents (fun ordinal => (indexes.documents_exact ordinal).mp)
      (fun ordinal value there _ => (indexes.documents_exact ordinal).mpr ⟨value, there⟩)
      (fun ordinal value there _ => stored ordinal value there) ordinal
  refine ⟨length, ?_, by_shortlist, fun text => runs_held⟩
  intro ordinal
  rw [Bool.eq_iff_iff, by_shortlist ordinal, by_every ordinal]

theorem matchPattern_loses_nothing_abcd :
    let host : PatternHost := ⟨fun codePoint => [codePoint], []⟩
    let kept : Indexing :=
      ⟨createGrowingPatternIndex.add host 4 (.text [97, 98, 99, 100]), fun id value => False ∨
        (holdsTextValue (.text [97, 98, 99, 100]) = true ∧ id = 4 ∧ value = .text [97, 98, 99, 100])⟩
    let request : PatternMatchRequest :=
      ⟨.literal .contains [98, 99, 100], true, kept.index.reader, [1], host,
        fun _ => .text [97, 98, 99, 100], 0, []⟩
    matchPattern request = [17] ∧
      ∀ ordinal, (matchPattern request).has ordinal = (matchEvery request).has ordinal := by
  intro host kept request
  have disciplined : Transition.AllSteps (Indexing.next host) (Indexing.Allowed host) Indexing.start
      [.add 4 (.text [97, 98, 99, 100])] := ⟨fun _ => id, fun _ _ => trivial⟩
  have built : BuiltIndex host kept.documents kept.index.reader :=
    .growing [.add 4 (.text [97, 98, 99, 100])] kept disciplined rfl
  have stored : ∀ ordinal value, kept.documents ordinal value → request.valueOf ordinal = value := by
    rintro ordinal value (none_there | ⟨_, _, rfl⟩)
    · exact absurd none_there id
    · rfl
  exact ⟨by decide, (matchPattern_loses_nothing request kept.documents built stored).2.1⟩

end Narsil.Pattern
