import Narsil.Pattern.Engine
import Narsil.Pattern.LiteralMatcher
import Narsil.Pattern.RunArrays

/-!
# The runs a match must hold

Stretches of a folded text that every match of an expression holds, and the runs picked
of them to be looked up.
-/
namespace Narsil.Pattern

def SHORTLIST_RUN_LOOKUPS : Nat := 16

/-- Runs to be held all, or all of one branch. -/
inductive RunQuery
  | all (runs : List Run)
  | any (branches : List (List Run))
  deriving DecidableEq, Repr

structure FactorCollector where
  factors : List (List Nat)
  current : List Nat
  deriving DecidableEq, Repr

namespace FactorCollector

def flush (collector : FactorCollector) : FactorCollector where
  factors :=
    if collector.current.length ≥ PATTERN_RUN_CODE_POINTS then collector.factors ++ [collector.current]
    else collector.factors
  current := []

mutual

def visit (host : PatternHost) (collector : FactorCollector) : PatternNode → FactorCollector
  | .literal codePoint =>
    { collector with current := collector.current ++ host.appendFoldedCodePoint codePoint }
  | .assert _ => collector
  | .sequence items => visitItems host collector items
  | .repeated body count =>
    if count.min = 1 ∧ count.max = some 1 then visit host collector body
    else if count.min ≥ 1 then (visit host collector.flush body).flush
    else collector.flush
  | .any | .charClass _ | .set _ _ | .choice _ _ | .numberRange _ => collector.flush

def visitItems (host : PatternHost) (collector : FactorCollector) : List PatternNode → FactorCollector
  | [] => collector
  | item :: rest => visitItems host (visit host collector item) rest

end

end FactorCollector

/-- How many runs a factor has. -/
def factorRuns (factor : List Nat) : Nat := factor.length + 1 - PATTERN_RUN_CODE_POINTS

def runAt (factor : List Nat) (at_ : Nat) : Option Run :=
  match factor.drop at_ with
  | first :: second :: third :: _ => some ⟨first, second, third⟩
  | _ => none

/-- The factors from the one that has the target, and the runs before it. -/
def skipFactors (target : Nat) : List (List Nat) → Nat → List (List Nat) × Nat
  | [], factorStart => ([], factorStart)
  | factor :: rest, factorStart =>
    if target ≥ factorStart + factorRuns factor then
      skipFactors target rest (factorStart + factorRuns factor)
    else (factor :: rest, factorStart)

/-- The place of a pick, rounded to the nearest. -/
def pickTarget (total picks pick : Nat) : Nat :=
  if picks = 1 then 0 else (2 * (pick * (total - 1)) + (picks - 1)) / (2 * (picks - 1))

def pickRuns (total picks : Nat) : List Nat → List (List Nat) → Nat → List Run → List Run
  | [], _, _, runs => runs
  | pick :: later, factors, factorStart, runs =>
    let target := pickTarget total picks pick
    let skipped := skipFactors target factors factorStart
    match skipped.1 with
    | [] => runs
    | factor :: _ =>
      match runAt factor (target - skipped.2) with
      | none => runs
      | some run =>
        pickRuns total picks later skipped.1 skipped.2 (if run ∈ runs then runs else runs ++ [run])

def spreadRuns (factors : List (List Nat)) : List Run :=
  let total := (factors.map factorRuns).sum
  if total = 0 then []
  else
    let picks := Nat.min total SHORTLIST_RUN_LOOKUPS
    pickRuns total picks (List.range picks) factors 0 []

def branchRuns (host : PatternHost) (node : PatternNode) : List Run :=
  spreadRuns (FactorCollector.visit host ⟨[], []⟩ node).flush.factors

def requiredRuns (host : PatternHost) : PatternNode → RunQuery
  | .choice first rest =>
    let branches := (first :: rest).map (branchRuns host)
    if branches.any fun runs => runs.length = 0 then .all [] else .any branches
  | node => .all (branchRuns host node)

theorem runAt_isInfix {factor : List Nat} {at_ : Nat} {run : Run} (found : runAt factor at_ = some run) :
    run.codePoints <:+: factor := by
  unfold runAt at found
  split at found
  · next first second third rest dropped =>
    obtain rfl := Option.some.inj found
    have within : Run.codePoints ⟨first, second, third⟩ <+: factor.drop at_ := ⟨rest, by rw [dropped]; rfl⟩
    exact within.isInfix.trans (List.drop_suffix at_ factor).isInfix
  · exact absurd found (by simp)

theorem skipFactors_suffix (target : Nat) (factors : List (List Nat)) (factorStart : Nat) :
    (skipFactors target factors factorStart).1 <:+ factors := by
  induction factors generalizing factorStart with
  | nil => exact List.suffix_rfl
  | cons factor rest ih =>
    rw [skipFactors]
    split
    · exact (ih _).trans (List.suffix_cons factor rest)
    · exact List.suffix_rfl

theorem pickRuns_held {total picks : Nat} {held : Run → Prop} (later : List Nat)
    {factors : List (List Nat)} (factorStart : Nat) {runs : List Run}
    (h : ∀ run ∈ runs, held run)
    (holds : ∀ factor ∈ factors, ∀ run : Run, run.codePoints <:+: factor → held run) :
    ∀ run ∈ pickRuns total picks later factors factorStart runs, held run := by
  induction later generalizing factors factorStart runs with
  | nil => exact h
  | cons pick later ih =>
    rw [pickRuns]
    have left := skipFactors_suffix (pickTarget total picks pick) factors factorStart
    generalize skipFactors (pickTarget total picks pick) factors factorStart = skipped at left
    obtain ⟨rest, start⟩ := skipped
    cases rest with
    | nil => exact h
    | cons factor rest =>
      dsimp only at left ⊢
      cases found : runAt factor (pickTarget total picks pick - start) with
      | none => exact h
      | some picked =>
        have picked_held : held picked :=
          holds factor (left.subset (by simp)) picked (runAt_isInfix found)
        apply ih
        · intro run member
          split at member
          · exact h run member
          · rcases List.mem_append.mp member with old | new
            · exact h run old
            · exact List.mem_singleton.mp new ▸ picked_held
        · exact fun own member => holds own (left.subset member)

theorem spreadRuns_held {factors : List (List Nat)} {text : List Nat}
    (holds : ∀ factor ∈ factors, factor <:+: text) : ∀ run ∈ spreadRuns factors, run.codePoints <:+: text := by
  rw [spreadRuns]
  split
  · exact fun run member => absurd member List.not_mem_nil
  · apply pickRuns_held
    · exact fun run member => absurd member List.not_mem_nil
    · exact fun factor member run within => within.trans (holds factor member)

/-- What the index folds a code point read to: one that is folded stays. -/
def refold (host : PatternHost) (caseFold : Bool) (codePoint : Nat) : List Nat :=
  if caseFold then [codePoint] else host.appendFoldedCodePoint codePoint

section Folding
variable {host : PatternHost} {caseFold : Bool}

theorem foldOf_refold (codePoint : Nat) :
    (foldOf host caseFold codePoint).flatMap (refold host caseFold) =
      host.appendFoldedCodePoint codePoint := by
  cases caseFold with
  | true =>
    have same : refold host true = fun codePoint => [codePoint] := rfl
    rw [same, List.flatMap_singleton']
    rfl
  | false => simp [foldOf, refold]

theorem foldedValue_refold (value : List Nat) :
    (foldedValue host caseFold value).flatMap (refold host caseFold) = foldedValue host true value := by
  rw [foldedValue, List.flatMap_assoc, foldedValue]
  simp only [foldOf_refold]
  rfl

theorem infix_flatMap {text value : List Nat} (f : Nat → List Nat) (within : text <:+: value) :
    text.flatMap f <:+: value.flatMap f := by
  obtain ⟨before, after, rfl⟩ := within
  rw [List.flatMap_append, List.flatMap_append]
  exact ⟨_, _, rfl⟩

end Folding

section Gathered
variable {host : PatternHost} {caseFold : Bool} {read : List Nat}

/-- What was collected of a match up to a position: the factors are held, and what is
    being collected ends there. -/
structure Gathered (host : PatternHost) (caseFold : Bool) (read : List Nat) (i : Nat)
    (collector : FactorCollector) : Prop where
  factors : ∀ factor ∈ collector.factors, factor <:+: read.flatMap (refold host caseFold)
  current : collector.current <:+ (read.take i).flatMap (refold host caseFold)

theorem take_flatMap_isInfix (read : List Nat) (i : Nat) (f : Nat → List Nat) :
    (read.take i).flatMap f <:+: read.flatMap f := infix_flatMap f (List.take_prefix i read).isInfix

theorem Gathered.start (i : Nat) : Gathered host caseFold read i ⟨[], []⟩ where
  factors _ member := absurd member List.not_mem_nil
  current := List.nil_suffix

theorem Gathered.flush {collector : FactorCollector} {i : Nat}
    (h : Gathered host caseFold read i collector) (j : Nat) :
    Gathered host caseFold read j collector.flush where
  factors factor member := by
    rw [FactorCollector.flush] at member
    dsimp only at member
    split at member
    · rcases List.mem_append.mp member with old | new
      · exact h.factors factor old
      · rw [List.mem_singleton.mp new]
        exact h.current.isInfix.trans (take_flatMap_isInfix read i _)
    · exact h.factors factor member
  current := List.nil_suffix

theorem take_of_spansText {text : List Nat} {i j : Nat} (h : SpansText read text i j) :
    read.take j = read.take i ++ text := by
  obtain ⟨⟨after, same⟩, rfl⟩ := h
  rw [List.take_add, ← same, List.take_append_of_le_length (Nat.le_refl _), List.take_length]

theorem Gathered.literal {collector : FactorCollector} {codePoint i j : Nat}
    (h : Gathered host caseFold read i collector)
    (spans : SpansText read (foldOf host caseFold codePoint) i j) :
    Gathered host caseFold read j
      { collector with current := collector.current ++ host.appendFoldedCodePoint codePoint } where
  factors := h.factors
  current := by
    rw [take_of_spansText spans, List.flatMap_append, foldOf_refold]
    obtain ⟨before, same⟩ := h.current
    exact ⟨before, by rw [← same, List.append_assoc]⟩

theorem counted_some {r : Nat → Nat → Prop} {min : Nat} {max : Option Nat} {i j : Nat}
    (least : 1 ≤ min) (h : Spans.Counted min max r i j) : ∃ mid, r i mid := by
  obtain ⟨n, enough, _, rounds⟩ := h
  cases n with
  | zero => omega
  | succ n =>
    obtain ⟨mid, first, _⟩ := rounds
    exact ⟨mid, first⟩

mutual

theorem Gathered.visit (node : PatternNode) {collector : FactorCollector} {i j : Nat}
    (h : Gathered host caseFold read i collector) (spans : node.Spans host caseFold read i j) :
    Gathered host caseFold read j (FactorCollector.visit host collector node) := by
  match node with
  | .literal codePoint => exact h.literal spans
  | .any => exact h.flush j
  | .charClass name => exact h.flush j
  | .set negated items => exact h.flush j
  | .assert mask => exact spans.1 ▸ h
  | .sequence items => exact h.visitItems items spans
  | .choice first rest => exact h.flush j
  | .repeated body count =>
    rw [FactorCollector.visit]
    split
    · next once =>
      obtain ⟨min, max, ordered⟩ := count
      obtain ⟨rfl, rfl⟩ := once
      exact h.visit body (Spans.counted_once.mp spans)
    · split
      · next least =>
        obtain ⟨mid, first⟩ := counted_some least spans
        exact ((h.flush i).visit body first).flush j
      · exact h.flush j
  | .numberRange expansion => exact h.flush j

theorem Gathered.visitItems (items : List PatternNode) {collector : FactorCollector} {i k : Nat}
    (h : Gathered host caseFold read i collector) (spans : sequenceSpans host caseFold read items i k) :
    Gathered host caseFold read k (FactorCollector.visitItems host collector items) := by
  match items with
  | [] =>
    obtain rfl : i = k := spans
    exact h
  | item :: rest =>
    obtain ⟨j, first, later⟩ := spans
    exact (h.visit item first).visitItems rest later

end

theorem branchRuns_held {node : PatternNode} {i j : Nat} (spans : node.Spans host caseFold read i j) :
    ∀ run ∈ branchRuns host node, run.codePoints <:+: read.flatMap (refold host caseFold) :=
  spreadRuns_held (((Gathered.start i).visit node spans).flush j).factors

end Gathered

/-- The text holds the runs of the query: all, or those of one branch. -/
def RunQuery.Held (query : RunQuery) (text : List Nat) : Prop :=
  match query with
  | .all runs => ∀ run ∈ runs, run.codePoints <:+: text
  | .any branches => ∃ runs ∈ branches, ∀ run ∈ runs, run.codePoints <:+: text

section Required
variable {host : PatternHost} {caseFold : Bool} {value : List Nat}

theorem choiceSpans_some {branches : List PatternNode} {read : List Nat} {i j : Nat}
    (h : choiceSpans host caseFold read branches i j) :
    ∃ branch ∈ branches, branch.Spans host caseFold read i j := by
  induction branches with
  | nil => exact absurd h id
  | cons branch rest ih =>
    rcases h with own | later
    · exact ⟨branch, by simp, own⟩
    · obtain ⟨other, member, spans⟩ := ih later
      exact ⟨other, by simp [member], spans⟩

theorem requiredRuns_held {node : PatternNode}
    (matched : node.Matches host caseFold (foldedValue host caseFold value)) :
    (requiredRuns host node).Held (foldedValue host true value) := by
  obtain ⟨i, j, _, _, spans⟩ := matched
  have held : ∀ branch : PatternNode, branch.Spans host caseFold (foldedValue host caseFold value) i j →
      ∀ run ∈ branchRuns host branch, run.codePoints <:+: foldedValue host true value := by
    intro branch own
    rw [← foldedValue_refold]
    exact branchRuns_held own
  cases node with
  | choice first rest =>
    rw [requiredRuns]
    split
    · exact fun run member => absurd member List.not_mem_nil
    · obtain ⟨branch, member, own⟩ : ∃ branch ∈ first :: rest,
          branch.Spans host caseFold (foldedValue host caseFold value) i j := by
        rcases spans with own | later
        · exact ⟨first, by simp, own⟩
        · obtain ⟨other, member, own⟩ := choiceSpans_some later
          exact ⟨other, by simp [member], own⟩
      exact ⟨branchRuns host branch, List.mem_map_of_mem member, held branch own⟩
  | literal codePoint => exact held _ spans
  | any => exact held _ spans
  | charClass name => exact held _ spans
  | set negated items => exact held _ spans
  | assert mask => exact held _ spans
  | sequence items => exact held _ spans
  | repeated body count => exact held _ spans
  | numberRange expansion => exact held _ spans

theorem requiredRuns_some {node : PatternNode} {branches : List (List Run)}
    (query : requiredRuns host node = .any branches) : ∀ runs ∈ branches, runs ≠ [] := by
  cases node with
  | choice first rest =>
    rw [requiredRuns] at query
    split at query
    · exact absurd query (by simp)
    · next each =>
      obtain rfl := RunQuery.any.inj query
      intro runs member empty
      apply each
      rw [List.any_eq_true]
      exact ⟨runs, member, by simp [empty]⟩
  | _ => exact absurd query (by simp [requiredRuns])

/-- The required runs of a text. -/
def literalRuns (host : PatternHost) (text : List Nat) : RunQuery :=
  .all (spreadRuns [foldedValue host true text])

theorem literalMatches_isInfix {anchoredStart anchoredEnd : Bool} {codePoints read : List Nat}
    (matched : LiteralMatches anchoredStart anchoredEnd codePoints read) : codePoints <:+: read := by
  cases anchoredStart <;> cases anchoredEnd
  · exact matched
  · exact List.IsSuffix.isInfix matched
  · exact List.IsPrefix.isInfix matched
  · rw [show read = codePoints from matched]

theorem literalRuns_held {anchoredStart anchoredEnd : Bool} {text : List Nat}
    (matched : LiteralMatches anchoredStart anchoredEnd (foldedValue host caseFold text)
      (foldedValue host caseFold value)) :
    (literalRuns host text).Held (foldedValue host true value) := by
  have within := infix_flatMap (refold host caseFold) (literalMatches_isInfix matched)
  rw [foldedValue_refold, foldedValue_refold] at within
  apply spreadRuns_held
  intro factor member
  rw [List.mem_singleton.mp member]
  exact within

end Required

end Narsil.Pattern
