import Narsil.Pattern.Expression

/-!
# Positions of a pattern

`patternPositions` counts how many code points a matcher of the pattern has to tell apart. It
goes no further than one above the limit.
-/
namespace Narsil.Pattern

def MAX_PATTERN_POSITIONS : Nat := 2048
def SATURATED : Nat := MAX_PATTERN_POSITIONS + 1

def saturating (total : Nat) : Nat := min total SATURATED

/-- How often the body of a repeat is written out. -/
def copiesOf (count : RepeatCount) : Nat :=
  match count.max with
  | none => max count.min 1
  | some upper => upper

section
variable (caseFold : Bool) (host : PatternHost)

mutual

def positionsOf : PatternNode → Nat
  | .literal codePoint => (foldOf host caseFold codePoint).length
  | .any => 1
  | .charClass _ => 1
  | .set negated items =>
    if !caseFold || negated then 1
    else (distinctMultiFolds items host).foldl (fun total fold => saturating (total + fold.length)) 1
  | .assert _ => 0
  | .sequence items => positionsOfEach 0 items
  | .choice first rest =>
    let total := saturating (positionsOf first)
    if total = SATURATED then total else positionsOfEach total rest
  | .repeated body count => saturating (copiesOf count * positionsOf body)
  | .numberRange expansion => positionsOf expansion

def positionsOfEach (total : Nat) : List PatternNode → Nat
  | [] => total
  | child :: rest =>
    let total := saturating (total + positionsOf child)
    if total = SATURATED then total else positionsOfEach total rest

end

mutual

/-- The same without an end to the counting. -/
def nodePositions : PatternNode → Nat
  | .literal codePoint => (foldOf host caseFold codePoint).length
  | .any => 1
  | .charClass _ => 1
  | .set negated items =>
    if !caseFold || negated then 1 else 1 + ((distinctMultiFolds items host).map List.length).sum
  | .assert _ => 0
  | .sequence items => nodePositionsOfEach items
  | .choice first rest => nodePositions first + nodePositionsOfEach rest
  | .repeated body count => copiesOf count * nodePositions body
  | .numberRange expansion => nodePositions expansion

def nodePositionsOfEach : List PatternNode → Nat
  | [] => 0
  | child :: rest => nodePositions child + nodePositionsOfEach rest

end

end

def patternPositions (node : PatternNode) (caseFold : Bool) (host : PatternHost) : Nat := positionsOf caseFold host node

theorem saturating_saturating (total : Nat) : saturating (saturating total) = saturating total := by
  rw [saturating, saturating, Nat.min_assoc, Nat.min_self]

theorem saturating_add (total added : Nat) : saturating (saturating total + saturating added) = saturating (total + added) := by
  simp only [saturating]
  omega

theorem saturating_add_congr {left left' right right' : Nat} (first : saturating left = saturating left')
    (second : saturating right = saturating right') : saturating (left + right) = saturating (left' + right') := by
  rw [← saturating_add, first, second, saturating_add]

theorem saturating_mul (copies total : Nat) : saturating (copies * saturating total) = saturating (copies * total) := by
  simp only [saturating]
  rcases Nat.eq_zero_or_pos copies with rfl | some_copy
  · rw [Nat.zero_mul, Nat.zero_mul]
  · rcases Nat.le_total total SATURATED with small | large
    · rw [Nat.min_eq_left small]
    · have cut : SATURATED ≤ copies * SATURATED := Nat.le_mul_of_pos_left _ some_copy
      have whole : SATURATED ≤ copies * total := large.trans (Nat.le_mul_of_pos_left _ some_copy)
      rw [Nat.min_eq_right large, Nat.min_eq_right cut, Nat.min_eq_right whole]

theorem saturating_mul_congr (copies : Nat) {total total' : Nat} (same : saturating total = saturating total') :
    saturating (copies * total) = saturating (copies * total') := by
  rw [← saturating_mul, same, saturating_mul]

theorem saturating_foldl (folds : List (List Nat)) (total : Nat) :
    saturating (folds.foldl (fun total fold => saturating (total + fold.length)) total) =
      saturating (total + (folds.map List.length).sum) := by
  induction folds generalizing total with
  | nil => rfl
  | cons fold folds ih =>
    rw [List.foldl_cons, ih, List.map_cons, List.sum_cons, ← Nat.add_assoc]
    exact saturating_add_congr (saturating_saturating _) rfl

theorem saturated_add {total : Nat} (full : saturating total = SATURATED) (more : Nat) :
    saturating (total + more) = SATURATED := by
  simp only [saturating] at full ⊢
  omega

mutual

theorem positionsOf_saturating (caseFold : Bool) (host : PatternHost) (node : PatternNode) :
    saturating (positionsOf caseFold host node) = saturating (nodePositions caseFold host node) := by
  cases node with
  | literal | any | charClass | assert => rfl
  | set negated items =>
    rw [positionsOf, nodePositions]
    split
    · rfl
    · exact saturating_foldl _ 1
  | sequence items =>
    rw [positionsOf, nodePositions, positionsOfEach_saturating, Nat.zero_add]
  | choice first rest =>
    have ih := positionsOf_saturating caseFold host first
    rw [positionsOf, nodePositions]
    split
    next full =>
      rw [saturating_saturating, full, saturated_add (ih.symm.trans full)]
    next =>
      rw [positionsOfEach_saturating]
      exact saturating_add_congr ((saturating_saturating _).trans ih) rfl
  | repeated body count =>
    have ih := positionsOf_saturating caseFold host body
    rw [positionsOf, nodePositions, saturating_saturating]
    exact saturating_mul_congr _ ih
  | numberRange expansion =>
    rw [positionsOf, nodePositions]
    exact positionsOf_saturating caseFold host expansion

theorem positionsOfEach_saturating (caseFold : Bool) (host : PatternHost) (total : Nat) (nodes : List PatternNode) :
    saturating (positionsOfEach caseFold host total nodes) =
      saturating (total + nodePositionsOfEach caseFold host nodes) := by
  cases nodes with
  | nil => rfl
  | cons node rest =>
    have first := saturating_add_congr (rfl : saturating total = _) (positionsOf_saturating caseFold host node)
    rw [positionsOfEach, nodePositionsOfEach, ← Nat.add_assoc]
    split
    next full => rw [saturating_saturating, full, saturated_add (first.symm.trans full)]
    next =>
      rw [positionsOfEach_saturating]
      exact saturating_add_congr ((saturating_saturating _).trans first) rfl

end

theorem patternPositions_within {node : PatternNode} {caseFold : Bool} {host : PatternHost}
    (within : nodePositions caseFold host node ≤ MAX_PATTERN_POSITIONS) :
    patternPositions node caseFold host ≤ MAX_PATTERN_POSITIONS := by
  have same := positionsOf_saturating caseFold host node
  rw [patternPositions]
  simp only [saturating, SATURATED] at same
  omega

end Narsil.Pattern
