import Mathlib.Data.List.Basic

/-!
# A binary heap in an array

The children of place `i` are at `2 * i + 1` and `2 * i + 2`. A new node rises from the
end while it comes before its parent; the last node, put in place of the first, sinks
while a child comes before it.
-/
namespace Narsil.Ranking

variable {α : Type*} (cmp : α → α → Ordering)

def parent (idx : Nat) : Nat := (idx - 1) / 2

theorem parent_lt {idx : Nat} (inside : 0 < idx) : parent idx < idx := by
  rw [parent]
  omega

theorem parent_eq_iff {idx above : Nat} (inside : 0 < idx) :
    parent idx = above ↔ idx = 2 * above + 1 ∨ idx = 2 * above + 2 := by
  rw [parent]
  omega

def siftUp (heap : Array α) (idx : Nat) : Array α :=
  if _inside : 0 < idx then
    match heap[idx]?, heap[parent idx]? with
    | some node, some above =>
      if (cmp node above).isLT then siftUp (heap.swapIfInBounds idx (parent idx)) (parent idx) else heap
    | _, _ => heap
  else heap
termination_by idx
decreasing_by exact parent_lt _inside

def pushHeap (heap : Array α) (node : α) : Array α := siftUp cmp (heap.push node) heap.size

/-- The place of the two whose node comes first; the first one where they are equal. -/
def earlier (heap : Array α) (first candidate : Nat) : Nat :=
  match heap[candidate]?, heap[first]? with
  | some node, some held => if (cmp node held).isLT then candidate else first
  | _, _ => first

/-- The first of a place and its two children. -/
def firstOfThree (heap : Array α) (idx : Nat) : Nat :=
  earlier cmp heap (earlier cmp heap idx (2 * idx + 1)) (2 * idx + 2)

theorem earlier_cases (heap : Array α) (first candidate : Nat) :
    earlier cmp heap first candidate = first ∨
      (earlier cmp heap first candidate = candidate ∧ candidate < heap.size) := by
  rw [earlier]
  split
  next node held here there =>
    split
    · exact .inr ⟨rfl, (Array.getElem?_eq_some_iff.mp here).1⟩
    · exact .inl rfl
  · exact .inl rfl

theorem firstOfThree_cases (heap : Array α) (idx : Nat) :
    firstOfThree cmp heap idx = idx ∨
      (idx < firstOfThree cmp heap idx ∧ firstOfThree cmp heap idx < heap.size ∧
        parent (firstOfThree cmp heap idx) = idx) := by
  have left := earlier_cases cmp heap idx (2 * idx + 1)
  have right := earlier_cases cmp heap (earlier cmp heap idx (2 * idx + 1)) (2 * idx + 2)
  rw [firstOfThree]
  rcases right with same | ⟨same, inside⟩
  · rw [same]
    rcases left with same | ⟨same, inside⟩
    · exact .inl same
    · rw [same, parent]
      omega
  · rw [same, parent]
    omega

def siftDown (heap : Array α) (idx : Nat) : Array α :=
  let first := firstOfThree cmp heap idx
  if _moves : first ≠ idx then siftDown (heap.swapIfInBounds idx first) first else heap
termination_by heap.size - idx
decreasing_by
  rw [Array.size_swapIfInBounds]
  rcases firstOfThree_cases cmp heap idx with same | ⟨after, inside, _⟩
  · exact absurd same _moves
  · omega

def popHeap (heap : Array α) : Option (α × Array α) :=
  match heap[0]?, heap.back? with
  | some top, some last =>
    let rest := heap.pop
    some (top, if 0 < rest.size then siftDown cmp (rest.setIfInBounds 0 last) 0 else rest)
  | _, _ => none

/-- Each node below the top comes no earlier than its parent, the places of `off` apart. -/
def OrderedOff (heap : Array α) (off : Nat → Prop) : Prop :=
  ∀ child node above, 0 < child → ¬off child → heap[child]? = some node →
    heap[parent child]? = some above → (cmp above node).isLE

def OrderedHeap (heap : Array α) : Prop := OrderedOff cmp heap fun _ => False

/-- What lies two places apart over `hole` is in order. -/
def OrderedPast (heap : Array α) (hole : Nat) : Prop :=
  ∀ child node above, 0 < child → 0 < hole → parent child = hole → heap[child]? = some node →
    heap[parent hole]? = some above → (cmp above node).isLE

section Swaps
variable {heap : Array α} {i j k : Nat} {x y : α}

theorem getElem?_swap_left (first : heap[i]? = some x) (second : heap[j]? = some y) :
    (heap.swapIfInBounds i j)[i]? = some y := by
  obtain ⟨inside, rfl⟩ := Array.getElem?_eq_some_iff.mp first
  obtain ⟨inside', rfl⟩ := Array.getElem?_eq_some_iff.mp second
  rw [Array.swapIfInBounds_def, dif_pos inside, dif_pos inside', Array.getElem?_swap]
  split
  next same => subst same; rfl
  · rw [if_pos rfl]

theorem getElem?_swap_right (first : heap[i]? = some x) (second : heap[j]? = some y) :
    (heap.swapIfInBounds i j)[j]? = some x := by
  obtain ⟨inside, rfl⟩ := Array.getElem?_eq_some_iff.mp first
  obtain ⟨inside', rfl⟩ := Array.getElem?_eq_some_iff.mp second
  rw [Array.swapIfInBounds_def, dif_pos inside, dif_pos inside', Array.getElem?_swap, if_pos rfl]

theorem getElem?_swap_other (left : k ≠ i) (right : k ≠ j) :
    (heap.swapIfInBounds i j)[k]? = heap[k]? := by
  rw [Array.swapIfInBounds_def]
  split
  · split
    · rw [Array.getElem?_swap, if_neg (Ne.symm right), if_neg (Ne.symm left)]
    · rfl
  · rfl

theorem swapIfInBounds_perm : (heap.swapIfInBounds i j).toList.Perm heap.toList := by
  rw [Array.swapIfInBounds_def]
  split
  · split
    · exact Array.perm_iff_toList_perm.mp (Array.swap_perm _ _)
    · exact .refl _
  · exact .refl _

end Swaps

variable {cmp}

theorem siftUp_perm (heap : Array α) (idx : Nat) : (siftUp cmp heap idx).toList.Perm heap.toList := by
  induction heap, idx using siftUp.induct cmp with
  | case1 heap idx inside node above covered here first ih =>
    rw [siftUp, dif_pos inside, here, covered]
    simp only [first, if_true]
    exact ih.trans swapIfInBounds_perm
  | case2 heap idx inside node above covered here late =>
    rw [siftUp, dif_pos inside, here, covered]
    simp only [late, if_false, Bool.false_eq_true]
    exact .refl _
  | case3 heap idx inside none =>
    rw [siftUp, dif_pos inside]
    split
    next node above here covered => exact (none node above here covered).elim
    · exact .refl _
  | case4 heap idx outside => rw [siftUp, dif_neg outside]

theorem isLE_of_not_lt [Std.OrientedCmp cmp] {low high : α} (late : ¬(cmp low high).isLT) :
    (cmp high low).isLE := by
  rw [@Std.OrientedCmp.eq_swap _ cmp]
  cases order : cmp low high with
  | lt => exact absurd (Ordering.isLT_iff_eq_lt.mpr order) late
  | eq => rfl
  | gt => rfl

theorem OrderedOff.rise [Std.TransCmp cmp] {heap : Array α} {hole : Nat} {node above : α}
    (inside : 0 < hole) (here : heap[hole]? = some node) (covered : heap[parent hole]? = some above)
    (first : cmp node above = .lt) (ordered : OrderedOff cmp heap (· = hole))
    (past : OrderedPast cmp heap hole) :
    OrderedOff cmp (heap.swapIfInBounds hole (parent hole)) (· = parent hole) ∧
      OrderedPast cmp (heap.swapIfInBounds hole (parent hole)) (parent hole) := by
  have apart : parent hole < hole := parent_lt inside
  have risen := getElem?_swap_right here covered
  have sunk := getElem?_swap_left here covered
  have before : (cmp node above).isLE := by rw [first]; rfl
  constructor
  · intro child low high positive other at_ at_above
    by_cases same : child = hole
    · subst same
      rw [risen] at at_above
      rw [sunk] at at_
      cases at_; cases at_above
      exact before
    · rw [getElem?_swap_other same other] at at_
      by_cases under : parent child = hole
      · rw [under, sunk] at at_above
        cases at_above
        exact past child low above positive inside under at_ covered
      · by_cases beside : parent child = parent hole
        · rw [beside, risen] at at_above
          cases at_above
          have later := ordered child low above positive same at_ (beside ▸ covered)
          exact Std.TransCmp.isLE_trans before later
        · rw [getElem?_swap_other under beside] at at_above
          exact ordered child low high positive same at_ at_above
  · intro child low high positive inner under at_ at_above
    have higher : parent (parent hole) < parent hole := parent_lt inner
    rw [getElem?_swap_other (by omega) (by omega)] at at_above
    have order := ordered (parent hole) above high inner (by omega) covered at_above
    by_cases same : child = hole
    · subst same
      rw [sunk] at at_
      cases at_
      exact order
    · have low_ : child ≠ parent hole := by
        have := parent_lt positive
        omega
      rw [getElem?_swap_other same low_] at at_
      exact Std.TransCmp.isLE_trans order (ordered child low above positive same at_ (under ▸ covered))

theorem siftUp_ordered [Std.TransCmp cmp] {heap : Array α} {hole : Nat}
    (ordered : OrderedOff cmp heap (· = hole)) (past : OrderedPast cmp heap hole) :
    OrderedHeap cmp (siftUp cmp heap hole) := by
  induction heap, hole using siftUp.induct cmp with
  | case1 heap hole inside node above covered here first ih =>
    obtain ⟨rest, higher⟩ := ordered.rise inside here covered (Ordering.isLT_iff_eq_lt.mp first) past
    rw [siftUp, dif_pos inside, here, covered]
    simp only [first, if_true]
    exact ih rest higher
  | case2 heap hole inside node above covered here late =>
    rw [siftUp, dif_pos inside, here, covered]
    simp only [late, if_false, Bool.false_eq_true]
    intro child low high positive _ at_ at_above
    by_cases same : child = hole
    · subst same
      rw [here] at at_
      rw [covered] at at_above
      cases at_; cases at_above
      exact isLE_of_not_lt late
    · exact ordered child low high positive same at_ at_above
  | case3 heap hole inside none =>
    -- A place outside the heap has nothing to be out of order with.
    rw [siftUp, dif_pos inside]
    split
    next node above here covered => exact (none node above here covered).elim
    · intro child low high positive _ at_ at_above
      by_cases same : child = hole
      · subst same
        exact (none low high at_ at_above).elim
      · exact ordered child low high positive same at_ at_above
  | case4 heap hole outside =>
    rw [siftUp, dif_neg outside]
    intro child low high positive _ at_ at_above
    exact ordered child low high positive (by omega) at_ at_above

theorem pushHeap_perm (heap : Array α) (node : α) :
    (pushHeap cmp heap node).toList.Perm (node :: heap.toList) := by
  apply (siftUp_perm _ _).trans
  rw [Array.toList_push]
  exact List.perm_append_singleton node heap.toList

theorem pushHeap_ordered [Std.TransCmp cmp] {heap : Array α} {node : α} (ordered : OrderedHeap cmp heap) :
    OrderedHeap cmp (pushHeap cmp heap node) := by
  have old {place : Nat} {held : α} (before : place ≠ heap.size)
      (at_ : (heap.push node)[place]? = some held) : heap[place]? = some held := by
    rwa [Array.getElem?_push, if_neg before] at at_
  apply siftUp_ordered
  · intro child low high positive other at_ at_above
    have inside := (Array.getElem?_eq_some_iff.mp (old other at_)).1
    have higher := parent_lt positive
    exact ordered child low high positive (by simp) (old other at_) (old (by omega) at_above)
  · -- The new place is the last one, and has no children.
    intro child low high positive _ under at_ _
    have inside := (Array.getElem?_eq_some_iff.mp at_).1
    rw [Array.size_push] at inside
    have higher := parent_lt positive
    omega

theorem siftDown_perm (heap : Array α) (idx : Nat) : (siftDown cmp heap idx).toList.Perm heap.toList := by
  induction heap, idx using siftDown.induct cmp with
  | case1 heap idx first moves ih =>
    rw [siftDown, dif_pos moves]
    exact ih.trans swapIfInBounds_perm
  | case2 heap idx first stays =>
    rw [siftDown, dif_neg stays]

theorem earlier_isLE [Std.TransCmp cmp] {heap : Array α} {first candidate : Nat} {picked : α}
    (at_ : heap[earlier cmp heap first candidate]? = some picked) :
    (∀ held, heap[first]? = some held → (cmp picked held).isLE) ∧
      (first < heap.size → ∀ node, heap[candidate]? = some node → (cmp picked node).isLE) := by
  have self {one other : α} (same : some one = some other) : (cmp one other).isLE := by
    cases same
    exact Std.ReflCmp.isLE_rfl
  rw [earlier] at at_
  split at at_
  next node held here there =>
    split at at_
    next before =>
      constructor
      · intro other at_other
        rw [here] at at_
        rw [there] at at_other
        cases at_; cases at_other
        exact Ordering.isLE_of_eq_lt (Ordering.isLT_iff_eq_lt.mp before)
      · exact fun _ other at_other => self (at_.symm.trans at_other)
    next late =>
      constructor
      · exact fun other at_other => self (at_.symm.trans at_other)
      · intro _ other at_other
        rw [there] at at_
        rw [here] at at_other
        cases at_; cases at_other
        exact isLE_of_not_lt late
  next missing =>
    constructor
    · exact fun other at_other => self (at_.symm.trans at_other)
    · intro inside other at_other
      exact (missing other _ at_other (Array.getElem?_eq_getElem inside)).elim

theorem firstOfThree_isLE [Std.TransCmp cmp] {heap : Array α} {idx : Nat} {picked held : α}
    (here : heap[idx]? = some held) (at_ : heap[firstOfThree cmp heap idx]? = some picked) :
    (cmp picked held).isLE ∧
      ∀ child node, 0 < child → parent child = idx → heap[child]? = some node → (cmp picked node).isLE := by
  have inside := (Array.getElem?_eq_some_iff.mp here).1
  have within : earlier cmp heap idx (2 * idx + 1) < heap.size := by
    rcases earlier_cases cmp heap idx (2 * idx + 1) with same | ⟨same, bound⟩
    · rw [same]; exact inside
    · rw [same]; exact bound
  have nearer := Array.getElem?_eq_getElem within
  obtain ⟨ofNearer, ofRight⟩ := earlier_isLE at_
  obtain ⟨ofHeld, ofLeft⟩ := earlier_isLE nearer
  have first := ofNearer _ nearer
  constructor
  · exact Std.TransCmp.isLE_trans first (ofHeld held here)
  · intro child node positive under at_child
    rcases (parent_eq_iff positive).mp under with rfl | rfl
    · exact Std.TransCmp.isLE_trans first (ofLeft inside node at_child)
    · exact ofRight within node at_child

theorem OrderedOff.sink [Std.TransCmp cmp] {heap : Array α} {hole : Nat} {held : α}
    (here : heap[hole]? = some held) (moves : firstOfThree cmp heap hole ≠ hole)
    (ordered : OrderedOff cmp heap fun child => parent child = hole) (past : OrderedPast cmp heap hole) :
    OrderedOff cmp (heap.swapIfInBounds hole (firstOfThree cmp heap hole))
        (fun child => parent child = firstOfThree cmp heap hole) ∧
      OrderedPast cmp (heap.swapIfInBounds hole (firstOfThree cmp heap hole)) (firstOfThree cmp heap hole) := by
  rcases firstOfThree_cases cmp heap hole with same | ⟨after, inside, under⟩
  · exact absurd same moves
  obtain ⟨picked, there⟩ : ∃ picked, heap[firstOfThree cmp heap hole]? = some picked :=
    ⟨_, Array.getElem?_eq_getElem inside⟩
  obtain ⟨beforeHeld, beforeChildren⟩ := firstOfThree_isLE here there
  generalize firstOfThree cmp heap hole = first at *
  have risen := getElem?_swap_left here there
  have sunk := getElem?_swap_right here there
  have positive : 0 < first := by omega
  constructor
  · intro child low high inner other at_ at_above
    by_cases below : parent child = hole
    · rw [below, risen] at at_above
      cases at_above
      by_cases same : child = first
      · subst same
        rw [sunk] at at_
        cases at_
        exact beforeHeld
      · have apart : child ≠ hole := by
          have := parent_lt inner
          omega
        rw [getElem?_swap_other apart same] at at_
        exact beforeChildren child _ inner below at_
    · rw [getElem?_swap_other below other] at at_above
      by_cases same : child = hole
      · subst same
        rw [risen] at at_
        cases at_
        exact past first _ high positive inner under there at_above
      · have apart : child ≠ first := by
          rintro rfl
          exact below under
        rw [getElem?_swap_other same apart] at at_
        exact ordered child low high inner below at_ at_above
  · intro child low high inner _ below at_ at_above
    have deeper := parent_lt inner
    rw [under, risen] at at_above
    rw [getElem?_swap_other (by omega) (by omega)] at at_
    cases at_above
    apply ordered child low _ inner (by omega) at_
    rw [below]
    exact there

theorem siftDown_ordered [Std.TransCmp cmp] {heap : Array α} {hole : Nat} (inside : hole < heap.size)
    (ordered : OrderedOff cmp heap fun child => parent child = hole) (past : OrderedPast cmp heap hole) :
    OrderedHeap cmp (siftDown cmp heap hole) := by
  have here := Array.getElem?_eq_getElem inside
  induction heap, hole using siftDown.induct cmp with
  | case1 heap hole first moves ih =>
    rw [siftDown, dif_pos moves]
    obtain ⟨rest, lower⟩ := OrderedOff.sink here moves ordered past
    rcases firstOfThree_cases cmp heap hole with same | ⟨_, bound, _⟩
    · exact absurd same moves
    have bound_ : first < (heap.swapIfInBounds hole first).size := by
      rw [Array.size_swapIfInBounds]
      exact bound
    exact ih bound_ rest lower (Array.getElem?_eq_getElem bound_)
  | case2 heap hole first stays =>
    rw [siftDown, dif_neg stays]
    intro child low high positive _ at_ at_above
    by_cases below : parent child = hole
    · -- The place is itself the first of the three.
      have same : firstOfThree cmp heap hole = hole := Decidable.not_not.mp stays
      have picked := firstOfThree_isLE here (by rw [same]; exact here)
      rw [below, here] at at_above
      cases at_above
      exact picked.2 child low positive below at_
    · exact ordered child low high positive below at_ at_above

theorem OrderedHeap.top_isLE [Std.TransCmp cmp] {heap : Array α} {top : α} (ordered : OrderedHeap cmp heap)
    (at_top : heap[0]? = some top) : ∀ node ∈ heap.toList, (cmp top node).isLE := by
  have below (place : Nat) (node : α) (at_ : heap[place]? = some node) : (cmp top node).isLE := by
    induction place using Nat.strongRecOn generalizing node with
    | ind place ih =>
      rcases Nat.eq_zero_or_pos place with rfl | positive
      · rw [at_top] at at_
        cases at_
        exact Std.ReflCmp.isLE_rfl
      · have higher := parent_lt positive
        have inside := (Array.getElem?_eq_some_iff.mp at_).1
        have above := Array.getElem?_eq_getElem (Nat.lt_trans higher inside)
        have order := ordered place node _ positive (by simp) at_ above
        exact Std.TransCmp.isLE_trans (ih (parent place) higher _ above) order
  intro node member
  obtain ⟨place, inside, rfl⟩ := List.getElem_of_mem member
  apply below place
  rw [Array.getElem_toList]
  exact Array.getElem?_eq_getElem inside

theorem OrderedHeap.replaceTop [Std.TransCmp cmp] {heap : Array α} (ordered : OrderedHeap cmp heap) (last : α) :
    OrderedOff cmp (heap.pop.setIfInBounds 0 last) (fun child => parent child = 0) ∧
      OrderedPast cmp (heap.pop.setIfInBounds 0 last) 0 := by
  have old {place : Nat} {held : α} (below : 0 < place)
      (at_ : (heap.pop.setIfInBounds 0 last)[place]? = some held) : heap[place]? = some held := by
    rw [Array.getElem?_setIfInBounds, if_neg (by omega), Array.getElem?_pop] at at_
    split at at_
    · exact at_
    · cases at_
  constructor
  · intro child low high positive other at_ at_above
    exact ordered child low high positive (by simp) (old positive at_) (old (by omega) at_above)
  · intro child low high _ inside
    exact absurd inside (Nat.lt_irrefl 0)

theorem popHeap_spec [Std.TransCmp cmp] {heap : Array α} (ordered : OrderedHeap cmp heap) :
    (popHeap cmp heap = none ∧ heap.toList = []) ∨
      ∃ top rest, popHeap cmp heap = some (top, rest) ∧ heap.toList.Perm (top :: rest.toList) ∧
        OrderedHeap cmp rest ∧ ∀ node ∈ rest.toList, (cmp top node).isLE := by
  rcases List.eq_nil_or_concat heap.toList with empty | ⟨init, last, same⟩
  · left
    have none : heap = #[] := Array.toList_eq_nil_iff.mp empty
    subst none
    exact ⟨rfl, rfl⟩
  · right
    rw [List.concat_eq_append] at same
    have whole : heap = init.toArray.push last := by
      apply Array.toList_inj.mp
      rw [same, Array.toList_push]
    cases init with
    | nil =>
      subst whole
      refine ⟨last, #[], rfl, .refl _, ?_, by simp⟩
      intro child low high _ _ at_
      cases at_
    | cons top init =>
      have at_top : heap[0]? = some top := by
        rw [whole]
        rfl
      have at_back : heap.back? = some last := by
        rw [whole, Array.back?_push]
      have popped : heap.pop = (top :: init).toArray := by
        rw [whole, Array.pop_push]
      have replaced : heap.pop.setIfInBounds 0 last = (last :: init).toArray := by
        rw [popped]
        rfl
      obtain ⟨off, past⟩ := ordered.replaceTop last
      have sunk := siftDown_ordered (by rw [replaced]; simp) off past
      rw [replaced] at sunk
      have kept : (siftDown cmp (last :: init).toArray 0).toList.Perm (last :: init) := siftDown_perm _ 0
      have split : heap.toList.Perm (top :: (last :: init)) := by
        rw [same]
        exact (List.perm_append_singleton last init).cons top
      refine ⟨top, siftDown cmp (last :: init).toArray 0, ?_, ?_, sunk, ?_⟩
      · rw [popHeap, at_top, at_back]
        simp only [replaced]
        rw [if_pos (by rw [popped]; simp)]
      · exact split.trans (kept.symm.cons top)
      · intro node member
        apply ordered.top_isLE at_top
        rw [split.mem_iff]
        exact List.mem_cons_of_mem top (kept.mem_iff.mp member)

end Narsil.Ranking
