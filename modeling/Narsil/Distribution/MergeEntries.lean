import Narsil.Ordering.SortValues
import Narsil.Ranking.BinaryHeap
import Narsil.Ranking.Merging

/-!
# Merging the entries of several nodes

Every node answers a list of entries in rank order. One list is cut as it is, a few are
merged two at a time, and many through a heap of the next entry of each.
-/
namespace Narsil.Distribution
open Narsil.Ordering Narsil.Ranking

structure ScoredEntry where
  docId : JsString
  score : Option ℚ
  sortValues : Option (List RawValue)
  deriving DecidableEq, Repr

/-- Scores, the highest first; no score counts as the lowest. -/
def compareScores : Option ℚ → Option ℚ → Ordering
  | none, none => .eq
  | none, some _ => .gt
  | some _, none => .lt
  | some first, some second => compare second first

def compareByScoreThenId (a b : ScoredEntry) : Ordering :=
  (compareScores a.score b.score).then (compareCodePoints a.docId b.docId)

def bySortValues (table : FoldTable) (directions : List SortDirection) (a b : ScoredEntry) : Ordering :=
  (compareSortValues table (a.sortValues.getD []) (b.sortValues.getD []) directions).then
    (compareCodePoints a.docId b.docId)

section Merge
variable (compare : ScoredEntry → ScoredEntry → Ordering)

def mergeTwoSortedScoredEntries : List ScoredEntry → List ScoredEntry → List ScoredEntry
  | [], b => b
  | a, [] => a
  | x :: a, y :: b =>
    if (compare x y).isLE then x :: mergeTwoSortedScoredEntries a (y :: b)
    else y :: mergeTwoSortedScoredEntries (x :: a) b

def sequentialMergeScoredEntries (arrays : List (List ScoredEntry)) (limit : Nat) : List ScoredEntry :=
  match arrays with
  | [] => []
  | first :: arrays => (arrays.foldl (mergeTwoSortedScoredEntries compare) first).take limit

structure ScoredHeapNode where
  entry : ScoredEntry
  sourceIdx : Nat
  resultIdx : Nat
  deriving DecidableEq, Repr

def nodeOrder (a b : ScoredHeapNode) : Ordering := compare a.entry b.entry

/-- The next entry of the list of a node, if it has one, into the heap. -/
def pushNext (arrays : List (List ScoredEntry)) (heap : Array ScoredHeapNode) (sourceIdx resultIdx : Nat) :
    Array ScoredHeapNode :=
  match arrays[sourceIdx]?.bind (·[resultIdx]?) with
  | some entry => pushHeap (nodeOrder compare) heap ⟨entry, sourceIdx, resultIdx⟩
  | none => heap

/-- `room` is how many entries the result has yet to hold. -/
def drainHeap (arrays : List (List ScoredEntry)) : Nat → Array ScoredHeapNode → List ScoredEntry
  | 0, _ => []
  | room + 1, heap =>
    match popHeap (nodeOrder compare) heap with
    | none => []
    | some (top, rest) =>
      top.entry :: drainHeap arrays room (pushNext compare arrays rest top.sourceIdx (top.resultIdx + 1))

def heapMergeScoredEntries (arrays : List (List ScoredEntry)) (limit : Nat) : List ScoredEntry :=
  drainHeap compare arrays limit
    ((List.range arrays.length).foldl (fun heap i => pushNext compare arrays heap i 0) #[])

def mergeAndTruncate (arrays : List (List ScoredEntry)) (limit : Nat) : List ScoredEntry :=
  let nonEmpty := arrays.filter fun a => 0 < a.length
  match nonEmpty with
  | [] => []
  | [only] => only.take limit
  | _ =>
    if nonEmpty.length ≤ 4 then sequentialMergeScoredEntries compare nonEmpty limit
    else heapMergeScoredEntries compare nonEmpty limit

end Merge

def mergeAndTruncateScoredEntries (arrays : List (List ScoredEntry)) (limit : Nat) : List ScoredEntry :=
  mergeAndTruncate compareByScoreThenId arrays limit

def mergeAndTruncateSortedEntries (table : FoldTable) (arrays : List (List ScoredEntry)) (limit : Nat)
    (directions : List SortDirection) : List ScoredEntry :=
  mergeAndTruncate (bySortValues table directions) arrays limit

instance : Std.TransCmp compareScores where
  eq_swap {first second} := by
    cases first <;> cases second <;> try rfl
    next first second => exact (Std.OrientedCmp.eq_swap : compare second first = _)
  isLE_trans {first second third} before later := by
    cases first <;> cases second <;> cases third <;> first | rfl | contradiction | skip
    next first second third =>
      have lower : (compare third second).isLE := later
      have higher : (compare second first).isLE := before
      exact (Std.TransCmp.isLE_trans lower higher : (compare third first).isLE)

instance : Std.TransCmp compareByScoreThenId := by
  have byScore : Std.TransCmp fun a b : ScoredEntry => compareScores a.score b.score :=
    transCmp_on compareScores ScoredEntry.score
  have byId : Std.TransCmp fun a b : ScoredEntry => compareCodePoints a.docId b.docId :=
    transCmp_on compareCodePoints ScoredEntry.docId
  exact inferInstanceAs (Std.TransCmp (compareLex _ _))

instance (table : FoldTable) (directions : List SortDirection) : Std.TransCmp (bySortValues table directions) := by
  have byKey : Std.TransCmp fun a b : ScoredEntry =>
      compareSortValues table (a.sortValues.getD []) (b.sortValues.getD []) directions :=
    transCmp_on (fun left right => compareSortValues table left right directions)
      fun entry : ScoredEntry => entry.sortValues.getD []
  have byId : Std.TransCmp fun a b : ScoredEntry => compareCodePoints a.docId b.docId :=
    transCmp_on compareCodePoints ScoredEntry.docId
  exact inferInstanceAs (Std.TransCmp (compareLex _ _))

/-- An order that separates any two entries whose ids differ. -/
def TiesById (compare : ScoredEntry → ScoredEntry → Ordering) : Prop :=
  ∀ a b, compare a b = .eq → a.docId = b.docId

theorem compareByScoreThenId_ties : TiesById compareByScoreThenId := by
  intro a b equal
  exact Std.LawfulEqCmp.eq_of_compare (Ordering.then_eq_eq.mp equal).2

theorem bySortValues_ties (table : FoldTable) (directions : List SortDirection) :
    TiesById (bySortValues table directions) := by
  intro a b equal
  exact Std.LawfulEqCmp.eq_of_compare (Ordering.then_eq_eq.mp equal).2

theorem TiesById.distinct {compare : ScoredEntry → ScoredEntry → Ordering} (ties : TiesById compare)
    {entries : List ScoredEntry} (once : (entries.map ScoredEntry.docId).Nodup) : Distinct compare entries := by
  apply List.Pairwise.imp _ (List.pairwise_map.mp once)
  intro a b apart equal
  exact apart (ties a b equal)

section Merges
variable {compare : ScoredEntry → ScoredEntry → Ordering} {arrays : List (List ScoredEntry)}
  {entries out : List ScoredEntry}

theorem mergeTwoSortedScoredEntries_eq (a b : List ScoredEntry) :
    mergeTwoSortedScoredEntries compare a b = a.merge b fun x y => (compare x y).isLE := by
  fun_induction mergeTwoSortedScoredEntries compare a b with
  | case1 b => rw [List.nil_merge]
  | case2 a => rw [List.merge_right]
  | case3 x a y b before ih => rw [List.cons_merge_cons_pos _ _ _ before, ih]
  | case4 x a y b after ih => rw [List.cons_merge_cons_neg _ _ _ after, ih]

theorem sequentialMergeScoredEntries_eq (arrays : List (List ScoredEntry)) (limit : Nat) :
    sequentialMergeScoredEntries compare arrays limit = (mergeInTurn compare arrays).take limit := by
  have step : mergeTwoSortedScoredEntries compare = fun a b => a.merge b fun x y => (compare x y).isLE := by
    funext a b
    exact mergeTwoSortedScoredEntries_eq a b
  cases arrays with
  | nil => simp [sequentialMergeScoredEntries, mergeInTurn]
  | cons first arrays => rw [sequentialMergeScoredEntries, mergeInTurn, step]

instance [Std.TransCmp compare] : Std.TransCmp (nodeOrder compare) := transCmp_on compare ScoredHeapNode.entry

/-- What is left of the list a node stands for, its entry first. -/
def restOf (arrays : List (List ScoredEntry)) (node : ScoredHeapNode) : List ScoredEntry :=
  (arrays[node.sourceIdx]?.getD []).drop node.resultIdx

/-- The node holds the entry of its place. -/
def Points (arrays : List (List ScoredEntry)) (node : ScoredHeapNode) : Prop :=
  arrays[node.sourceIdx]?.bind (·[node.resultIdx]?) = some node.entry

theorem Points.restOf_eq {node : ScoredHeapNode} (points : Points arrays node) :
    restOf arrays node =
      node.entry :: (arrays[node.sourceIdx]?.getD []).drop (node.resultIdx + 1) := by
  obtain ⟨list, at_, there⟩ := Option.bind_eq_some_iff.mp points
  obtain ⟨inside, same⟩ := List.getElem?_eq_some_iff.mp there
  rw [restOf, at_, Option.getD_some, List.drop_eq_getElem_cons inside, same]

/-- A heap over lists: in order, each node at its place. -/
structure HeapOver (compare : ScoredEntry → ScoredEntry → Ordering) (arrays : List (List ScoredEntry))
    (heap : Array ScoredHeapNode) : Prop where
  ordered : OrderedHeap (nodeOrder compare) heap
  points : ∀ node ∈ heap.toList, Points arrays node

/-- The lists a heap has yet to merge. -/
def pendingOf (arrays : List (List ScoredEntry)) (heap : Array ScoredHeapNode) : List (List ScoredEntry) :=
  heap.toList.map (restOf arrays)

variable [Std.TransCmp compare]

theorem HeapOver.pushNext {heap : Array ScoredHeapNode} (heaped : HeapOver compare arrays heap)
    (sourceIdx resultIdx : Nat) :
    HeapOver compare arrays (pushNext compare arrays heap sourceIdx resultIdx) := by
  rw [Distribution.pushNext]
  split
  next entry at_ =>
    constructor
    · exact pushHeap_ordered heaped.ordered
    · intro node member
      rcases List.mem_cons.mp ((pushHeap_perm heap _).mem_iff.mp member) with rfl | old
      · exact at_
      · exact heaped.points node old
  next none => exact heaped

omit [Std.TransCmp compare] in
theorem merges_pushNext {heap : Array ScoredHeapNode} {sourceIdx resultIdx : Nat}
    (others : List (List ScoredEntry))
    (merges : Merges compare
      ((arrays[sourceIdx]?.getD []).drop resultIdx :: (others ++ pendingOf arrays heap)) out) :
    Merges compare (others ++ pendingOf arrays (pushNext compare arrays heap sourceIdx resultIdx)) out := by
  rw [pushNext]
  split
  next entry at_ =>
    have pushed : (pendingOf arrays (pushHeap (nodeOrder compare) heap ⟨entry, sourceIdx, resultIdx⟩)).Perm
        ((arrays[sourceIdx]?.getD []).drop resultIdx :: pendingOf arrays heap) :=
      (pushHeap_perm heap _).map (restOf arrays)
    apply merges.of_perm
    exact List.perm_middle.symm.trans (pushed.symm.append_left others)
  next none =>
    have used : (arrays[sourceIdx]?.getD []).drop resultIdx = [] := by
      cases listed : arrays[sourceIdx]? with
      | none => simp
      | some list =>
        rw [listed, Option.bind_some, List.getElem?_eq_none_iff] at none
        exact List.drop_eq_nil_of_le none
    rw [used] at merges
    exact merges.skip (.refl _)

theorem drainHeap_eq (room : Nat) {heap : Array ScoredHeapNode} (heaped : HeapOver compare arrays heap)
    (merges : Merges compare (pendingOf arrays heap) out) (distinct : Distinct compare out) :
    drainHeap compare arrays room heap = out.take room := by
  induction room generalizing heap out with
  | zero => simp [drainHeap]
  | succ room ih =>
    rw [drainHeap]
    rcases popHeap_spec heaped.ordered with ⟨none, empty⟩ | ⟨top, rest, popped, split, ordered, first⟩
    · have nothing := merges.perm
      rw [pendingOf, empty] at nothing
      rw [none, List.Perm.eq_nil nothing]
      rfl
    · have overRest : HeapOver compare arrays rest :=
        ⟨ordered, fun node member => heaped.points node (split.mem_iff.mpr (List.mem_cons_of_mem _ member))⟩
      have points := heaped.points top (split.mem_iff.mpr List.mem_cons_self)
      have pending : (pendingOf arrays heap).Perm (restOf arrays top :: pendingOf arrays rest) :=
        split.map (restOf arrays)
      rw [points.restOf_eq] at pending
      -- No entry equals another in rank, so the top comes strictly first.
      have before : ∀ list ∈ pendingOf arrays rest, ∀ other ∈ list.head?, compare top.entry other = .lt := by
        intro list member other head
        obtain ⟨node, among, rfl⟩ := List.mem_map.mp member
        rw [(overRest.points node among).restOf_eq] at head
        cases head
        have all := distinct.of_perm (merges.perm.trans pending.flatten)
        have unequal : compare top.entry node.entry ≠ .eq := by
          apply (List.pairwise_append.mp all).2.2 top.entry (by simp)
          apply List.mem_flatten.mpr
          refine ⟨_, member, ?_⟩
          rw [(overRest.points node among).restOf_eq]
          exact List.mem_cons_self
        rcases Ordering.isLE_iff_eq_lt_or_eq_eq.mp (first node among) with strict | same
        · exact strict
        · exact absurd same unequal
      obtain ⟨later, rfl, mergesLater⟩ := merges.uncons pending before
      have rest_ := ih (overRest.pushNext top.sourceIdx (top.resultIdx + 1)) (merges_pushNext [] mergesLater)
        (List.pairwise_cons.mp distinct).2
      simp only [popped, List.take_succ_cons, rest_]

theorem merges_startHeap (places : List Nat) {heap : Array ScoredHeapNode} (heaped : HeapOver compare arrays heap)
    (merges : Merges compare ((places.map fun i => arrays[i]?.getD []) ++ pendingOf arrays heap) out) :
    HeapOver compare arrays (places.foldl (fun heap i => pushNext compare arrays heap i 0) heap) ∧
      Merges compare (pendingOf arrays (places.foldl (fun heap i => pushNext compare arrays heap i 0) heap)) out := by
  induction places generalizing heap with
  | nil => exact ⟨heaped, merges⟩
  | cons place places ih => exact ih (heaped.pushNext place 0) (merges_pushNext _ merges)

theorem heapMergeScoredEntries_eq (limit : Nat) (merges : Merges compare arrays out)
    (distinct : Distinct compare out) : heapMergeScoredEntries compare arrays limit = out.take limit := by
  have listed : (List.range arrays.length).map (fun i => arrays[i]?.getD []) = arrays := by
    apply List.ext_getElem
    · simp
    · intro place inside inside'
      simp [inside']
  have start : HeapOver compare arrays #[] := by
    constructor
    · intro child node above _ _ at_
      cases at_
    · simp
  have all : Merges compare ((List.range arrays.length).map (fun i => arrays[i]?.getD []) ++ pendingOf arrays #[]) out := by
    rw [listed]
    exact merges.of_perm (by simp [pendingOf])
  obtain ⟨heaped, pending⟩ := merges_startHeap (List.range arrays.length) start all
  exact drainHeap_eq limit heaped pending distinct

theorem sequentialMerge_eq_heapMerge (distinct : Distinct compare arrays.flatten) (limit : Nat) :
    sequentialMergeScoredEntries compare arrays limit = heapMergeScoredEntries compare arrays limit := by
  have merges := mergeInTurn_merges distinct
  rw [sequentialMergeScoredEntries_eq,
    heapMergeScoredEntries_eq limit merges (distinct.of_perm merges.perm.symm)]

theorem flatten_nonEmpty (arrays : List (List ScoredEntry)) :
    (arrays.filter fun a => 0 < a.length).flatten = arrays.flatten := by
  induction arrays with
  | nil => rfl
  | cons a arrays ih => cases a <;> simp [ih]

theorem mergeAndTruncate_eq (distinct : Distinct compare arrays.flatten) (limit : Nat) :
    mergeAndTruncate compare arrays limit = (mergeInTurn compare (arrays.filter fun a => 0 < a.length)).take limit := by
  rw [← flatten_nonEmpty arrays] at distinct
  rw [mergeAndTruncate]
  generalize (arrays.filter fun a => 0 < a.length) = nonEmpty at distinct
  split
  · simp [mergeInTurn]
  · rfl
  · split
    · exact sequentialMergeScoredEntries_eq nonEmpty limit
    · rw [← sequentialMerge_eq_heapMerge distinct, sequentialMergeScoredEntries_eq]

theorem mergeAndTruncate_ranked (distinct : Distinct compare arrays.flatten)
    (ranked : ∀ a ∈ arrays, Ranked compare a) (limit : Nat) :
    mergeAndTruncate compare arrays limit = (sorted compare arrays.flatten).take limit := by
  rw [mergeAndTruncate_eq distinct]
  rw [← flatten_nonEmpty arrays] at distinct ⊢
  rw [(mergeInTurn_merges distinct).eq_sorted]
  intro a member
  exact ranked a (List.mem_filter.mp member).1

end Merges

end Narsil.Distribution
