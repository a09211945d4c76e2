import Mathlib.Algebra.Order.BigOperators.Group.List
import Mathlib.Algebra.Order.Field.Basic
import Mathlib.Data.List.Lex
import Mathlib.Data.Prod.Lex
import Mathlib.Tactic.Linarith
import Narsil.Allocator.Rebalance
import Narsil.Ordering.Utf8

/-!
# Weights that are numbers

In exact arithmetic every weight is a number where no node is without memory, or all of them
are, and then the candidates of a copy are put in a total order. One node without memory
beside others that have some is divided by.
-/
namespace Narsil.Allocator

/-- A node offers some number of bytes, perhaps none. -/
def HasCapacity (node : NodeRegistration Exact) : Prop := ∃ bytes : Rat, 0 ≤ bytes ∧ node.memoryBytes = .finite bytes

/-- What the allocator relies on: no divisor is zero, the weights and the loads are numbers, and
the order of the candidates is total. -/
structure WeightsAreNumbers (nodes : List (NodeRegistration Exact)) (assignments : Assignments) : Prop where
  capacities : ∀ node ∈ nodes, normalizedCapacity (averageCapacity nodes) node ≠ .finite 0
  shares : ∀ nodeId, shareOf nodeId (capacityShares nodes) ≠ (.finite 0 : Exact)
  weights : ∀ weight ∈ computeNodeWeights nodes assignments,
    Number.isFinite weight.weight = true ∧ Number.isFinite weight.primaryWeight = true
  loads : ∀ counts nodeId, Number.isFinite (loadOf nodeId counts (capacityShares nodes)) = true
  slots : ∀ nodeId, Number.isFinite (slotWeightOf nodeId (capacityShares nodes)) = true
  total : ∀ role a b, candidateOrder (computeNodeWeights nodes assignments) role a b = true ∨
    candidateOrder (computeNodeWeights nodes assignments) role b a = true
  transitive : ∀ role a b c, candidateOrder (computeNodeWeights nodes assignments) role a b = true →
    candidateOrder (computeNodeWeights nodes assignments) role b c = true →
    candidateOrder (computeNodeWeights nodes assignments) role a c = true
  antisymmetric : ∀ role a b, candidateOrder (computeNodeWeights nodes assignments) role a b = true →
    candidateOrder (computeNodeWeights nodes assignments) role b a = true → a = b

/-- The bytes of a capacity. -/
def amount : Exact → Rat
  | .finite value => value
  | _ => 0

theorem div_finite (dividend : Rat) {divisor : Rat} (nonzero : divisor ≠ 0) :
    Number.div (.finite dividend) (.finite divisor : Exact) = .finite (dividend / divisor) := if_neg nonzero

theorem HasCapacity.eq {node : NodeRegistration Exact} (capacity : HasCapacity node) :
    node.memoryBytes = .finite (amount node.memoryBytes) ∧ 0 ≤ amount node.memoryBytes := by
  obtain ⟨bytes, positive, eq⟩ := capacity
  rw [eq]
  exact ⟨rfl, positive⟩

theorem total_eq {nodes : List (NodeRegistration Exact)} (capacities : ∀ node ∈ nodes, HasCapacity node)
    (start : Rat) : nodes.foldl (fun total node => Number.add total node.memoryBytes) (.finite start) =
      .finite (start + (nodes.map fun node => amount node.memoryBytes).sum) := by
  induction nodes generalizing start with
  | nil => simp
  | cons node nodes ih =>
    obtain ⟨first, later⟩ := List.forall_mem_cons.mp capacities
    -- a sum of numbers is never infinite, so the running total stays a number
    have step : Number.add (.finite start) node.memoryBytes = Exact.finite (start + amount node.memoryBytes) := by
      rw [first.eq.1]
      rfl
    rw [List.foldl_cons, step, ih later, List.map_cons, List.sum_cons, add_assoc]

theorem averageCapacity_eq {nodes : List (NodeRegistration Exact)} (capacities : ∀ node ∈ nodes, HasCapacity node) :
    averageCapacity nodes = .finite ((nodes.map fun node => amount node.memoryBytes).sum / nodes.length) := by
  have total := total_eq capacities 0
  rw [zero_add] at total
  rw [averageCapacity]
  cases nodes with
  | nil => simp [Number.ofNat]
  | cons node nodes =>
    rw [if_pos (show (node :: nodes).length > 0 from Nat.zero_lt_succ _)]
    have size : ((node :: nodes).length : Rat) ≠ 0 := by
      rw [List.length_cons]
      positivity
    have average := congrArg (fun total => Number.div total (Number.ofNat (node :: nodes).length)) total
    exact average.trans (div_finite _ size)

/-- The average is above zero where some node has memory. -/
theorem average_pos_iff {nodes : List (NodeRegistration Exact)} (capacities : ∀ node ∈ nodes, HasCapacity node) :
    0 < (nodes.map fun node => amount node.memoryBytes).sum / (nodes.length : Rat) ↔
      ∃ node ∈ nodes, 0 < amount node.memoryBytes := by
  have amounts : ∀ bytes ∈ nodes.map fun node => amount node.memoryBytes, 0 ≤ bytes := by
    intro bytes isIn
    obtain ⟨node, listed, rfl⟩ := List.mem_map.mp isIn
    exact (capacities node listed).eq.2
  rcases eq_or_ne nodes [] with rfl | listed
  · simp
  · have length_pos : (0 : Rat) < nodes.length := by exact_mod_cast List.length_pos_iff.mpr listed
    rw [div_pos_iff_of_pos_right length_pos]
    constructor
    · intro positive
      exact List.exists_lt_of_sum_lt (fun _ => 0) _ (by simpa using positive)
    · rintro ⟨node, listed, some⟩
      exact some.trans_le (List.single_le_sum amounts _ (List.mem_map_of_mem listed))

/-- The node's divisor: its memory by the average, or 1 where no node has memory. -/
theorem normalizedCapacity_eq {nodes : List (NodeRegistration Exact)} (capacities : ∀ node ∈ nodes, HasCapacity node)
    {node : NodeRegistration Exact} (listed : node ∈ nodes) :
    ∃ divisor : Rat, normalizedCapacity (averageCapacity nodes) node = .finite divisor ∧
      (divisor = 0 ↔ (∃ other ∈ nodes, 0 < amount other.memoryBytes) ∧ amount node.memoryBytes = 0) := by
  rw [averageCapacity_eq capacities, ← average_pos_iff capacities]
  generalize (nodes.map fun node => amount node.memoryBytes).sum / (nodes.length : Rat) = average
  by_cases positive : 0 < average
  · refine ⟨amount node.memoryBytes / average, ?_, ?_⟩
    · have above : Number.less (Number.ofNat 0) (Exact.finite average) = true := decide_eq_true positive
      rw [normalizedCapacity, if_pos above, (capacities node listed).eq.1]
      exact div_finite _ positive.ne'
    · rw [div_eq_zero_iff, or_iff_left positive.ne', and_iff_right positive]
  · have below : ¬ Number.less (Number.ofNat 0) (Exact.finite average) = true := fun above =>
      positive (of_decide_eq_true above)
    -- without an average above zero the divisor is 1, for every node alike
    refine ⟨1, ?_, by simp [positive]⟩
    rw [normalizedCapacity, if_neg below]
    rfl

theorem isFinite_iff {number : Exact} : Number.isFinite number = true ↔ ∃ value, number = .finite value := by
  constructor
  · intro finite
    cases number with
    | finite value => exact ⟨value, rfl⟩
    | infinite positive => nomatch finite
    | undefined => nomatch finite
  · rintro ⟨value, rfl⟩
    rfl

theorem exists_of_lookup {α μ : Type} {key : α → NodeId} {value : α → μ} {items : List α} {nodeId : NodeId}
    {found : μ} (looked : Assoc.lookup
      (items.foldl (fun entries item => Assoc.set entries (key item) (value item)) []) nodeId = some found) :
    ∃ item ∈ items, found = value item := by
  have run : ∀ entries : List (NodeId × μ), ∀ entry ∈ items.foldl (fun entries item =>
      Assoc.set entries (key item) (value item)) entries, entry ∈ entries ∨ ∃ item ∈ items, entry.2 = value item := by
    clear looked
    induction items with
    | nil => exact fun _ _ isIn => Or.inl isIn
    | cons item items ih =>
      intro entries entry isIn
      rcases ih _ entry isIn with before | ⟨other, listed, eq⟩
      · rcases Assoc.mem_set before with rfl | old
        · exact Or.inr ⟨item, List.mem_cons_self, rfl⟩
        · exact Or.inl old
      · exact Or.inr ⟨other, List.mem_cons_of_mem _ listed, eq⟩
  rcases run [] _ (Assoc.mem_of_lookup looked) with none | some
  · nomatch none
  · exact some

/-- A load is divided by a share above zero, whatever the capacities. -/
theorem shareOf_eq {nodes : List (NodeRegistration Exact)} (capacities : ∀ node ∈ nodes, HasCapacity node)
    (nodeId : NodeId) : ∃ share : Rat, share ≠ 0 ∧ shareOf nodeId (capacityShares nodes) = .finite share := by
  rw [shareOf]
  split
  · exact ⟨1, one_ne_zero, rfl⟩
  next share looked =>
    obtain ⟨node, listed, rfl⟩ := exists_of_lookup looked
    obtain ⟨divisor, eq, -⟩ := normalizedCapacity_eq capacities listed
    rw [eq]
    split
    · exact ⟨1, one_ne_zero, rfl⟩
    next above =>
      refine ⟨divisor, ?_, rfl⟩
      rintro rfl
      exact above rfl

theorem weights_finite {nodes : List (NodeRegistration Exact)} {assignments : Assignments}
    (divisors : ∀ node ∈ nodes, ∃ divisor : Rat, divisor ≠ 0 ∧
      normalizedCapacity (averageCapacity nodes) node = .finite divisor) :
    ∀ weight ∈ computeNodeWeights nodes assignments,
      Number.isFinite weight.weight = true ∧ Number.isFinite weight.primaryWeight = true := by
  intro weight isIn
  obtain ⟨node, listed, rfl⟩ := List.mem_map.mp ((List.mem_insertionSort _).mp isIn)
  obtain ⟨divisor, nonzero, eq⟩ := divisors node listed
  rw [eq]
  exact ⟨isFinite_iff.mpr ⟨_, div_finite _ nonzero⟩, isFinite_iff.mpr ⟨_, div_finite _ nonzero⟩⟩

/-- What `findBestNode` reads of a candidate. -/
def readWeight {ν : Type} [Number ν] (weights : List (NodeWeight ν)) (field : NodeWeight ν → ν)
    (nodeId : NodeId) : ν :=
  match Assoc.lookup (weights.foldl (fun byId w => Assoc.set byId w.nodeId w) []) nodeId with
  | some w => field w
  | none => Number.ofNat 0

theorem readWeight_finite {weights : List (NodeWeight Exact)} {field : NodeWeight Exact → Exact}
    (numbers : ∀ weight ∈ weights, Number.isFinite (field weight) = true) (nodeId : NodeId) :
    ∃ value : Rat, readWeight weights field nodeId = .finite value := by
  rw [readWeight]
  split
  next weight looked =>
    obtain ⟨item, listed, rfl⟩ := exists_of_lookup looked
    exact isFinite_iff.mp (numbers _ listed)
  · exact ⟨0, rfl⟩

theorem char_scalar (character : Char) : Ordering.IsScalar character.toNat := by
  have valid := character.valid
  rw [UInt32.isValidChar, Nat.isValidChar] at valid
  have same : character.val.toNat = character.toNat := rfl
  unfold Ordering.IsScalar Ordering.IsSurrogate
  omega

theorem utf16Units_eq (id : NodeId) :
    utf16Units id = ((id.toList.map Char.toNat).flatMap Ordering.unitsOf).map UInt16.toNat := by
  rw [utf16Units, List.flatMap_map, List.map_flatMap]
  refine List.flatMap_congr fun character _ => ?_
  have bound := (char_scalar character).1
  rw [Ordering.unitsOf]
  split
  · rw [List.map_singleton, Ordering.toNat_toUInt16 (by omega)]
  · rw [List.map_cons, List.map_singleton, Ordering.toNat_toUInt16 (by omega), Ordering.toNat_toUInt16 (by omega)]

/-- Ids with the same units are the same. -/
theorem utf16Units_injective {a b : NodeId} (same : utf16Units a = utf16Units b) : a = b := by
  rw [utf16Units_eq, utf16Units_eq] at same
  have units := List.map_injective_iff.mpr (fun _ _ => UInt16.toNat_inj.mp) same
  have scalars (id : NodeId) : ∀ point ∈ id.toList.map Char.toNat, Ordering.IsScalar point := by
    intro point isIn
    obtain ⟨character, -, rfl⟩ := List.mem_map.mp isIn
    exact char_scalar character
  have points := congrArg Ordering.codePoints units
  rw [Ordering.codePoints_units (scalars a), Ordering.codePoints_units (scalars b)] at points
  exact String.toList_injective (List.map_injective_iff.mpr (fun _ _ => Char.toNat_inj.mp) points)

/-- Between numbers, a candidate is in front for its weights, and then for its id. -/
theorem candidateOrder_iff {weights : List (NodeWeight Exact)} (numbers : ∀ weight ∈ weights,
      Number.isFinite weight.weight = true ∧ Number.isFinite weight.primaryWeight = true) (role : CopyRole) :
    ∃ key : NodeId → Rat ×ₗ Rat, ∀ a b, candidateOrder weights role a b = true ↔
      toLex (key a, utf16Units a) ≤ toLex (key b, utf16Units b) := by
  choose primary primary_eq using
    @readWeight_finite weights (·.primaryWeight) fun weight isIn => (numbers weight isIn).2
  choose total total_eq using
    @readWeight_finite weights (·.weight) fun weight isIn => (numbers weight isIn).1
  refine ⟨fun nodeId => toLex (if role = .primary then primary nodeId else 0, total nodeId), ?_⟩
  intro a b
  have eq : candidateOrder weights role a b =
      if role = .primary && !Number.equal (Exact.finite (primary a)) (.finite (primary b)) then
        !Number.less (Exact.finite (primary b)) (.finite (primary a))
      else if !Number.equal (Exact.finite (total a)) (.finite (total b)) then
        !Number.less (Exact.finite (total b)) (.finite (total a))
      else !unitsBelow b a := by
    rw [← primary_eq a, ← primary_eq b, ← total_eq a, ← total_eq b]
    rfl
  have primary_less :
      Number.less (Exact.finite (primary b)) (.finite (primary a)) = decide (primary b < primary a) := rfl
  have total_less : Number.less (Exact.finite (total b)) (.finite (total a)) = decide (total b < total a) := rfl
  have primary_equal :
      Number.equal (Exact.finite (primary a)) (.finite (primary b)) = decide (primary a = primary b) := by
    simp [Number.equal]
  have total_equal : Number.equal (Exact.finite (total a)) (.finite (total b)) = decide (total a = total b) := by
    simp [Number.equal]
  rw [eq, primary_less, total_less, primary_equal, total_equal, unitsBelow, Prod.Lex.toLex_le_toLex,
    Prod.Lex.toLex_lt_toLex, toLex_inj, Prod.mk.injEq]
  -- each tie hands the decision to the next key, as the three returns of the comparison do
  by_cases leads : role = .primary
  · simp only [leads]
    by_cases same : primary a = primary b
    · by_cases even : total a = total b
      · simp [same, even]
      · simp [same, even, le_iff_lt_or_eq]
    · simp [same, le_iff_lt_or_eq]
  · by_cases even : total a = total b
    · simp [leads, even]
    · simp [leads, even, le_iff_lt_or_eq]

/-- A node is preferred where it is admitted and the other throttled, or else by its weights. -/
def Preferred (verdict : NodeId → DeciderVerdict) (order : NodeId → NodeId → Bool) (a b : NodeId) : Prop :=
  (verdict a = .yes ∧ verdict b = .throttle) ∨ (verdict a = verdict b ∧ order a b = true)

/-- The candidates that are not refused, the admitted ones first. -/
def admissible (verdict : NodeId → DeciderVerdict) (candidates : List NodeId) : List NodeId :=
  (candidates.filter fun id => verdict id = .yes) ++ candidates.filter fun id => verdict id = .throttle

theorem mem_admissible {verdict : NodeId → DeciderVerdict} {candidates : List NodeId} {id : NodeId} :
    id ∈ admissible verdict candidates ↔ id ∈ candidates ∧ verdict id ≠ .no := by
  rw [admissible]
  cases judged : verdict id <;> simp [judged]

theorem firstAdmitted_eq (verdict : NodeId → DeciderVerdict) (throttled : Option NodeId) (candidates : List NodeId) :
    firstAdmitted verdict throttled candidates =
      ((candidates.filter fun id => verdict id = .yes).head?.or throttled).or
        (candidates.filter fun id => verdict id = .throttle).head? := by
  induction candidates generalizing throttled with
  | nil => simp [firstAdmitted]
  | cons candidate rest ih =>
    rw [firstAdmitted]
    cases judged : verdict candidate with
    | yes => simp [judged]
    | no => simp [judged, ih]
    | throttle => cases throttled <;> simp [judged, ih]

theorem head_iff {α : Type} {order : α → α → Prop} (reflexive : ∀ a, order a a)
    (antisymmetric : ∀ a b, order a b → order b a → a = b) {sorted : List α} (ordered : sorted.Pairwise order) {a : α} :
    sorted.head? = some a ↔ a ∈ sorted ∧ ∀ b ∈ sorted, order a b := by
  cases sorted with
  | nil => simp
  | cons first rest =>
    have front := (List.pairwise_cons.mp ordered).1
    rw [List.head?_cons, Option.some.injEq]
    constructor
    · rintro rfl
      exact ⟨List.mem_cons_self, List.forall_mem_cons.mpr ⟨reflexive first, front⟩⟩
    · rintro ⟨isIn, least⟩
      rcases List.mem_cons.mp isIn with rfl | later
      · rfl
      · exact antisymmetric first a (front a later) (least first List.mem_cons_self)

/-- The node of a copy is the one preferred to all that are not refused, however the candidates
are listed; there is none only where every one is refused. -/
theorem findBestNode_preferred (candidates : List NodeId) (weights : List (NodeWeight Exact))
    (deciders : List (Decider Exact)) (context : DeciderContext Exact) (numbers : ∀ weight ∈ weights,
      Number.isFinite weight.weight = true ∧ Number.isFinite weight.primaryWeight = true) :
    (∀ chosen, findBestNode candidates weights deciders context = some chosen ↔
      (chosen ∈ candidates ∧ runAllDeciders deciders context chosen ≠ .no) ∧
        ∀ other, other ∈ candidates ∧ runAllDeciders deciders context other ≠ .no →
          Preferred (runAllDeciders deciders context) (candidateOrder weights context.role) chosen other) ∧
    (findBestNode candidates weights deciders context = none ↔
      ∀ id ∈ candidates, runAllDeciders deciders context id = .no) := by
  obtain ⟨key, order_iff⟩ := candidateOrder_iff numbers context.role
  let order (a b : NodeId) : Prop := candidateOrder weights context.role a b = true
  have transitive : IsTrans NodeId order := ⟨fun a b c => by simp only [order, order_iff]; exact le_trans⟩
  have total : Std.Total order := ⟨fun a b => by simp only [order, order_iff]; exact le_total _ _⟩
  have ordered := List.pairwise_insertionSort order candidates
  have members (id : NodeId) := @List.mem_insertionSort _ order _ candidates id
  rw [findBestNode, firstAdmitted_eq, Option.or_none, ← List.head?_append, ← admissible]
  generalize candidates.insertionSort order = sorted at ordered members
  generalize runAllDeciders deciders context = verdict
  have ranked : (admissible verdict sorted).Pairwise (Preferred verdict (candidateOrder weights context.role)) := by
    have among (judgement : DeciderVerdict) : (sorted.filter fun id => verdict id = judgement).Pairwise
        (Preferred verdict (candidateOrder weights context.role)) := by
      refine List.pairwise_filter.mpr (ordered.imp ?_)
      intro a b front judgedA judgedB
      simp only [decide_eq_true_eq] at judgedA judgedB
      exact .inr ⟨judgedA.trans judgedB.symm, front⟩
    refine List.pairwise_append.mpr ⟨among .yes, among .throttle, ?_⟩
    intro a admitted b throttled
    simp only [List.mem_filter, decide_eq_true_eq] at admitted throttled
    exact .inl ⟨admitted.2, throttled.2⟩
  have antisymmetric : ∀ a b, Preferred verdict (candidateOrder weights context.role) a b →
      Preferred verdict (candidateOrder weights context.role) b a → a = b := by
    rintro a b (⟨yes, throttle⟩ | ⟨even, front⟩) (⟨yes', throttle'⟩ | ⟨even', back⟩)
    · simp [yes] at throttle'
    · simp [yes, throttle] at even'
    · simp [yes', throttle'] at even
    · -- Neither goes in front of the other, so their ids have the same units.
      have units := le_antisymm ((order_iff a b).mp front) ((order_iff b a).mp back)
      rw [toLex_inj, Prod.mk.injEq] at units
      exact utf16Units_injective units.2
  constructor
  · intro chosen
    have first := @head_iff _ _ (fun id => .inr ⟨rfl, (order_iff id id).mpr le_rfl⟩) antisymmetric _ ranked chosen
    simpa only [mem_admissible, members] using first
  · rw [List.head?_eq_none_iff, List.eq_nil_iff_forall_not_mem]
    simp only [mem_admissible, members, not_and, not_not]

private def weighedNode (nodeId : NodeId) (bytes : Nat) : NodeRegistration Exact where
  nodeId := nodeId
  roles := [.data]
  memoryBytes := .finite bytes
  memoryFull := false
  metadata := []
  partitionBytes := []
  draining := false

private theorem weighedNode_capacity (nodeId : NodeId) (bytes : Nat) : HasCapacity (weighedNode nodeId bytes) :=
  ⟨bytes, Nat.cast_nonneg _, rfl⟩

theorem findBestNode_preferred_lighter :
    findBestNode ["b", "a"] [⟨"a", Exact.finite 1, .finite 0⟩, ⟨"b", .finite 3, .finite 0⟩] []
      ⟨0, .replica, none, [], [], []⟩ = some "a" := by
  have order : ∀ other ∈ ["b", "a"], candidateOrder
      [⟨"a", Exact.finite 1, .finite 0⟩, ⟨"b", .finite 3, .finite 0⟩] .replica "a" other = true := by decide +kernel
  refine ((findBestNode_preferred _ _ _ _ ?_).1 "a").mpr ⟨⟨by simp, by decide⟩, ?_⟩
  · simp [Number.isFinite]
  · exact fun other listed => .inr ⟨rfl, order other listed.1⟩

end Narsil.Allocator
