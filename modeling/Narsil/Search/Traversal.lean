import Mathlib.Data.Finset.Card

/-!
# Traversing a graph

A depth-first search from some roots, over a stack and a set of the nodes seen.
It stops at the first node it is looking for; when there is none, what it has
visited is what the roots reach.
-/
namespace Search

variable {α : Type} [DecidableEq α]

/-- The nodes seen, and those of them still to visit, the next one first. -/
structure Frontier (α : Type) where
  seen : List α
  stack : List α

def Frontier.push (frontier : Frontier α) (node : α) : Frontier α :=
  if node ∈ frontier.seen then frontier else ⟨node :: frontier.seen, node :: frontier.stack⟩

def Frontier.pushAll (frontier : Frontier α) (nodes : List α) : Frontier α :=
  nodes.foldl Frontier.push frontier

/-- Visit what is on the stack; nothing is returned when a node stops the search. -/
def drain (next : α → List α) (stops : α → Bool) :
    Nat → Frontier α → List α → Option (List α)
  | 0, _, visited => some visited
  | fuel + 1, frontier, visited =>
    match frontier.stack with
    | [] => some visited
    | node :: rest =>
      if stops node then none
      else
        drain next stops fuel (Frontier.pushAll ⟨frontier.seen, rest⟩ (next node))
          (visited ++ [node])

/-- A path of edges leads to the node from one of the roots. -/
def Reachable {α : Type} (next : α → List α) (roots : List α) (node : α) : Prop :=
  ∃ root ∈ roots, Relation.ReflTransGen (fun from_ to_ => to_ ∈ next from_) root node

section Reaching
variable {α : Type} {next : α → List α} {roots : List α} {node : α}

theorem Reachable.root (h : node ∈ roots) : Reachable next roots node :=
  ⟨node, h, Relation.ReflTransGen.refl⟩

theorem Reachable.step {later : α} (h : Reachable next roots node) (edge : later ∈ next node) :
    Reachable next roots later := by
  obtain ⟨root, is_root, path⟩ := h
  exact ⟨root, is_root, path.tail edge⟩

theorem Reachable.induct {P : α → Prop} (h : Reachable next roots node)
    (base : ∀ root ∈ roots, P root) (along : ∀ n, P n → ∀ later ∈ next n, P later) : P node := by
  obtain ⟨root, is_root, path⟩ := h
  induction path with
  | refl => exact base root is_root
  | tail _ edge ih => exact along _ ih _ edge

end Reaching

@[simp] theorem mem_seen_push (frontier : Frontier α) (node other : α) :
    other ∈ (frontier.push node).seen ↔ other ∈ frontier.seen ∨ other = node := by
  unfold Frontier.push
  split
  · next known =>
    constructor
    · exact Or.inl
    · rintro (old | rfl)
      · exact old
      · exact known
  · rw [List.mem_cons]
    exact or_comm

@[simp] theorem mem_seen_pushAll (nodes : List α) (frontier : Frontier α) (other : α) :
    other ∈ (frontier.pushAll nodes).seen ↔ other ∈ frontier.seen ∨ other ∈ nodes := by
  induction nodes generalizing frontier with
  | nil => simp [Frontier.pushAll]
  | cons node rest ih =>
    rw [Frontier.pushAll, List.foldl_cons, ← Frontier.pushAll, ih, mem_seen_push, List.mem_cons]
    exact or_assoc

theorem mem_stack_push {frontier : Frontier α} {node other : α} :
    other ∈ (frontier.push node).stack ↔
      other ∈ frontier.stack ∨ (other = node ∧ node ∉ frontier.seen) := by
  unfold Frontier.push
  split
  · next known => simp [known]
  · next fresh =>
    rw [List.mem_cons]
    simp only [fresh, not_false_eq_true, and_true]
    exact or_comm

theorem mem_stack_pushAll {nodes : List α} {frontier : Frontier α} {other : α} :
    other ∈ (frontier.pushAll nodes).stack ↔
      other ∈ frontier.stack ∨ (other ∈ nodes ∧ other ∉ frontier.seen) := by
  induction nodes generalizing frontier with
  | nil => simp [Frontier.pushAll]
  | cons node rest ih =>
    rw [Frontier.pushAll, List.foldl_cons, ← Frontier.pushAll, ih, mem_stack_push, mem_seen_push,
      List.mem_cons]
    by_cases same : other = node
    · subst same
      by_cases known : other ∈ frontier.seen <;> simp [known]
    · simp [same]

/-- The nodes of a set not seen yet, and those waiting. -/
def Frontier.left (frontier : Frontier α) (nodes : Finset α) : Nat :=
  (nodes.filter fun node => node ∉ frontier.seen).card + frontier.stack.length

theorem left_push_le {frontier : Frontier α} {nodes : Finset α} {node : α}
    (inside : node ∈ nodes) : (frontier.push node).left nodes ≤ frontier.left nodes := by
  unfold Frontier.push
  split
  · exact Nat.le_refl _
  · next fresh =>
    have fewer : (nodes.filter fun other => other ∉ node :: frontier.seen).card <
        (nodes.filter fun other => other ∉ frontier.seen).card := by
      apply Finset.card_lt_card
      constructor
      · intro other member
        rw [Finset.mem_filter] at member ⊢
        exact ⟨member.1, fun old => member.2 (List.mem_cons_of_mem _ old)⟩
      · intro all
        have member := all (Finset.mem_filter.mpr ⟨inside, fresh⟩)
        exact (Finset.mem_filter.mp member).2 List.mem_cons_self
    simp only [Frontier.left, List.length_cons]
    omega

theorem left_pushAll_le {nodes : Finset α} {added : List α} (inside : ∀ node ∈ added, node ∈ nodes)
    (frontier : Frontier α) : (frontier.pushAll added).left nodes ≤ frontier.left nodes := by
  induction added generalizing frontier with
  | nil => exact Nat.le_refl _
  | cons node rest ih =>
    rw [Frontier.pushAll, List.foldl_cons, ← Frontier.pushAll]
    have later := ih (fun other member => inside other (by simp [member])) (frontier.push node)
    exact Nat.le_trans later (left_push_le (inside node (by simp)))

/-- What holds between two visits. -/
structure Draining (next : α → List α) (stops : α → Bool) (roots : List α)
    (frontier : Frontier α) (visited : List α) : Prop where
  reached : ∀ node ∈ frontier.seen, Reachable next roots node
  roots_seen : ∀ root ∈ roots, root ∈ frontier.seen
  stack_seen : ∀ node ∈ frontier.stack, node ∈ frontier.seen
  accounted : ∀ node ∈ frontier.seen, node ∈ frontier.stack ∨ node ∈ visited
  visited_seen : ∀ node ∈ visited, node ∈ frontier.seen
  spread : ∀ node ∈ visited, stops node = false ∧ ∀ later ∈ next node, later ∈ frontier.seen

variable {next : α → List α} {stops : α → Bool} {roots : List α}

theorem Draining.start (next : α → List α) (stops : α → Bool) (roots : List α) :
    Draining next stops roots (Frontier.pushAll ⟨[], []⟩ roots) [] where
  reached node member := Reachable.root (by simpa using member)
  roots_seen root is_root := by simpa using is_root
  stack_seen node member := by
    rw [mem_stack_pushAll] at member
    simpa using member
  accounted node member := by
    rw [mem_stack_pushAll]
    left
    simpa using member
  visited_seen node member := absurd member List.not_mem_nil
  spread node member := absurd member List.not_mem_nil

theorem Draining.visit {frontier : Frontier α} {visited : List α} {node : α} {rest : List α}
    (h : Draining next stops roots frontier visited) (top : frontier.stack = node :: rest)
    (passes : stops node = false) :
    Draining next stops roots (Frontier.pushAll ⟨frontier.seen, rest⟩ (next node))
      (visited ++ [node]) := by
  have node_seen : node ∈ frontier.seen := h.stack_seen node (by simp [top])
  constructor
  · intro other member
    rw [mem_seen_pushAll] at member
    rcases member with old | edge
    · exact h.reached other old
    · exact (h.reached node node_seen).step edge
  · intro root is_root
    rw [mem_seen_pushAll]
    exact Or.inl (h.roots_seen root is_root)
  · intro other member
    rw [mem_stack_pushAll] at member
    rw [mem_seen_pushAll]
    rcases member with old | ⟨edge, _⟩
    · exact Or.inl (h.stack_seen other (by simp [top, old]))
    · exact Or.inr edge
  · intro other member
    rw [mem_seen_pushAll] at member
    rw [mem_stack_pushAll, List.mem_append, List.mem_singleton]
    by_cases known : other ∈ frontier.seen
    · rcases h.accounted other known with waiting | gone
      · rw [top] at waiting
        rcases List.mem_cons.mp waiting with same | waiting
        · exact Or.inr (Or.inr same)
        · exact Or.inl (Or.inl waiting)
      · exact Or.inr (Or.inl gone)
    · exact Or.inl (Or.inr ⟨member.resolve_left known, known⟩)
  · intro other member
    rw [mem_seen_pushAll]
    rcases List.mem_append.mp member with gone | same
    · exact Or.inl (h.visited_seen other gone)
    · rw [List.mem_singleton.mp same]
      exact Or.inl node_seen
  · intro other member
    simp only [mem_seen_pushAll]
    rcases List.mem_append.mp member with gone | same
    · obtain ⟨passed, edges⟩ := h.spread other gone
      exact ⟨passed, fun later edge => Or.inl (edges later edge)⟩
    · rw [List.mem_singleton.mp same]
      exact ⟨passes, fun later edge => Or.inr edge⟩

omit [DecidableEq α] in
theorem Draining.done {frontier : Frontier α} {visited : List α}
    (h : Draining next stops roots frontier visited) (nothing : frontier.stack = []) :
    (∀ node, node ∈ visited ↔ Reachable next roots node) ∧ ∀ node ∈ visited, stops node = false := by
  have all_visited : ∀ node ∈ frontier.seen, node ∈ visited := by
    intro node member
    rcases h.accounted node member with waiting | gone
    · simp [nothing] at waiting
    · exact gone
  constructor
  · intro node
    constructor
    · exact fun member => h.reached node (h.visited_seen node member)
    · intro reached
      apply reached.induct
      · exact fun root is_root => all_visited root (h.roots_seen root is_root)
      · exact fun n gone later edge => all_visited later ((h.spread n gone).2 later edge)
  · exact fun node gone => (h.spread node gone).1

/-- What a finished search tells. -/
def Searched (next : α → List α) (stops : α → Bool) (roots : List α) :
    Option (List α) → Prop
  | none => ∃ node, Reachable next roots node ∧ stops node = true
  | some visited =>
    (∀ node, node ∈ visited ↔ Reachable next roots node) ∧ ∀ node ∈ visited, stops node = false

theorem drain_searched {nodes : Finset α} (closed : ∀ node ∈ nodes, ∀ later ∈ next node, later ∈ nodes)
    {fuel : Nat} {frontier : Frontier α} {visited : List α}
    (h : Draining next stops roots frontier visited) (inside : ∀ node ∈ frontier.stack, node ∈ nodes)
    (enough : frontier.left nodes ≤ fuel) :
    Searched next stops roots (drain next stops fuel frontier visited) := by
  induction fuel generalizing frontier visited with
  | zero =>
    have nothing : frontier.stack = [] := by
      apply List.eq_nil_of_length_eq_zero
      rw [Frontier.left] at enough
      omega
    exact h.done nothing
  | succ fuel ih =>
    rw [drain]
    cases top : frontier.stack with
    | nil => exact h.done top
    | cons node rest =>
      have node_inside : node ∈ nodes := inside node (by simp [top])
      simp only
      split
      · next stopped => exact ⟨node, h.reached node (h.stack_seen node (by simp [top])), stopped⟩
      · next passes =>
        rw [Bool.not_eq_true] at passes
        apply ih (h.visit top passes)
        · intro other member
          rcases mem_stack_pushAll.mp member with old | ⟨edge, _⟩
          · exact inside other (by simp [top, old])
          · exact closed node node_inside other edge
        · have pushed := left_pushAll_le (closed node node_inside) ⟨frontier.seen, rest⟩
          simp only [Frontier.left, top, List.length_cons] at enough pushed ⊢
          omega

theorem search_searched {nodes : Finset α}
    (closed : ∀ node ∈ nodes, ∀ later ∈ next node, later ∈ nodes)
    (rooted : ∀ root ∈ roots, root ∈ nodes) {fuel : Nat} (enough : nodes.card ≤ fuel) :
    Searched next stops roots (drain next stops fuel (Frontier.pushAll ⟨[], []⟩ roots) []) := by
  apply drain_searched closed (Draining.start next stops roots)
  · intro node member
    rcases mem_stack_pushAll.mp member with old | ⟨is_root, _⟩
    · exact absurd old List.not_mem_nil
    · exact rooted node is_root
  · have pushed := left_pushAll_le rooted ⟨[], []⟩
    have whole : (⟨[], []⟩ : Frontier α).left nodes = nodes.card := by
      simp [Frontier.left]
    omega

end Search
