import Mathlib.Algebra.GroupWithZero.Nat
import Mathlib.Data.List.Basic
import Mathlib.Data.List.Count
import Mathlib.Data.List.Induction

/-!
# Counting and placing

Members are counted by key, and each is then put where the next of its key belongs: those of
one key end up side by side, in the order they came in.
-/
namespace Buckets

variable {β : Type*}

def countKeys (n : Nat) (keys : List Nat) : List Nat :=
  keys.foldl (fun counts key => counts.modify key (· + 1)) (List.replicate n 0)

def place : List Nat → List β → List (Nat × β) → List β
  | _, out, [] => out
  | next, out, (key, value) :: rest => place (next.modify key (· + 1)) (out.set (next.getD key 0) value) rest

/-- The values of a key. -/
def valuesOf (members : List (Nat × β)) (key : Nat) : List β := (members.filter fun member => member.1 = key).map Prod.snd

/-- Where those of a key begin: behind those of the keys below. -/
def startOf (members : List (Nat × β)) (key : Nat) : Nat := members.countP fun member => member.1 < key

section Counting
variable {n : Nat}

theorem countKeys_length (keys : List Nat) : (countKeys n keys).length = n := by
  induction keys using List.reverseRecOn with
  | nil => exact List.length_replicate
  | append_singleton keys last ih =>
    rw [countKeys, List.foldl_append, List.foldl_cons, List.foldl_nil, List.length_modify]
    exact ih

theorem countKeys_getElem? (keys : List Nat) {key : Nat} (within : key < n) :
    (countKeys n keys)[key]? = some (keys.count key) := by
  induction keys using List.reverseRecOn with
  | nil =>
    rw [countKeys, List.foldl_nil, List.getElem?_replicate, if_pos within]
    rfl
  | append_singleton keys last ih =>
    rw [countKeys, List.foldl_append, List.foldl_cons, List.foldl_nil, List.getElem?_modify, List.count_append,
      List.count_singleton]
    change (fun count => if last = key then count + 1 else count) <$> (countKeys n keys)[key]? = _
    rw [ih]
    by_cases same : last = key
    · simp [same]
    · simp [same]

end Counting

variable {members : List (Nat × β)}

theorem valuesOf_append (members others : List (Nat × β)) (key : Nat) :
    valuesOf (members ++ others) key = valuesOf members key ++ valuesOf others key := by
  rw [valuesOf, List.filter_append, List.map_append]
  rfl

theorem startOf_succ (members : List (Nat × β)) (key : Nat) :
    startOf members (key + 1) = startOf members key + (valuesOf members key).length := by
  induction members with
  | nil => rfl
  | cons member members ih =>
    rw [startOf, valuesOf, List.countP_cons, List.filter_cons]
    rw [startOf, startOf, valuesOf] at ih
    rw [ih, startOf, List.countP_cons]
    rcases Nat.lt_trichotomy member.1 key with below | same | above
    · rw [if_pos (decide_eq_true (by omega)), if_pos (decide_eq_true below), if_neg (by simp; omega)]
      omega
    · rw [if_pos (decide_eq_true (by omega)), if_neg (by simp; omega), if_pos (decide_eq_true same), List.map_cons,
        List.length_cons]
      omega
    · rw [if_neg (by simp; omega), if_neg (by simp; omega), if_neg (by simp; omega)]
      omega

theorem startOf_mono (members : List (Nat × β)) {key other : Nat} (below : key < other) :
    startOf members key + (valuesOf members key).length ≤ startOf members other := by
  rw [← startOf_succ]
  refine List.countP_mono_left fun member _ first => ?_
  rw [decide_eq_true_eq] at first ⊢
  omega

theorem startOf_le (members : List (Nat × β)) (key : Nat) :
    startOf members key + (valuesOf members key).length ≤ members.length := by
  rw [← startOf_succ]
  exact List.countP_le_length

theorem sum_countKeys (members : List (Nat × β)) {n key : Nat} (within : key ≤ n) :
    ((countKeys n (members.map Prod.fst)).take key).sum = startOf members key := by
  induction key with
  | zero =>
    refine (List.countP_eq_zero.mpr fun member _ => ?_).symm
    simp
  | succ key ih =>
    have counted : (members.map Prod.fst).count key = (valuesOf members key).length := by
      rw [valuesOf, List.length_map, ← List.countP_eq_length_filter, List.count, List.countP_map]
      refine List.countP_congr fun member _ => ?_
      simp
    rw [List.take_add_one, List.sum_append, ih (by omega), countKeys_getElem? _ (by omega), counted, startOf_succ]
    simp

theorem startOf_all {n : Nat} (within : ∀ member ∈ members, member.1 < n) : startOf members n = members.length :=
  List.countP_eq_length.mpr fun member isIn => decide_eq_true (within member isIn)

theorem mem_valuesOf {key : Nat} {value : β} : value ∈ valuesOf members key ↔ (key, value) ∈ members := by
  rw [valuesOf, List.mem_map]
  constructor
  · rintro ⟨⟨other, _⟩, isIn, rfl⟩
    obtain ⟨isIn, same⟩ := List.mem_filter.mp isIn
    exact of_decide_eq_true same ▸ isIn
  · exact fun isIn => ⟨(key, value), List.mem_filter.mpr ⟨isIn, decide_eq_true rfl⟩, rfl⟩

/-- What was put in place so far: the next of each key belongs behind those that came in. -/
structure Placed (n : Nat) (members : List (Nat × β)) (done : List (Nat × β)) (next : List Nat) (out : List β) : Prop where
  next_at : ∀ key < n, next[key]? = some (startOf members key + (valuesOf done key).length)
  put : ∀ key k value, (valuesOf done key)[k]? = some value → out[startOf members key + k]? = some value
  length : out.length = members.length

theorem Placed.step {n : Nat} {done rest : List (Nat × β)} {next : List Nat} {out : List β} {key : Nat} {value : β}
    (all : members = done ++ (key, value) :: rest) (within : key < n) (placed : Placed n members done next out) :
    Placed n members (done ++ [(key, value)]) (next.modify key (· + 1)) (out.set (next.getD key 0) value) := by
  have place : next.getD key 0 = startOf members key + (valuesOf done key).length := by
    rw [List.getD_eq_getElem?_getD, placed.next_at key within, Option.getD_some]
  have own : valuesOf [(key, value)] key = [value] := by rw [valuesOf, List.filter_cons_of_pos (by simp)]; rfl
  have others {other : Nat} (differs : key ≠ other) : valuesOf [(key, value)] other = [] := by
    rw [valuesOf, List.filter_cons_of_neg (by simpa using differs)]
    rfl
  have room (other : Nat) : valuesOf members other = valuesOf done other ++ (valuesOf [(key, value)] other ++ valuesOf rest other) := by
    rw [all, valuesOf_append, ← List.singleton_append, valuesOf_append]
  have fits : (valuesOf done key).length < (valuesOf members key).length := by
    rw [room, own, List.length_append, List.length_append, List.length_singleton]
    omega
  refine ⟨fun other inside => ?_, fun other k found at_k => ?_, ?_⟩
  · rw [List.getElem?_modify, placed.next_at other inside, valuesOf_append]
    by_cases same : key = other
    · subst same
      rw [own]
      simp [Nat.add_assoc]
    · rw [others same]
      simp [same]
  · rw [place]
    rw [valuesOf_append] at at_k
    by_cases same : key = other
    · subst same
      rw [own] at at_k
      by_cases earlier : k < (valuesOf done key).length
      · rw [List.getElem?_append_left earlier] at at_k
        rw [List.getElem?_set_ne (by omega)]
        exact placed.put key k found at_k
      · have last : k = (valuesOf done key).length := by
          have := (List.getElem?_eq_some_iff.mp at_k).1
          rw [List.length_append, List.length_singleton] at this
          omega
        subst last
        rw [List.getElem?_append_right (Nat.le_refl _), Nat.sub_self] at at_k
        obtain rfl : value = found := Option.some.inj at_k
        have := startOf_le members key
        exact List.getElem?_set_self (by rw [placed.length]; omega)
    · -- Those of two keys are apart.
      rw [others same, List.append_nil] at at_k
      have short : k < (valuesOf members other).length := by
        have := (List.getElem?_eq_some_iff.mp at_k).1
        rw [room, List.length_append]
        omega
      have apart : startOf members key + (valuesOf done key).length ≠ startOf members other + k := by
        rcases Nat.lt_or_gt_of_ne same with below | above
        · have := startOf_mono members below
          omega
        · have := startOf_mono members above
          omega
      rw [List.getElem?_set_ne apart]
      exact placed.put other k found at_k
  · rw [List.length_set, placed.length]

theorem Placed.run {n : Nat} {done rest : List (Nat × β)} {next : List Nat} {out : List β} (all : members = done ++ rest)
    (within : ∀ member ∈ members, member.1 < n) (placed : Placed n members done next out) :
    ∃ last, Placed n members members last (place next out rest) := by
  induction rest generalizing done next out with
  | nil =>
    rw [List.append_nil] at all
    exact ⟨next, all ▸ placed⟩
  | cons member rest ih =>
    obtain ⟨key, value⟩ := member
    have own : key < n := within (key, value) (by rw [all]; exact List.mem_append_right _ List.mem_cons_self)
    exact ih (by rw [all, List.append_assoc]; rfl) (placed.step all own)

theorem place_slice {n : Nat} {next : List Nat} {out : List β} (within : ∀ member ∈ members, member.1 < n)
    (starts : ∀ key < n, next[key]? = some (startOf members key)) (length : out.length = members.length) (key : Nat) :
    ((place next out members).drop (startOf members key)).take (valuesOf members key).length = valuesOf members key := by
  obtain ⟨last, placed⟩ := @Placed.run _ members n [] members next out rfl within ⟨starts, nofun, length⟩
  have bound := startOf_le members key
  refine List.ext_getElem? fun k => ?_
  rw [List.getElem?_take, List.getElem?_drop]
  split
  · next inside =>
    rw [List.getElem?_eq_getElem inside]
    exact placed.put key k _ (List.getElem?_eq_getElem inside)
  · next beyond => exact (List.getElem?_eq_none (by omega)).symm

end Buckets
