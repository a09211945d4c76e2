import Mathlib.Data.Nat.Basic
import Mathlib.Logic.Function.Iterate

/-!
# Reflected cyclic redundancy checks

A remainder moves on bit by bit, the lowest bit first. One step is linear in exclusive or, so
what a remainder becomes over some bytes is what it becomes over as many zero bytes, changed by
what the bytes make of nothing. A linear map is known from the images of the single bits.
-/
namespace ReflectedCrc

variable {w : Nat}

def IsLinear (f : BitVec w → BitVec w) : Prop := ∀ x y, f (x ^^^ y) = f x ^^^ f y

variable {f g : BitVec w → BitVec w}

theorem IsLinear.zero (linear : IsLinear f) : f 0#w = 0#w := by
  have twice := linear 0#w 0#w
  rw [BitVec.xor_self] at twice
  rw [twice, BitVec.xor_self]

theorem IsLinear.comp (linear : IsLinear f) (linear' : IsLinear g) : IsLinear (f ∘ g) := fun x y => by
  rw [Function.comp_apply, linear' x y, linear]
  rfl

theorem IsLinear.iterate (linear : IsLinear f) (count : Nat) : IsLinear f^[count] := by
  induction count with
  | zero => exact fun _ _ => rfl
  | succ count ih =>
    rw [Function.iterate_succ]
    exact ih.comp linear

/-- The lowest bit of what is left stands at the row, and the others above it. -/
theorem shiftLeft_split (rest : BitVec w) (row : Nat) :
    rest <<< row = (if rest.getLsbD 0 then 1#w <<< row else 0#w) ^^^ (rest >>> 1) <<< (row + 1) := by
  apply BitVec.eq_of_getLsbD_eq
  intro i inside
  rw [BitVec.getLsbD_xor, BitVec.getLsbD_shiftLeft, BitVec.getLsbD_shiftLeft, BitVec.getLsbD_ushiftRight]
  rcases Nat.lt_trichotomy i row with below | same | above
  · split <;> simp [below, Nat.lt_succ_of_lt below]
  · subst same
    cases low : rest.getLsbD 0 <;> simp [inside, low]
  · have later : 1 + (i - (row + 1)) = i - row := by omega
    have apart : ¬ i - row = 0 := by omega
    split <;> simp [inside, later, apart, show ¬ i < row by omega, show ¬ i < row + 1 by omega]

/-- A linear map takes the lowest bit of what is left to the image of the row. -/
theorem IsLinear.shiftLeft (linear : IsLinear f) (rest : BitVec w) (row : Nat) :
    f (rest <<< row) = (if rest.getLsbD 0 then f (1#w <<< row) else 0#w) ^^^ f ((rest >>> 1) <<< (row + 1)) := by
  conv => lhs; rw [shiftLeft_split, linear]
  split
  · rfl
  · rw [linear.zero]

variable (polynomial : BitVec w)

def bitStep (crc : BitVec w) : BitVec w :=
  if crc.getLsbD 0 then (crc >>> 1) ^^^ polynomial else crc >>> 1

theorem bitStep_linear : IsLinear (bitStep polynomial) := by
  intro x y
  rw [bitStep, bitStep, bitStep, BitVec.getLsbD_xor, BitVec.ushiftRight_xor_distrib]
  cases x.getLsbD 0 <;> cases y.getLsbD 0
  · rfl
  · exact BitVec.xor_assoc _ _ _
  · simp only [Bool.bne_false, if_true, Bool.false_eq_true, if_false]
    ac_rfl
  · -- The polynomial comes in twice and goes out.
    simp only [bne_self_eq_false, Bool.false_eq_true, if_false, if_true]
    rw [BitVec.xor_assoc (x >>> 1), BitVec.xor_comm polynomial, BitVec.xor_assoc (y >>> 1), BitVec.xor_self,
      BitVec.xor_zero]

/-- The bits of the polynomial come in only where bits go out. -/
theorem bitStep_iterate_high {crc : BitVec w} {count : Nat} (clear : ∀ i < count, crc.getLsbD i = false) :
    (bitStep polynomial)^[count] crc = crc >>> count := by
  induction count with
  | zero => rfl
  | succ count ih =>
    rw [Function.iterate_succ_apply', ih fun i below => clear i (Nat.lt_succ_of_lt below), bitStep,
      BitVec.getLsbD_ushiftRight, Nat.add_zero, clear count (Nat.lt_succ_self _), BitVec.shiftRight_add]
    rfl

/-- The remainder after a byte. -/
def byteStep (crc byte : BitVec w) : BitVec w := (bitStep polynomial)^[8] (crc ^^^ byte)

def update (crc : BitVec w) (bytes : List (BitVec w)) : BitVec w := bytes.foldl (byteStep polynomial) crc

/-- The remainder after zero bytes. -/
def zeroBytes (count : Nat) : BitVec w → BitVec w := ((bitStep polynomial)^[8])^[count]

theorem zeroBytes_add (first second : Nat) (crc : BitVec w) :
    zeroBytes polynomial (first + second) crc = zeroBytes polynomial first (zeroBytes polynomial second crc) :=
  Function.iterate_add_apply _ _ _ _

/-- A difference of the remainders goes through the bytes as through zeros. -/
theorem update_xor (x y : BitVec w) (bytes : List (BitVec w)) :
    update polynomial (x ^^^ y) bytes = zeroBytes polynomial bytes.length x ^^^ update polynomial y bytes := by
  induction bytes generalizing x y with
  | nil => rfl
  | cons byte bytes ih =>
    have step : byteStep polynomial (x ^^^ y) byte =
        (bitStep polynomial)^[8] x ^^^ byteStep polynomial y byte := by
      rw [byteStep, BitVec.xor_assoc, (bitStep_linear polynomial).iterate 8]
      rfl
    rw [update, List.foldl_cons, step, ← update, ih, List.length_cons, zeroBytes, zeroBytes, Function.iterate_succ_apply]
    rfl

/-- The bytes in the places of the lowest bits, the first byte lowest. -/
def word : List (BitVec w) → BitVec w
  | [] => 0#w
  | byte :: bytes => byte ^^^ word bytes <<< 8

/-- Every element is a byte. -/
def IsBytes (bytes : List (BitVec w)) : Prop := ∀ byte ∈ bytes, ∀ i ≥ 8, byte.getLsbD i = false

theorem word_high {bytes : List (BitVec w)} (small : IsBytes bytes) :
    ∀ i ≥ 8 * bytes.length, (word bytes).getLsbD i = false := by
  induction bytes with
  | nil => exact fun _ _ => BitVec.getLsbD_zero
  | cons byte bytes ih =>
    intro i above
    rw [List.length_cons] at above
    rw [word, BitVec.getLsbD_xor, BitVec.getLsbD_shiftLeft, small byte (List.mem_cons_self ..) i (by omega),
      ih (fun other here => small other (List.mem_cons_of_mem _ here)) (i - 8) (by omega)]
    simp

/-- Where the bytes leave room for one more, it can be shifted in and out. -/
theorem word_shifted {bytes : List (BitVec w)} (small : IsBytes bytes) (fits : 8 * (bytes.length + 1) ≤ w) :
    (word bytes <<< 8) >>> 8 = word bytes := by
  apply BitVec.eq_of_getLsbD_eq
  intro i inside
  rw [BitVec.getLsbD_ushiftRight, BitVec.getLsbD_shiftLeft, Nat.add_sub_cancel_left]
  by_cases room : 8 + i < w
  · simp [room]
  · rw [word_high small i (by omega)]
    simp

theorem word_injective {bytes others : List (BitVec w)} (same : bytes.length = others.length)
    (small : IsBytes bytes) (small' : IsBytes others) (fits : 8 * bytes.length ≤ w)
    (equal : word bytes = word others) : bytes = others := by
  induction bytes generalizing others with
  | nil => exact (List.length_eq_zero_iff.mp same.symm).symm
  | cons byte bytes ih =>
    obtain _ | ⟨other, others⟩ := others
    · cases same
    rw [List.length_cons, List.length_cons] at same
    rw [List.length_cons] at fits
    have later : IsBytes bytes := fun x here => small x (List.mem_cons_of_mem _ here)
    have later' : IsBytes others := fun x here => small' x (List.mem_cons_of_mem _ here)
    -- The first bytes alone have the eight lowest bits.
    have first : byte = other := by
      apply BitVec.eq_of_getLsbD_eq
      intro i inside
      by_cases low : i < 8
      · have bits := congrArg (fun value => value.getLsbD i) equal
        simpa [word, low] using bits
      · rw [small byte (List.mem_cons_self ..) i (by omega), small' other (List.mem_cons_self ..) i (by omega)]
    subst first
    have above := congrArg (fun value => (byte ^^^ value) >>> 8) equal
    simp only [word, ← BitVec.xor_assoc, BitVec.xor_self, BitVec.zero_xor] at above
    rw [word_shifted later (by omega), word_shifted later' (by omega)] at above
    rw [ih (Nat.succ.inj same) later later' (by omega) above]

/-- The bytes that come in take away what they are themselves. -/
theorem update_word {bytes : List (BitVec w)} (small : IsBytes bytes) (fits : 8 * bytes.length ≤ w) :
    update polynomial (word bytes) bytes = 0#w := by
  induction bytes with
  | nil => rfl
  | cons byte bytes ih =>
    rw [List.length_cons] at fits
    have later : IsBytes bytes := fun x here => small x (List.mem_cons_of_mem _ here)
    have step : byteStep polynomial (word (byte :: bytes)) byte = word bytes := by
      have clear : ∀ i < 8, (word bytes <<< 8).getLsbD i = false := fun i low => by
        rw [BitVec.getLsbD_shiftLeft]
        simp [low]
      rw [byteStep, word, BitVec.xor_comm byte, BitVec.xor_assoc, BitVec.xor_self, BitVec.xor_zero,
        bitStep_iterate_high polynomial clear, word_shifted later fits]
    rw [update, List.foldl_cons, step, ← update, ih later (by omega)]

/-- A polynomial with its highest bit: no step loses anything. -/
theorem bitStep_injective (top : polynomial.getLsbD (w - 1) = true) : Function.Injective (bitStep polynomial) := by
  intro x y same
  have nothing : bitStep polynomial (x ^^^ y) = 0#w := by
    rw [bitStep_linear, same, BitVec.xor_self]
  rw [← BitVec.xor_eq_zero_iff]
  generalize x ^^^ y = rest at nothing ⊢
  rw [bitStep] at nothing
  cases low : rest.getLsbD 0 with
  | true =>
    -- The highest bit of the polynomial would have to come from beyond the remainder.
    rw [if_pos low, BitVec.xor_eq_zero_iff] at nothing
    have out := congrArg (fun value => value.getLsbD (w - 1)) nothing
    have past : rest.getLsbD (1 + (w - 1)) = false := BitVec.getLsbD_of_ge _ _ (by omega)
    rw [BitVec.getLsbD_ushiftRight, past, top] at out
    cases out
  | false =>
    rw [if_neg (by rw [low]; exact Bool.false_ne_true)] at nothing
    apply BitVec.eq_of_getLsbD_eq
    intro i inside
    rw [BitVec.getLsbD_zero]
    obtain _ | i := i
    · exact low
    · rw [← BitVec.getLsbD_zero (w := w) (i := i), ← nothing, BitVec.getLsbD_ushiftRight, Nat.add_comm]

theorem zeroBytes_injective (top : polynomial.getLsbD (w - 1) = true) (count : Nat) :
    Function.Injective (zeroBytes polynomial count) :=
  ((bitStep_injective polynomial top).iterate 8).iterate count

/-- The same bytes keep two remainders apart. -/
theorem update_injective (top : polynomial.getLsbD (w - 1) = true) (bytes : List (BitVec w)) :
    Function.Injective fun crc => update polynomial crc bytes := by
  intro x y same
  have apart (crc : BitVec w) : update polynomial crc bytes =
      zeroBytes polynomial bytes.length crc ^^^ update polynomial 0#w bytes := by
    rw [← update_xor, BitVec.xor_zero]
  change update polynomial x bytes = update polynomial y bytes at same
  rw [apart x, apart y] at same
  exact zeroBytes_injective polynomial top bytes.length ((BitVec.xor_left_inj _).mp same)

/-- Different bytes, no more of them than the remainder is wide, make different remainders. -/
theorem update_burst (top : polynomial.getLsbD (w - 1) = true) {burst others : List (BitVec w)}
    (same : burst.length = others.length) (small : IsBytes burst) (small' : IsBytes others)
    (fits : 8 * burst.length ≤ w) (crc : BitVec w)
    (equal : update polynomial crc burst = update polynomial crc others) : burst = others := by
  have through {bytes : List (BitVec w)} (small : IsBytes bytes) (fits : 8 * bytes.length ≤ w) :
      update polynomial crc bytes = zeroBytes polynomial bytes.length (crc ^^^ word bytes) := by
    have split := update_xor polynomial (crc ^^^ word bytes) (word bytes) bytes
    rwa [BitVec.xor_assoc, BitVec.xor_self, BitVec.xor_zero, update_word polynomial small fits,
      BitVec.xor_zero] at split
  -- Both runs act as one shift of the remainder with their bits in it.
  rw [through small fits, through small' (same ▸ fits), ← same] at equal
  have words := zeroBytes_injective polynomial top burst.length equal
  exact word_injective same small small' fits ((BitVec.xor_right_inj _).mp words)

end ReflectedCrc
