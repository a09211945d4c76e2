import Mathlib.Data.Int.Log
import Mathlib.Data.Rat.Floor
import Narsil.Digits.Decimal
import Narsil.Ordering.Strings

/-!
# Rounding to binary64

The numbers with 53 binary digits, and how a rational rounds to the nearest of them; a tie
goes to the even one. Integers below 2^53 stay as they are, and below 2^43 a number moves by
less than half a thousandth.
-/
namespace Binary64

/-- The nearest integer; of two that are as near, the even one. -/
def roundHalfEven (q : ℚ) : ℤ :=
  let below := ⌊q⌋
  if q - below < 1 / 2 then below
  else if 1 / 2 < q - below then below + 1
  else if below % 2 = 0 then below
  else below + 1

/-- The place of the last binary digit that a number near `q` has. -/
def lastPlace (q : ℚ) : ℤ := max (Int.log 2 |q| - 52) (-1074)

def round (q : ℚ) : ℚ := roundHalfEven (q / 2 ^ lastPlace q) * 2 ^ lastPlace q

theorem roundHalfEven_intCast (n : ℤ) : roundHalfEven n = n := by
  simp [roundHalfEven]

theorem roundHalfEven_near (q : ℚ) : |(roundHalfEven q : ℚ) - q| ≤ 1 / 2 := by
  have below := Int.floor_le q
  have above := Int.lt_floor_add_one q
  rw [abs_le, roundHalfEven]
  split
  next low => constructor <;> linarith
  next high =>
    rw [not_lt] at high
    have up : -(1 / 2) ≤ ((⌊q⌋ + 1 : ℤ) : ℚ) - q ∧ ((⌊q⌋ + 1 : ℤ) : ℚ) - q ≤ 1 / 2 := by
      push_cast
      constructor <;> linarith
    split
    · exact up
    next low =>
      rw [not_lt] at low
      split
      · constructor <;> linarith
      · exact up

theorem round_scaled {digits place : ℤ} (small : |digits| < 2 ^ 53) (fine : -1074 ≤ place) :
    round (digits * 2 ^ place) = digits * 2 ^ place := by
  rcases eq_or_ne digits 0 with rfl | some_digit
  · simp [round, show roundHalfEven 0 = 0 from roundHalfEven_intCast 0]
  · have positive : (0 : ℚ) < |(digits : ℚ)| := abs_pos.mpr (Int.cast_ne_zero.mpr some_digit)
    have scale : (0 : ℚ) < 2 ^ place := zpow_pos (by norm_num) _
    have size : |(digits : ℚ) * 2 ^ place| < 2 ^ (53 + place) := by
      rw [abs_mul, abs_of_pos scale, zpow_add₀ (by norm_num)]
      apply mul_lt_mul_of_pos_right _ scale
      have cast : |(digits : ℚ)| = ((|digits| : ℤ) : ℚ) := by push_cast; rfl
      rw [cast]
      exact_mod_cast small
    have log_small : Int.log 2 |(digits : ℚ) * 2 ^ place| < 53 + place := by
      apply (Int.lt_zpow_iff_log_lt (by norm_num) _).mp size
      rw [abs_mul, abs_of_pos scale]
      exact mul_pos positive scale
    have last : lastPlace (digits * 2 ^ place) ≤ place := by
      rw [lastPlace]
      omega
    obtain ⟨more, eq⟩ := Int.eq_ofNat_of_zero_le (sub_nonneg.mpr last)
    have scaled : (digits : ℚ) * 2 ^ place / 2 ^ lastPlace (digits * 2 ^ place) = ((digits * 2 ^ more : ℤ) : ℚ) := by
      rw [mul_div_assoc, ← zpow_sub₀ (by norm_num), eq]
      push_cast
      rw [zpow_natCast]
    rw [round, scaled, roundHalfEven_intCast, ← scaled]
    exact div_mul_cancel₀ _ (zpow_ne_zero _ (by norm_num))

theorem round_intCast {n : ℤ} (small : |n| < 2 ^ 53) : round n = n := by
  simpa using round_scaled small (show -1074 ≤ (0 : ℤ) by norm_num)

theorem exists_scaled (q : ℚ) :
    ∃ digits place : ℤ, |digits| ≤ 2 ^ 53 ∧ -1074 ≤ place ∧ round q = digits * 2 ^ place := by
  refine ⟨roundHalfEven (q / 2 ^ lastPlace q), lastPlace q, ?_, le_max_right _ _, rfl⟩
  have scale : (0 : ℚ) < 2 ^ lastPlace q := zpow_pos (by norm_num) _
  have size : |q| < 2 ^ (53 + lastPlace q) := by
    have above : |q| < 2 ^ (Int.log 2 |q| + 1) := Int.lt_zpow_succ_log_self (by norm_num) _
    refine above.trans_le (zpow_le_zpow_right₀ (by norm_num) ?_)
    rw [lastPlace]
    omega
  have scaled : |q / 2 ^ lastPlace q| < 2 ^ 53 := by
    rw [abs_div, abs_of_pos scale, div_lt_iff₀ scale]
    rw [zpow_add₀ (by norm_num)] at size
    exact_mod_cast size
  have near := roundHalfEven_near (q / 2 ^ lastPlace q)
  generalize q / 2 ^ lastPlace q = quotient at scaled near
  have close : (|roundHalfEven quotient| : ℤ) < (2 ^ 53 + 1 : ℚ) := by
    push_cast
    calc |(roundHalfEven quotient : ℚ)| = |((roundHalfEven quotient : ℚ) - quotient) + quotient| := by ring_nf
      _ ≤ |(roundHalfEven quotient : ℚ) - quotient| + |quotient| := abs_add_le _ _
      _ < 2 ^ 53 + 1 := by linarith
  exact Int.lt_add_one_iff.mp (by exact_mod_cast close)

@[simp] theorem round_round (q : ℚ) : round (round q) = round q := by
  obtain ⟨digits, place, small, fine, eq⟩ := exists_scaled q
  rw [eq]
  rcases lt_or_eq_of_le small with below | full
  · exact round_scaled below fine
  · -- 2^53 itself has one digit more, and is 2^52 one place higher.
    obtain ⟨half, even, half_small⟩ : ∃ half : ℤ, digits = 2 * half ∧ |half| < 2 ^ 53 := by
      rcases abs_eq (by norm_num) |>.mp full with rfl | rfl
      · exact ⟨2 ^ 52, by norm_num, by norm_num⟩
      · exact ⟨-2 ^ 52, by norm_num, by norm_num⟩
    have higher : (digits : ℚ) * 2 ^ place = half * 2 ^ (place + 1) := by
      rw [even, zpow_add_one₀ (by norm_num)]
      push_cast
      ring
    rw [higher]
    exact round_scaled half_small (by omega)

theorem round_near (q : ℚ) : |round q - q| ≤ 2 ^ lastPlace q / 2 := by
  have scale : (0 : ℚ) < 2 ^ lastPlace q := zpow_pos (by norm_num) _
  have near := roundHalfEven_near (q / 2 ^ lastPlace q)
  have split : round q - q = ((roundHalfEven (q / 2 ^ lastPlace q) : ℚ) - q / 2 ^ lastPlace q) * 2 ^ lastPlace q := by
    rw [round, sub_mul, div_mul_cancel₀ _ scale.ne']
  rw [split, abs_mul, abs_of_pos scale]
  calc |(roundHalfEven (q / 2 ^ lastPlace q) : ℚ) - q / 2 ^ lastPlace q| * 2 ^ lastPlace q
      ≤ 1 / 2 * 2 ^ lastPlace q := mul_le_mul_of_nonneg_right near scale.le
    _ = 2 ^ lastPlace q / 2 := by ring

theorem round_near_of_small {q : ℚ} (small : |q| < 2 ^ 43) : |round q - q| ≤ 1 / 2048 := by
  have place : lastPlace q ≤ -10 := by
    rcases eq_or_ne q 0 with rfl | nonzero
    · simp [lastPlace, Int.log_zero_right]
    · have log_small : Int.log 2 |q| < 43 :=
        (Int.lt_zpow_iff_log_lt (by norm_num) (abs_pos.mpr nonzero)).mp (by exact_mod_cast small)
      rw [lastPlace]
      omega
  calc |round q - q| ≤ 2 ^ lastPlace q / 2 := round_near q
    _ ≤ 2 ^ (-10 : ℤ) / 2 := by
        apply div_le_div_of_nonneg_right _ (by norm_num)
        exact zpow_le_zpow_right₀ (by norm_num) place
    _ = 1 / 2048 := by norm_num

theorem floor_round_div_thousand {n : ℤ} (small : |n| < 1000 * 2 ^ 43) : ⌊round ((n : ℚ) / 1000)⌋ = n / 1000 := by
  have split : n = 1000 * (n / 1000) + n % 1000 := (Int.mul_ediv_add_emod n 1000).symm
  have lower := Int.emod_nonneg n (show (1000 : ℤ) ≠ 0 by norm_num)
  have upper := Int.emod_lt_of_pos n (show (0 : ℤ) < 1000 by norm_num)
  generalize n / 1000 = seconds at split ⊢
  generalize n % 1000 = rest at split lower upper
  have quotient : (n : ℚ) / 1000 = seconds + rest / 1000 := by
    rw [split]
    push_cast
    field_simp
  obtain ⟨above_low, below_high⟩ := abs_lt.mp small
  rcases eq_or_lt_of_le lower with rfl | positive
  · have whole : (n : ℚ) / 1000 = seconds := by rw [quotient]; simp
    rw [whole, round_intCast (abs_lt.mpr ⟨by omega, by omega⟩), Int.floor_intCast]
  · have size : |(n : ℚ) / 1000| < 2 ^ 43 := by
      rw [abs_div, abs_of_pos (show (0 : ℚ) < 1000 by norm_num), div_lt_iff₀ (by norm_num)]
      have cast : |(n : ℚ)| = ((|n| : ℤ) : ℚ) := by push_cast; rfl
      rw [cast, mul_comm]
      exact_mod_cast small
    obtain ⟨low, high⟩ := abs_le.mp (round_near_of_small size)
    have at_least : (1 : ℚ) ≤ rest := by exact_mod_cast positive
    have at_most : (rest : ℚ) ≤ 999 := by exact_mod_cast Int.le_of_lt_add_one upper
    rw [quotient] at low high ⊢
    rw [Int.floor_eq_iff]
    constructor <;> linarith

end Binary64

/-!
## Numbers in JSON

The numbers of the language, the text it writes for a finite one (the fewest digits that
round to it), and how `JSON.parse` reads a number.
-/
namespace Narsil.Serialization

open Narsil.Ordering (JsString ascii)

/-- A finite number, with 0 for the positive zero. -/
structure Double where
  value : ℚ
  exact : Binary64.round value = value
  small : |value| < 2 ^ 1024

inductive JsNumber where
  | finite (number : Double)
  | negativeZero
  | infinity (negative : Bool)
  | nan

def Double.zero : Double := ⟨0, Binary64.round_intCast (n := 0) (by norm_num), by norm_num⟩

def signed (negative : Bool) (size : ℚ) : ℚ := if negative then -size else size

/-- The number that a decimal rounds to. -/
def roundedNumber (negative : Bool) (digits : ℕ) (exponent : ℤ) : JsNumber :=
  let size := signed negative (digits * 10 ^ exponent)
  if Binary64.round size = 0 then if negative then .negativeZero else .finite .zero
  else if small : |Binary64.round size| < 2 ^ 1024 then .finite ⟨_, Binary64.round_round size, small⟩
  else .infinity negative

structure NumberLiteral where
  negative : Bool
  whole : List ℕ
  fraction : List ℕ
  exponent : Option ℤ

def MINUS : UInt16 := 0x2d
def PLUS : UInt16 := 0x2b
def POINT : UInt16 := 0x2e
def EXPONENT : UInt16 := 0x65
def EXPONENT_UPPER : UInt16 := 0x45

def digitUnit (digit : ℕ) : UInt16 := .ofNat (48 + digit)

def digitsText (digits : List ℕ) : JsString := digits.map digitUnit

def exponentText : Option ℤ → JsString
  | none => []
  | some exponent =>
    EXPONENT :: (if exponent < 0 then MINUS else PLUS) :: digitsText (Decimal.digits exponent.natAbs)

def fractionText (fraction : List ℕ) : JsString := if fraction = [] then [] else POINT :: digitsText fraction

def NumberLiteral.text (literal : NumberLiteral) : JsString :=
  (if literal.negative then [MINUS] else []) ++
    (digitsText literal.whole ++ (fractionText literal.fraction ++ exponentText literal.exponent))

/-- The digits of `size` with `count` digits that are nearest to it, with their exponent,
and after them the digits on its other side. -/
def nearestDigits (size : ℚ) (count : ℕ) : List (ℕ × ℤ) :=
  let exponent := Int.log 10 size + 1 - count
  let scaled := size / 10 ^ exponent
  let below := ⌊scaled⌋.toNat
  let above := if below + 1 = 10 ^ count then (10 ^ (count - 1), exponent + 1) else (below + 1, exponent)
  if scaled - below < 1 / 2 ∨ scaled - below = 1 / 2 ∧ below % 2 = 0 then [(below, exponent), above]
  else [above, (below, exponent)]

/-- The fewest digits that round to the number. Seventeen digits always do; what stands
after them is every digit of a binary64 number. -/
def shortest (value : ℚ) : ℕ × ℤ :=
  if value = 0 then (0, 0)
  else
    let candidates := (List.range 17).flatMap fun more => nearestDigits |value| (more + 1)
    (candidates.find? fun (digits, exponent) =>
      Binary64.round (signed (value < 0) (digits * 10 ^ exponent)) = value).getD
        ((value * 10 ^ 1074).num.natAbs, -1074)

/-- Where the point and the exponent stand in `Number::toString`. -/
def layout (negative : Bool) (digits : List ℕ) (exponent : ℤ) : NumberLiteral :=
  let count := digits.length
  let point := count + exponent
  if count ≤ point ∧ point ≤ 21 then
    { negative, whole := digits ++ List.replicate exponent.toNat 0, fraction := [], exponent := none }
  else if 0 < point ∧ point ≤ 21 then
    { negative, whole := digits.take point.toNat, fraction := digits.drop point.toNat, exponent := none }
  else if -6 < point ∧ point ≤ 0 then
    { negative, whole := [0], fraction := List.replicate (-point).toNat 0 ++ digits, exponent := none }
  else { negative, whole := digits.take 1, fraction := digits.drop 1, exponent := some (point - 1) }

/-- `Number::toString` of a finite number. -/
def numberLiteral (value : ℚ) : NumberLiteral :=
  layout (value < 0) (Decimal.digits (shortest value).1) (shortest value).2

def numberText (value : ℚ) : JsString := (numberLiteral value).text

def digitOf (unit : UInt16) : Option ℕ := if 48 ≤ unit ∧ unit ≤ 57 then some (unit.toNat - 48) else none

def readDigits : JsString → List ℕ × JsString
  | [] => ([], [])
  | unit :: rest =>
    match digitOf unit with
    | some digit => (digit :: (readDigits rest).1, (readDigits rest).2)
    | none => ([], unit :: rest)

def readMinus : JsString → Bool × JsString
  | [] => (false, [])
  | unit :: rest => if unit = MINUS then (true, rest) else (false, unit :: rest)

/-- The digits before the point: 0 stands alone. -/
def readWhole (text : JsString) : Option (List ℕ × JsString) :=
  match (readDigits text).1 with
  | [] => none
  | 0 :: _ => some ([0], text.drop 1)
  | _ :: _ => some (readDigits text)

def readFraction : JsString → Option (List ℕ × JsString)
  | [] => some ([], [])
  | unit :: rest =>
    if unit = POINT then if (readDigits rest).1 = [] then none else some (readDigits rest)
    else some ([], unit :: rest)

def readExponentSign : JsString → Bool × JsString
  | [] => (false, [])
  | unit :: rest => if unit = PLUS then (false, rest) else readMinus (unit :: rest)

def readExponent : JsString → Option (ℤ × JsString)
  | [] => some (0, [])
  | unit :: rest =>
    if unit = EXPONENT ∨ unit = EXPONENT_UPPER then
      let (negative, rest) := readExponentSign rest
      let (digits, rest) := readDigits rest
      if digits = [] then none
      else some (if negative then -(Decimal.value digits : ℤ) else Decimal.value digits, rest)
    else some (0, unit :: rest)

def parseNumber (text : JsString) : Option (JsNumber × JsString) := do
  let (negative, text) := readMinus text
  let (whole, text) ← readWhole text
  let (fraction, text) ← readFraction text
  let (exponent, text) ← readExponent text
  return (roundedNumber negative (Decimal.value (whole ++ fraction)) (exponent - fraction.length), text)

namespace NumberLiteral

structure Valid (literal : NumberLiteral) : Prop where
  whole : Decimal.IsDigits literal.whole
  canonical : Decimal.Canonical literal.whole
  fraction : Decimal.IsDigits literal.fraction

def number (literal : NumberLiteral) : JsNumber :=
  roundedNumber literal.negative (Decimal.value (literal.whole ++ literal.fraction))
    (literal.exponent.getD 0 - literal.fraction.length)

end NumberLiteral

/-- The next unit, if there is one, goes on with no number. -/
def EndsNumber (rest : JsString) : Prop :=
  ∀ unit ∈ rest.head?, digitOf unit = none ∧ unit ≠ POINT ∧ unit ≠ EXPONENT ∧ unit ≠ EXPONENT_UPPER

theorem digitOf_digitUnit {digit : ℕ} (small : digit < 10) : digitOf (digitUnit digit) = some digit := by
  have table : ∀ digit < 10, digitOf (digitUnit digit) = some digit := by decide
  exact table digit small

theorem readDigits_append {digits : List ℕ} (decimal : Decimal.IsDigits digits) {rest : JsString}
    (ends : ∀ unit ∈ rest.head?, digitOf unit = none) : readDigits (digitsText digits ++ rest) = (digits, rest) := by
  induction digits with
  | nil =>
    cases rest with
    | nil => rfl
    | cons unit rest => simp [digitsText, readDigits, ends unit rfl]
  | cons digit digits ih =>
    have small := decimal digit (List.mem_cons_self ..)
    have later := ih fun other member => decimal other (List.mem_cons_of_mem _ member)
    simp only [digitsText, List.map_cons, List.cons_append, readDigits, digitOf_digitUnit small] at later ⊢
    rw [later]

theorem digitUnit_ne_minus {digit : ℕ} (small : digit < 10) : digitUnit digit ≠ MINUS ∧ digitUnit digit ≠ PLUS := by
  have table : ∀ digit < 10, digitUnit digit ≠ MINUS ∧ digitUnit digit ≠ PLUS := by decide
  exact table digit small

theorem readMinus_digits {digits : List ℕ} (decimal : Decimal.IsDigits digits) (nonempty : digits ≠ [])
    (rest : JsString) : readMinus (digitsText digits ++ rest) = (false, digitsText digits ++ rest) := by
  cases digits with
  | nil => exact absurd rfl nonempty
  | cons digit digits =>
    have small := decimal digit (List.mem_cons_self ..)
    simp [digitsText, readMinus, digitUnit_ne_minus small]

theorem readWhole_text {digits : List ℕ} (decimal : Decimal.IsDigits digits) (canonical : Decimal.Canonical digits)
    {rest : JsString} (ends : ∀ unit ∈ rest.head?, digitOf unit = none) :
    readWhole (digitsText digits ++ rest) = some (digits, rest) := by
  rw [readWhole, readDigits_append decimal ends]
  rcases canonical with rfl | ⟨first, others, rfl, nonzero⟩
  · rfl
  · cases first with
    | zero => exact absurd rfl nonzero
    | succ first => rfl

theorem readFraction_text {fraction : List ℕ} (decimal : Decimal.IsDigits fraction) {rest : JsString}
    (ends : ∀ unit ∈ rest.head?, digitOf unit = none ∧ unit ≠ POINT) :
    readFraction (fractionText fraction ++ rest) = some (fraction, rest) := by
  rw [fractionText]
  split
  next empty =>
    rw [empty]
    cases rest with
    | nil => rfl
    | cons unit rest => simp [readFraction, (ends unit rfl).2]
  next some_digits =>
    have read := readDigits_append decimal fun unit member => (ends unit member).1
    simp [readFraction, read, some_digits]

theorem readExponent_text (exponent : Option ℤ) {rest : JsString} (ends : EndsNumber rest) :
    readExponent (exponentText exponent ++ rest) = some (exponent.getD 0, rest) := by
  cases exponent with
  | none =>
    cases rest with
    | nil => rfl
    | cons unit rest =>
      obtain ⟨-, -, lower, upper⟩ := ends unit rfl
      simp [exponentText, readExponent, lower, upper]
  | some exponent =>
    have read := readDigits_append (Decimal.digits_isDigits exponent.natAbs) fun unit member => (ends unit member).1
    have nonempty := (Decimal.digits_canonical exponent.natAbs).ne_nil
    rcases lt_or_ge exponent 0 with negative | positive
    · have sign : MINUS ≠ PLUS := by decide
      simp only [exponentText, if_pos negative, List.cons_append, readExponent, true_or, if_true, readExponentSign,
        if_neg sign, readMinus, read, if_neg nonempty, Decimal.value_digits, Option.getD_some]
      rw [Int.natCast_natAbs, abs_of_neg negative, neg_neg]
    · simp only [exponentText, if_neg (not_lt.mpr positive), List.cons_append, readExponent, true_or, if_true,
        readExponentSign, read, if_neg nonempty, Decimal.value_digits, Option.getD_some]
      rw [Int.natCast_natAbs, abs_of_nonneg positive]
      rfl

theorem parseNumber_text {literal : NumberLiteral} (valid : literal.Valid) {rest : JsString} (ends : EndsNumber rest) :
    parseNumber (literal.text ++ rest) = some (literal.number, rest) := by
  obtain ⟨negative, whole, fraction, exponent⟩ := literal
  obtain ⟨decimal, canonical, fraction_decimal⟩ := valid
  dsimp only at decimal canonical fraction_decimal
  have after_fraction : ∀ unit ∈ (exponentText exponent ++ rest).head?, digitOf unit = none ∧ unit ≠ POINT := by
    intro unit head
    cases exponent with
    | none => exact ⟨(ends unit head).1, (ends unit head).2.1⟩
    | some exponent =>
      obtain rfl : EXPONENT = unit := Option.some.inj head
      decide
  have after_whole : ∀ unit ∈ (fractionText fraction ++ (exponentText exponent ++ rest)).head?,
      digitOf unit = none := by
    intro unit head
    rw [fractionText] at head
    split at head
    · exact (after_fraction unit head).1
    · obtain rfl : POINT = unit := Option.some.inj head
      decide
  have minus : readMinus (NumberLiteral.text ⟨negative, whole, fraction, exponent⟩ ++ rest) =
      (negative, digitsText whole ++ (fractionText fraction ++ (exponentText exponent ++ rest))) := by
    cases negative with
    | true => simp [NumberLiteral.text, readMinus]
    | false =>
      have none_read := readMinus_digits decimal canonical.ne_nil
        (fractionText fraction ++ (exponentText exponent ++ rest))
      simpa [NumberLiteral.text] using none_read
  simp only [parseNumber, minus, readWhole_text decimal canonical after_whole,
    readFraction_text fraction_decimal after_fraction, readExponent_text exponent ends, Option.bind_eq_bind,
    Option.bind_some, NumberLiteral.number]
  rfl

theorem layout_valid (negative : Bool) {digits : List ℕ} (decimal : Decimal.IsDigits digits)
    (canonical : Decimal.Canonical digits) {exponent : ℤ} (lone : digits = [0] → exponent = 0) :
    (layout negative digits exponent).Valid := by
  have zeros (count : ℕ) : Decimal.IsDigits (List.replicate count 0) := by
    intro digit member
    rw [List.eq_of_mem_replicate member]
    omega
  have both {front back : List ℕ} (hf : Decimal.IsDigits front) (hb : Decimal.IsDigits back) :
      Decimal.IsDigits (front ++ back) := fun digit member => (List.mem_append.mp member).elim (hf digit) (hb digit)
  have taken (count : ℕ) : Decimal.IsDigits (digits.take count) :=
    fun digit member => decimal digit (List.mem_of_mem_take member)
  have dropped (count : ℕ) : Decimal.IsDigits (digits.drop count) :=
    fun digit member => decimal digit (List.mem_of_mem_drop member)
  have first_taken {count : ℕ} (positive : 0 < count) : Decimal.Canonical (digits.take count) := by
    rcases canonical with rfl | ⟨first, rest, rfl, nonzero⟩
    · rw [List.take_of_length_le (show [0].length ≤ count from positive)]
      exact .inl rfl
    · obtain ⟨fewer, rfl⟩ := Nat.exists_eq_succ_of_ne_zero positive.ne'
      exact .inr ⟨first, rest.take fewer, List.take_succ_cons, nonzero⟩
  rw [layout]
  split_ifs with whole pointed leading
  · refine ⟨both decimal (zeros _), ?_, fun digit member => absurd member List.not_mem_nil⟩
    rcases canonical with rfl | ⟨first, rest, rfl, nonzero⟩
    · -- Only the number 0 has this digit alone, and no zeros follow it.
      rw [lone rfl]
      exact .inl rfl
    · exact .inr ⟨first, _, List.cons_append, nonzero⟩
  · exact ⟨taken _, first_taken (by omega), dropped _⟩
  · exact ⟨zeros 1, .inl rfl, both (zeros _) decimal⟩
  · exact ⟨taken 1, first_taken one_pos, dropped 1⟩

theorem layout_value (negative : Bool) {digits : List ℕ} (nonempty : digits ≠ []) (exponent : ℤ) :
    ((Decimal.value ((layout negative digits exponent).whole ++ (layout negative digits exponent).fraction) : ℕ) : ℚ) *
      10 ^ ((layout negative digits exponent).exponent.getD 0 - (layout negative digits exponent).fraction.length) =
    Decimal.value digits * 10 ^ exponent := by
  have ten : (10 : ℚ) ≠ 0 := by norm_num
  have count := List.length_pos_iff.mpr nonempty
  rw [layout]
  split_ifs with whole pointed leading
  · obtain ⟨more, rfl⟩ := Int.eq_ofNat_of_zero_le (show 0 ≤ exponent by omega)
    simp [Decimal.value_append]
  · have split : digits.take (digits.length + exponent).toNat ++ digits.drop (digits.length + exponent).toNat = digits :=
      List.take_append_drop _ _
    have place : (0 : ℤ) - (digits.drop (digits.length + exponent).toNat).length = exponent := by
      rw [List.length_drop]
      omega
    simp only [split, Option.getD_none, place]
  · have place : (0 : ℤ) - (List.replicate (-(digits.length + exponent)).toNat 0 ++ digits).length = exponent := by
      rw [List.length_append, List.length_replicate]
      omega
    simp only [Option.getD_none, place, ← List.append_assoc, Decimal.value_append]
    simp [Decimal.value]
  · have split : digits.take 1 ++ digits.drop 1 = digits := List.take_append_drop _ _
    have place : (digits.length + exponent - 1 : ℤ) - (digits.drop 1).length = exponent := by
      rw [List.length_drop]
      omega
    simp only [split, Option.getD_some, place]

theorem exists_integer {value : ℚ} (exact : Binary64.round value = value) : ∃ n : ℤ, value * 10 ^ 1074 = n := by
  obtain ⟨digits, place, -, fine, eq⟩ := Binary64.exists_scaled value
  obtain ⟨more, above⟩ := Int.eq_ofNat_of_zero_le (show 0 ≤ place + 1074 by omega)
  obtain ⟨fives, five⟩ : ∃ n : ℤ, (5 : ℚ) ^ 1074 = n := ⟨5 ^ 1074, by rw [Int.cast_pow, Int.cast_ofNat]⟩
  have ten : (10 : ℚ) ^ 1074 = 2 ^ (1074 : ℤ) * fives := by
    rw [show (10 : ℚ) = 2 * 5 by norm_num, mul_pow, five]
    rfl
  refine ⟨digits * 2 ^ more * fives, ?_⟩
  calc value * 10 ^ 1074 = digits * (2 ^ place * 2 ^ (1074 : ℤ)) * fives := by
        rw [ten, ← exact, eq]
        ring
    _ = digits * 2 ^ more * fives := by rw [← zpow_add₀ (by norm_num), above, zpow_natCast]
    _ = ((digits * 2 ^ more * fives : ℤ) : ℚ) := by push_cast; rfl

theorem shortest_rounds {value : ℚ} (exact : Binary64.round value = value) :
    Binary64.round (signed (value < 0) ((shortest value).1 * 10 ^ (shortest value).2)) = value := by
  rw [shortest]
  split
  next zero => simp [zero, signed, show Binary64.round 0 = 0 from Double.zero.exact]
  next nonzero =>
    dsimp only
    generalize ((List.range 17).flatMap fun more => nearestDigits |value| (more + 1)) = candidates
    cases found : candidates.find? fun candidate =>
        Binary64.round (signed (value < 0) (candidate.1 * 10 ^ candidate.2)) = value with
    | some digits =>
      have rounds := List.find?_some found
      simpa using rounds
    | none =>
      obtain ⟨n, scaled⟩ := exists_integer exact
      have whole : signed (value < 0) (((value * 10 ^ 1074).num.natAbs : ℕ) * 10 ^ (-1074 : ℤ)) = value := by
        have positive : (0 : ℚ) < 10 ^ (1074 : ℤ) := zpow_pos (by norm_num) _
        have back : value = n * ((10 : ℚ) ^ (1074 : ℤ))⁻¹ := (eq_mul_inv_iff_mul_eq₀ positive.ne').mpr scaled
        have sign : value < 0 ↔ n < 0 := by
          rw [← Int.cast_lt_zero (R := ℚ), ← scaled]
          exact ⟨fun below => mul_neg_of_neg_of_pos below positive,
            fun below => lt_of_not_ge fun above => not_le.mpr below (mul_nonneg above positive.le)⟩
        rw [scaled, Rat.num_intCast, zpow_neg, Nat.cast_natAbs, signed]
        rcases lt_or_ge n 0 with negative | nonnegative
        · simp only [sign.mpr negative, decide_true, if_true, abs_of_neg negative, Int.cast_neg]
          rw [neg_mul, neg_neg, back]
        · simp only [mt sign.mp (not_lt.mpr nonnegative), decide_false, abs_of_nonneg nonnegative]
          exact back.symm
      rw [Option.getD_none, whole, exact]

theorem roundedNumber_finite (number : Double) {negative : Bool} {digits : ℕ} {exponent : ℤ}
    (rounds : Binary64.round (signed negative (digits * 10 ^ exponent)) = number.value)
    (sign : number.value = 0 → negative = false) : roundedNumber negative digits exponent = .finite number := by
  obtain ⟨value, exact, small⟩ := number
  subst rounds
  rw [roundedNumber]
  split_ifs with zero minus
  · cases (sign zero).symm.trans minus
  · simp only [JsNumber.finite.injEq, Double.zero, Double.mk.injEq]
    exact zero.symm
  · rfl

theorem numberLiteral_valid (number : Double) : (numberLiteral number.value).Valid := by
  refine layout_valid _ (Decimal.digits_isDigits _) (Decimal.digits_canonical _) fun zero_digit => ?_
  have rounds := shortest_rounds number.exact
  have none_left : (shortest number.value).1 = 0 := by
    rw [← Decimal.value_digits (shortest number.value).1, zero_digit]
    rfl
  have zero : number.value = 0 := by
    rw [none_left] at rounds
    simpa [signed, show Binary64.round 0 = 0 from Double.zero.exact] using rounds.symm
  rw [shortest, if_pos zero]

theorem numberLiteral_number (number : Double) : (numberLiteral number.value).number = .finite number := by
  have sign : (numberLiteral number.value).negative = decide (number.value < 0) := by
    rw [numberLiteral, layout]
    split_ifs <;> rfl
  have value := layout_value (number.value < 0) (Decimal.digits_canonical (shortest number.value).1).ne_nil
    (shortest number.value).2
  rw [NumberLiteral.number, roundedNumber_finite number]
  · rw [sign, numberLiteral, value, Decimal.value_digits]
    exact shortest_rounds number.exact
  · intro zero
    rw [sign, zero]
    rfl

theorem parseNumber_numberText (number : Double) {rest : JsString} (ends : EndsNumber rest) :
    parseNumber (numberText number.value ++ rest) = some (.finite number, rest) := by
  rw [numberText, parseNumber_text (numberLiteral_valid number) ends, numberLiteral_number]

end Narsil.Serialization
