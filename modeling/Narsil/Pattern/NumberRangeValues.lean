import Narsil.Pattern.NumberRange

/-!
# Values between two numbers

Texts of digits as numbers, and how the texts between two bounds of one width split at the
first digit.
-/
namespace Narsil.Pattern

def IsDigits (text : List Nat) : Prop := ∀ digit ∈ text, isDigit digit

theorem isDigit_iff {codePoint : Nat} : isDigit codePoint = true ↔ ZERO ≤ codePoint ∧ codePoint ≤ NINE := by
  simp only [isDigit, Bool.and_eq_true, decide_eq_true_eq]

theorem IsDigits.head {digit : Nat} {rest : List Nat} (digits : IsDigits (digit :: rest)) :
    ZERO ≤ digit ∧ digit ≤ NINE := isDigit_iff.mp (digits digit List.mem_cons_self)

theorem IsDigits.tail {digit : Nat} {rest : List Nat} (digits : IsDigits (digit :: rest)) : IsDigits rest :=
  fun other isIn => digits other (List.mem_cons_of_mem _ isIn)

theorem IsDigits.cons {digit : Nat} {rest : List Nat} (first : ZERO ≤ digit ∧ digit ≤ NINE) (digits : IsDigits rest) :
    IsDigits (digit :: rest) := List.forall_mem_cons.mpr ⟨isDigit_iff.mpr first, digits⟩

theorem isDigits_replicate (count : Nat) {digit : Nat} (one : isDigit digit) : IsDigits (List.replicate count digit) := by
  intro other isIn
  rw [(List.mem_replicate.mp isIn).2]
  exact one

theorem IsDigits.values {text : List Nat} (digits : IsDigits text) :
    Decimal.IsDigits (text.map fun digit => digit - ZERO) := by
  intro value isIn
  obtain ⟨digit, isDigit, rfl⟩ := List.mem_map.mp isIn
  have bounds := isDigit_iff.mp (digits digit isDigit)
  simp only [ZERO, NINE] at bounds ⊢
  omega

theorem IsDigits.restored {text : List Nat} (digits : IsDigits text) :
    (text.map fun digit => digit - ZERO).map (fun value => value + ZERO) = text := by
  rw [List.map_map, List.map_congr_left, List.map_id]
  intro digit isIn
  exact Nat.sub_add_cancel (isDigit_iff.mp (digits digit isIn)).1

theorem numberOf_cons (digit : Nat) (rest : List Nat) :
    numberOf (digit :: rest) = (digit - ZERO) * 10 ^ rest.length + numberOf rest := by
  rw [numberOf, List.map_cons, Decimal.value_cons, List.length_map]
  rfl

theorem numberOf_lt {text : List Nat} (digits : IsDigits text) : numberOf text < 10 ^ text.length := by
  have below := Decimal.value_lt digits.values
  rwa [List.length_map] at below

theorem numberOf_inj {left right : List Nat} (digits : IsDigits left) (digits' : IsDigits right)
    (same : left.length = right.length) (equal : numberOf left = numberOf right) : left = right := by
  have values := Decimal.value_inj digits.values digits'.values (by simpa using same) equal
  rw [← digits.restored, values, digits'.restored]

@[simp] theorem numberOf_zeros (count : Nat) : numberOf (List.replicate count ZERO) = 0 := by
  rw [numberOf, List.map_replicate, Nat.sub_self, Decimal.value_replicate_zero]

theorem numberOf_nines (count : Nat) : numberOf (List.replicate count NINE) + 1 = 10 ^ count := by
  rw [numberOf, List.map_replicate]
  exact Decimal.value_replicate_nine count

theorem decimal_isDigits (n : Nat) : IsDigits (decimal n) := by
  intro digit isIn
  obtain ⟨value, isValue, rfl⟩ := List.mem_map.mp isIn
  have below := Decimal.digits_isDigits n value isValue
  rw [isDigit_iff]
  simp only [ZERO, NINE]
  omega

@[simp] theorem numberOf_decimal (n : Nat) : numberOf (decimal n) = n := by
  have values : (decimal n).map (fun digit => digit - ZERO) = Decimal.digits n := by
    rw [decimal, List.map_map]
    exact (List.map_congr_left fun digit _ => Nat.add_sub_cancel ..).trans (List.map_id _)
  rw [numberOf, values, Decimal.value_digits]

theorem length_decimal_le_iff (n k : Nat) : (decimal n).length ≤ k + 1 ↔ n < 10 ^ (k + 1) := by
  rw [decimal, List.length_map]
  exact Decimal.length_digits_le_iff n k

theorem length_decimal_pos (n : Nat) : 0 < (decimal n).length := by
  rw [decimal, List.length_map]
  exact Decimal.length_digits_pos n

theorem length_decimal_iff (n k : Nat) : (decimal n).length = k + 1 ↔ n < 10 ^ (k + 1) ∧ (k = 0 ∨ 10 ^ k ≤ n) := by
  have below := length_decimal_le_iff n k
  cases k with
  | zero =>
    have some_digit := length_decimal_pos n
    simp only [Nat.zero_add, true_or, and_true] at below ⊢
    omega
  | succ k =>
    have before := length_decimal_le_iff n k
    omega

theorem decimal_numberOf {text : List Nat} (digits : IsDigits text)
    (same : (decimal (numberOf text)).length = text.length) : decimal (numberOf text) = text :=
  numberOf_inj (decimal_isDigits _) digits same (numberOf_decimal _)

theorem decimal_digit {n : Nat} (small : n < 10) : decimal n = [n + ZERO] := by
  have one : IsDigits [n + ZERO] := fun digit isIn => by
    rw [List.mem_singleton.mp isIn, isDigit_iff]
    simp only [ZERO, NINE]
    omega
  have value : numberOf [n + ZERO] = n := by
    rw [numberOf_cons]
    simp [numberOf]
  have written := decimal_numberOf one (by rw [value]; exact (length_decimal_iff n 0).mpr ⟨by omega, .inl rfl⟩)
  rwa [value] at written

/-- The texts of as many digits as the bounds, with a value between theirs. -/
structure Between (low high text : List Nat) : Prop where
  length : text.length = low.length
  digits : IsDigits text
  above : numberOf low ≤ numberOf text
  below : numberOf text ≤ numberOf high

theorem between_same {low text : List Nat} (digits : IsDigits low) : Between low low text ↔ text = low := by
  constructor
  · rintro ⟨length, digits', above, below⟩
    exact numberOf_inj digits' digits length (Nat.le_antisymm below above)
  · rintro rfl
    exact ⟨rfl, digits, Nat.le_refl _, Nat.le_refl _⟩

theorem between_all {count : Nat} {text : List Nat} :
    Between (List.replicate count ZERO) (List.replicate count NINE) text ↔ text.length = count ∧ IsDigits text := by
  constructor
  · rintro ⟨length, digits, -, -⟩
    rw [List.length_replicate] at length
    exact ⟨length, digits⟩
  · rintro ⟨length, digits⟩
    have below := numberOf_lt digits
    have nines := numberOf_nines count
    rw [length] at below
    exact ⟨by rw [length, List.length_replicate], digits, by simp, by omega⟩

theorem numberOf_one (digit : Nat) : numberOf [digit] = digit - ZERO := by
  rw [numberOf_cons, List.length_nil, Nat.pow_zero, Nat.mul_one]
  rfl

theorem between_one {low high : Nat} {text : List Nat} (digits : IsDigits [low]) (digits' : IsDigits [high]) :
    Between [low] [high] text ↔ ∃ digit, text = [digit] ∧ low ≤ digit ∧ digit ≤ high := by
  have lowBounds := digits.head
  have highBounds := digits'.head
  constructor
  · rintro ⟨length, textDigits, above, below⟩
    obtain ⟨digit, rfl⟩ := List.length_eq_one_iff.mp length
    have bounds := textDigits.head
    simp only [numberOf_one] at above below
    exact ⟨digit, rfl, by omega, by omega⟩
  · rintro ⟨digit, rfl, above, below⟩
    refine ⟨rfl, IsDigits.cons ⟨by omega, by omega⟩ fun _ isIn => (nomatch isIn), ?_, ?_⟩
    · simp only [numberOf_one]
      omega
    · simp only [numberOf_one]
      omega

theorem between_lead {lead : Nat} {low high text : List Nat} (digits : IsDigits (lead :: low))
    (same : low.length = high.length) (bounded : IsDigits high) :
    Between (lead :: low) (lead :: high) text ↔ ∃ rest, text = lead :: rest ∧ Between low high rest := by
  constructor
  · rintro ⟨length, textDigits, above, below⟩
    cases text with
    | nil => cases length
    | cons digit rest =>
      have sizes : rest.length = low.length := Nat.succ.inj length
      have lead_digit := digits.head
      have digit_digit := textDigits.head
      have restLt := numberOf_lt textDigits.tail
      have highLt := numberOf_lt bounded
      simp only [numberOf_cons, ← same, sizes] at above below restLt highLt
      have lead_is : digit = lead := by
        generalize 10 ^ low.length = power at above below restLt highLt
        rcases Nat.lt_trichotomy digit lead with less | equal | more
        · have step : (digit - ZERO + 1) * power ≤ (lead - ZERO) * power := Nat.mul_le_mul_right _ (by omega)
          rw [Nat.succ_mul] at step
          omega
        · exact equal
        · have step : (lead - ZERO + 1) * power ≤ (digit - ZERO) * power := Nat.mul_le_mul_right _ (by omega)
          rw [Nat.succ_mul] at step
          omega
      subst lead_is
      exact ⟨rest, rfl, sizes, textDigits.tail, by omega, by omega⟩
  · rintro ⟨rest, rfl, sizes, restDigits, above, below⟩
    refine ⟨congrArg (· + 1) sizes, restDigits.cons digits.head, ?_, ?_⟩
    · rw [numberOf_cons, numberOf_cons, sizes]
      omega
    · rw [numberOf_cons, numberOf_cons, sizes, same]
      omega

/-- With two first digits the texts split into those that begin like one bound or the other, and
those with a digit between. -/
theorem between_split {lead lead' : Nat} {low high text : List Nat} (digits : IsDigits (lead :: low))
    (digits' : IsDigits (lead' :: high)) (same : low.length = high.length) (less : lead < lead') :
    Between (lead :: low) (lead' :: high) text ↔
      (∃ rest, text = lead :: rest ∧ Between low (List.replicate low.length NINE) rest) ∨
      (∃ digit rest, text = digit :: rest ∧ lead < digit ∧ digit < lead' ∧ rest.length = low.length ∧ IsDigits rest) ∨
      ∃ rest, text = lead' :: rest ∧ Between (List.replicate low.length ZERO) high rest := by
  have lead_digit := digits.head
  have lead_digit' := digits'.head
  have lowLt := numberOf_lt digits.tail
  have highLt := numberOf_lt digits'.tail
  have nines := numberOf_nines low.length
  rw [← same] at highLt
  constructor
  · rintro ⟨length, textDigits, above, below⟩
    cases text with
    | nil => cases length
    | cons digit rest =>
      have sizes : rest.length = low.length := Nat.succ.inj length
      have digit_digit := textDigits.head
      have restLt := numberOf_lt textDigits.tail
      simp only [numberOf_cons, ← same, sizes] at above below restLt
      generalize 10 ^ low.length = power at above below restLt lowLt highLt nines
      have from_lead : lead ≤ digit := by
        by_contra under
        have step : (digit - ZERO + 1) * power ≤ (lead - ZERO) * power := Nat.mul_le_mul_right _ (by omega)
        rw [Nat.succ_mul] at step
        omega
      have to_lead' : digit ≤ lead' := by
        by_contra beyond
        have step : (lead' - ZERO + 1) * power ≤ (digit - ZERO) * power := Nat.mul_le_mul_right _ (by omega)
        rw [Nat.succ_mul] at step
        omega
      rcases Nat.eq_or_lt_of_le from_lead with rfl | above_lead
      · exact .inl ⟨rest, rfl, sizes, textDigits.tail, by omega, by omega⟩
      · rcases Nat.eq_or_lt_of_le to_lead' with rfl | below_lead
        · refine .inr (.inr ⟨rest, rfl, ?_, textDigits.tail, by simp, by omega⟩)
          rw [sizes, List.length_replicate]
        · exact .inr (.inl ⟨digit, rest, rfl, above_lead, below_lead, sizes, textDigits.tail⟩)
  · rintro (⟨rest, rfl, sizes, restDigits, above, below⟩ | ⟨digit, rest, rfl, above, below, sizes, restDigits⟩ |
      ⟨rest, rfl, sizes, restDigits, above, below⟩)
    · have step : (lead - ZERO + 1) * 10 ^ low.length ≤ (lead' - ZERO) * 10 ^ low.length :=
        Nat.mul_le_mul_right _ (by omega)
      rw [Nat.succ_mul] at step
      refine ⟨congrArg (· + 1) sizes, restDigits.cons lead_digit, ?_, ?_⟩
      · rw [numberOf_cons, numberOf_cons, sizes]
        omega
      · rw [numberOf_cons, numberOf_cons, sizes, ← same]
        omega
    · have restLt := numberOf_lt restDigits
      rw [sizes] at restLt
      have step : (lead - ZERO + 1) * 10 ^ low.length ≤ (digit - ZERO) * 10 ^ low.length :=
        Nat.mul_le_mul_right _ (by omega)
      have step' : (digit - ZERO + 1) * 10 ^ low.length ≤ (lead' - ZERO) * 10 ^ low.length :=
        Nat.mul_le_mul_right _ (by omega)
      rw [Nat.succ_mul] at step step'
      refine ⟨congrArg (· + 1) sizes, restDigits.cons ⟨by omega, by omega⟩, ?_, ?_⟩
      · rw [numberOf_cons, numberOf_cons, sizes]
        omega
      · rw [numberOf_cons, numberOf_cons, sizes, ← same]
        omega
    · rw [List.length_replicate] at sizes
      have step : (lead - ZERO + 1) * 10 ^ low.length ≤ (lead' - ZERO) * 10 ^ low.length :=
        Nat.mul_le_mul_right _ (by omega)
      rw [Nat.succ_mul] at step
      refine ⟨congrArg (· + 1) sizes, restDigits.cons lead_digit', ?_, ?_⟩
      · rw [numberOf_cons, numberOf_cons, sizes]
        omega
      · rw [numberOf_cons, numberOf_cons, sizes, ← same]
        omega

theorem between_decimal {start last : Nat} {text : List Nat} (same : (decimal start).length = (decimal last).length) :
    Between (decimal start) (decimal last) text ↔ ∃ n, text = decimal n ∧ start ≤ n ∧ n ≤ last := by
  obtain ⟨k, width⟩ : ∃ k, (decimal start).length = k + 1 := Nat.exists_eq_succ_of_ne_zero (length_decimal_pos _).ne'
  obtain ⟨-, startLow⟩ := (length_decimal_iff start k).mp width
  obtain ⟨lastBelow, -⟩ := (length_decimal_iff last k).mp (same ▸ width)
  constructor
  · rintro ⟨length, digits, above, below⟩
    rw [numberOf_decimal] at above below
    refine ⟨numberOf text, ?_, above, below⟩
    refine (decimal_numberOf digits ?_).symm
    rw [length, width, length_decimal_iff]
    omega
  · rintro ⟨n, rfl, above, below⟩
    refine ⟨?_, decimal_isDigits n, by simpa using above, by simpa using below⟩
    rw [width, length_decimal_iff]
    omega

end Narsil.Pattern
