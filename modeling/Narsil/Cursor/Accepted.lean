import Narsil.Cursor.Refusals

/-!
# What an accepted cursor holds

Whatever text a client sends back as a cursor, one that is decoded keeps every rule of a cursor
that a page builds.
-/
namespace Narsil.Cursor
open Narsil.Ordering

variable {encoded : JsString}

theorem bind_ok {α β : Type} {made : Except NarsilError α} {next : α → Except NarsilError β} {result : β}
    (accepted : (made >>= next) = .ok result) : ∃ value, made = .ok value ∧ next value = .ok result := by
  cases made with
  | error error => cases accepted
  | ok value => exact ⟨value, rfl, accepted⟩

theorem takeCodePoints_of_le {count : Nat} {value : JsString} (fits : (codePoints value).length ≤ count) :
    takeCodePoints count value = value := by
  fun_induction takeCodePoints count value with
  | case1 value =>
    rw [codePoints.eq_def] at fits
    split at fits
    · rfl
    · cases fits
    · split at fits <;> cases fits
  | case2 | case3 => rfl
  | case4 count unit low rest pair ih => simp_all [codePoints]
  | case5 count unit low rest single ih =>
    rw [codePoints, if_neg single] at fits
    rw [ih (Nat.succ_le_succ_iff.mp fits)]

theorem decodeSortValue_reduced {json : Json} {value : ComparableSortValue}
    (accepted : decodeSortValue encoded json = .ok value) : toComparableSortValue (rawOf value) = value := by
  cases json with
  | null | boolean =>
    cases accepted
    rfl
  | number number =>
    cases number with
    | finite => cases accepted; rfl
    | infinite | nan => cases accepted
  | string text =>
    rw [decodeSortValue] at accepted
    split at accepted
    · cases accepted
    next within =>
      cases accepted
      rw [exceedsCodePoints_eq, decide_eq_true_eq, Nat.not_lt] at within
      rw [rawOf, toComparableSortValue, truncateSortString, takeCodePoints_of_le within, ite_self]
  | array | object => cases accepted

theorem decodeSortKey_reduced {json : Json} {key : List ComparableSortValue}
    (accepted : decodeSortKey json encoded = .ok key) :
    key.length ≤ MAX_SORT_FIELDS ∧ ∀ value ∈ key, toComparableSortValue (rawOf value) = value := by
  have each : ∀ (entries : List Json) (key : List ComparableSortValue),
      entries.mapM (decodeSortValue encoded) = .ok key →
      key.length = entries.length ∧ ∀ value ∈ key, toComparableSortValue (rawOf value) = value := by
    intro entries
    induction entries with
    | nil =>
      intro key decoded
      cases decoded
      simp
    | cons json entries ih =>
      intro key decoded
      rw [List.mapM_cons] at decoded
      obtain ⟨value, first, decoded⟩ := bind_ok decoded
      obtain ⟨rest, later, decoded⟩ := bind_ok decoded
      cases decoded
      obtain ⟨size, reduced⟩ := ih rest later
      exact ⟨congrArg Nat.succ size, List.forall_mem_cons.mpr ⟨decodeSortValue_reduced first, reduced⟩⟩
  cases json with
  | array entries =>
    rw [decodeSortKey] at accepted
    split at accepted
    · cases accepted
    next few =>
      obtain ⟨size, reduced⟩ := each entries key accepted
      exact ⟨size.trans_le (Nat.not_lt.mp few), reduced⟩
  | null | boolean | number | string | object => cases accepted

theorem decodeAnchor_named {field : Option Json} {anchor : JsString} (accepted : decodeAnchor encoded field = .ok anchor) :
    anchor ≠ [] ∧ (codePoints anchor).length ≤ MAX_CURSOR_ANCHOR_CODE_POINTS := by
  rw [decodeAnchor.eq_def] at accepted
  split at accepted
  · split at accepted
    · cases accepted
    next some_ =>
      split at accepted
      · cases accepted
      next short =>
        cases accepted
        rw [exceedsCodePoints_eq, decide_eq_true_eq, Nat.not_lt] at short
        exact ⟨fun empty => some_ (by rw [empty]; rfl), short⟩
  · cases accepted

theorem decodeBinding_bound {field : Option Json} {binding : JsString}
    (accepted : decodeBinding encoded field = .ok binding) : isBinding binding := by
  rw [decodeBinding.eq_def] at accepted
  split at accepted
  · split at accepted
    next bound => cases accepted; exact bound
    · cases accepted
  · cases accepted

theorem decodeScore_finite {field : Option Json} {score : Option JsNumber}
    (accepted : decodeScore encoded field = .ok score) :
    (∀ number, score = some number → number.isFinite) ∧ (field = none → score = none) := by
  rw [decodeScore.eq_def] at accepted
  split at accepted
  · cases accepted; simp
  · cases accepted
    refine ⟨?_, by simp⟩
    rintro number ⟨⟩
    rfl
  · cases accepted

theorem decodeDepth_countable {field : Option Json} {depth : Nat} (accepted : decodeDepth encoded field = .ok depth) :
    depth ≤ MAX_SAFE_INTEGER := by
  rw [decodeDepth.eq_def] at accepted
  split at accepted
  · cases accepted; exact Nat.zero_le _
  · split at accepted
    next safe =>
      cases accepted
      simp only [isSafeInteger, Bool.and_eq_true, decide_eq_true_eq] at safe
      exact safe.1.2
    · cases accepted
  · cases accepted

theorem decodeFields_sound {host : CursorHost} {members : List (JsString × Json)} {cursor : PageCursor}
    (accepted : decodeFields host encoded members = .ok cursor) :
    cursor.Sound ∧ cursor.depth.isSome := by
  rw [decodeFields] at accepted
  generalize Json.field members "k" = sortField, Json.field members "s" = scoreField at accepted
  split at accepted
  · cases accepted
  obtain ⟨binding, bound, accepted⟩ := bind_ok accepted
  obtain ⟨anchor, named, accepted⟩ := bind_ok accepted
  obtain ⟨score, scored, accepted⟩ := bind_ok accepted
  split at accepted
  · cases accepted
  next oneMode =>
  obtain ⟨depth, counted, accepted⟩ := bind_ok accepted
  obtain ⟨sortKey, sorted, accepted⟩ := bind_ok accepted
  obtain ⟨sortSignature, -, accepted⟩ := bind_ok accepted
  split at accepted
  · cases accepted
  next together =>
  cases accepted
  obtain ⟨nonempty, short⟩ := decodeAnchor_named named
  obtain ⟨finite, unscored⟩ := decodeScore_finite scored
  -- The sort values are there exactly where the text has a "k".
  have keyed : (∀ key, sortKey = some key → key.length ≤ MAX_SORT_FIELDS ∧
      ∀ value ∈ key, toComparableSortValue (rawOf value) = value) ∧ (sortField = none → sortKey = none) := by
    cases sortField with
    | none =>
      cases sorted
      simp
    | some field =>
      rw [Option.mapM_some] at sorted
      obtain ⟨key, decoded, sorted⟩ := bind_ok sorted
      cases sorted
      refine ⟨?_, by simp⟩
      rintro other ⟨⟩
      exact decodeSortKey_reduced decoded
  refine ⟨⟨decodeBinding_bound bound, nonempty, short, finite, ?_, ?_, fun key some_ => (keyed.1 key some_).1,
    fun key some_ => (keyed.1 key some_).2, ?_⟩, rfl⟩
  · cases sortKey <;> cases sortSignature <;> simp_all
  · intro some_
    apply unscored
    cases scoreField with
    | none => rfl
    | some score =>
      cases sortField with
      | none => rw [keyed.2 rfl] at some_; cases some_
      | some field => exact absurd rfl oneMode
  · rintro count ⟨⟩
    exact decodeDepth_countable counted

end Narsil.Cursor
