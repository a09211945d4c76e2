import Narsil.Ordering.CaseFolds
import Narsil.Ordering.Utf8

/-!
# The sort order

Sort strings compare by their folded code points and then by their own, well formed or
not, and sort values are totally ordered.
-/
namespace Narsil.Ordering

/-- No code point but a surrogate folds to surrogates, and it to itself. -/
structure FoldTable.KeepsSurrogates (table : FoldTable) : Prop where
  nonempty : ∀ codePoint, foldOf table codePoint ≠ []
  surrogate : ∀ codePoint, IsSurrogate codePoint → foldOf table codePoint = [codePoint]
  scalar : ∀ codePoint, ¬ IsSurrogate codePoint → ∀ point ∈ foldOf table codePoint, ¬ IsSurrogate point

theorem apartFromSurrogates_iff {codePoint : Nat} : apartFromSurrogates codePoint = true ↔ ¬ IsSurrogate codePoint := by
  rw [apartFromSurrogates, IsSurrogate, Bool.or_eq_true, decide_eq_true_eq, decide_eq_true_eq]
  omega

theorem caseFolds_single {codePoint folded : Nat} (found : caseFolds.single codePoint = some folded) :
    ¬ IsSurrogate codePoint ∧ ¬ IsSurrogate folded := by
  obtain ⟨entry, known, rfl⟩ := Option.map_eq_some_iff.mp found
  have apart := List.all_eq_true.mp singleFoldTable_apart entry (List.mem_of_find?_eq_some known)
  rw [Bool.and_eq_true, apartFromSurrogates_iff, apartFromSurrogates_iff] at apart
  have same : entry.1 = codePoint := by simpa using List.find?_some known
  exact same ▸ apart

theorem caseFolds_multi {codePoint : Nat} {folded : List Nat} (found : caseFolds.multi codePoint = some folded) :
    ¬ IsSurrogate codePoint ∧ folded ≠ [] ∧ ∀ point ∈ folded, ¬ IsSurrogate point := by
  obtain ⟨entry, known, rfl⟩ := Option.map_eq_some_iff.mp found
  have apart := List.all_eq_true.mp multiFoldTable_apart entry (List.mem_of_find?_eq_some known)
  rw [Bool.and_eq_true, Bool.and_eq_true, apartFromSurrogates_iff, List.all_eq_true] at apart
  have same : entry.1 = codePoint := by simpa using List.find?_some known
  refine ⟨same ▸ apart.1, fun none => ?_, fun point member => apartFromSurrogates_iff.mp (apart.2.2 point member)⟩
  simp [none] at apart

theorem caseFolds_keepsSurrogates : caseFolds.KeepsSurrogates where
  nonempty codePoint := by
    rw [foldOf]
    split
    · exact List.cons_ne_nil _ _
    · split
      · exact List.cons_ne_nil _ _
      · cases found : caseFolds.multi codePoint with
        | none => exact List.cons_ne_nil _ _
        | some folded => exact (caseFolds_multi found).2.1
  surrogate codePoint surrogate := by
    have high := surrogate.1
    rw [foldOf, if_neg (by omega)]
    cases single : caseFolds.single codePoint with
    | some folded => exact absurd surrogate (caseFolds_single single).1
    | none =>
      cases multi : caseFolds.multi codePoint with
      | some folded => exact absurd surrogate (caseFolds_multi multi).1
      | none => rfl
  scalar codePoint scalar point member := by
    rw [foldOf] at member
    split at member
    · rw [List.mem_singleton.mp member, IsSurrogate]
      split <;> omega
    · split at member
      · next single => exact List.mem_singleton.mp member ▸ (caseFolds_single single).2
      · cases multi : caseFolds.multi codePoint with
        | some folded =>
          rw [multi] at member
          exact (caseFolds_multi multi).2.2 point member
        | none =>
          rw [multi] at member
          exact List.mem_singleton.mp member ▸ scalar

section RawOrder
variable {table : FoldTable}

theorem scalars_of_folds (keeps : table.KeepsSurrogates) {left right folded : Nat} {lefts rights : List Nat}
    (differ : left ≠ right) (left_fold : foldOf table left = folded :: lefts)
    (right_fold : foldOf table right = folded :: rights) : ¬ IsSurrogate left ∧ ¬ IsSurrogate right := by
  by_cases left_surrogate : IsSurrogate left
  · obtain ⟨rfl, rfl⟩ := List.cons.inj ((keeps.surrogate left left_surrogate).symm.trans left_fold)
    by_cases right_surrogate : IsSurrogate right
    · obtain ⟨rfl, _⟩ := List.cons.inj ((keeps.surrogate right right_surrogate).symm.trans right_fold)
      exact absurd rfl differ
    · exact absurd left_surrogate (keeps.scalar right right_surrogate left (right_fold ▸ List.mem_cons_self))
  · refine ⟨left_surrogate, fun right_surrogate => ?_⟩
    obtain ⟨rfl, rfl⟩ := List.cons.inj ((keeps.surrogate right right_surrogate).symm.trans right_fold)
    exact keeps.scalar left left_surrogate right (left_fold ▸ List.mem_cons_self) right_surrogate

/-- Where the folds agree, the first code points that differ are no surrogates, and their
    adjusted units part as they do. -/
theorem compareLex_adjusted (keeps : table.KeepsSurrogates) {lefts rights : List Nat}
    (left_bound : ∀ point ∈ lefts, point < 0x110000) (right_bound : ∀ point ∈ rights, point < 0x110000)
    (folds : lefts.flatMap (foldOf table) = rights.flatMap (foldOf table)) :
    List.compareLex compare (lefts.flatMap fun point => adjustedUnits (unitsOf point))
        (rights.flatMap fun point => adjustedUnits (unitsOf point)) = List.compareLex compare lefts rights := by
  induction lefts generalizing rights with
  | nil =>
    cases rights with
    | nil => rfl
    | cons right rights =>
      rw [List.flatMap_nil, List.flatMap_cons] at folds
      exact absurd (List.append_eq_nil_iff.mp folds.symm).1 (keeps.nonempty right)
  | cons left lefts ih =>
    cases rights with
    | nil =>
      rw [List.flatMap_nil, List.flatMap_cons] at folds
      exact absurd (List.append_eq_nil_iff.mp folds).1 (keeps.nonempty left)
    | cons right rights =>
      obtain ⟨left_in, lefts_in⟩ := List.forall_mem_cons.mp left_bound
      obtain ⟨right_in, rights_in⟩ := List.forall_mem_cons.mp right_bound
      rw [List.flatMap_cons, List.flatMap_cons] at folds
      rw [List.flatMap_cons, List.flatMap_cons, List.compareLex_cons_cons]
      by_cases same : left = right
      · subst same
        rw [Codes.compareLex_append, ih lefts_in rights_in (List.append_cancel_left folds), Nat.compare_eq_eq.mpr rfl]
        rfl
      · obtain ⟨folded, left_fold_rest, left_fold⟩ := List.exists_cons_of_ne_nil (keeps.nonempty left)
        obtain ⟨folded', right_fold_rest, right_fold⟩ := List.exists_cons_of_ne_nil (keeps.nonempty right)
        rw [left_fold, right_fold, List.cons_append, List.cons_append] at folds
        obtain ⟨rfl, _⟩ := List.cons.inj folds
        obtain ⟨left_scalar, right_scalar⟩ := scalars_of_folds keeps same left_fold right_fold
        rcases Nat.lt_or_gt_of_ne same with below | above
        · have parts := adjustedUnits_separated.parts left right ⟨left_in, left_scalar⟩ ⟨right_in, right_scalar⟩ below
          rw [(parts.compareLex _ _).1, Nat.compare_eq_lt.mpr below]
          rfl
        · have parts := adjustedUnits_separated.parts right left ⟨right_in, right_scalar⟩ ⟨left_in, left_scalar⟩ above
          rw [(parts.compareLex _ _).2, Nat.compare_eq_gt.mpr above]
          rfl

theorem compareSortStrings_points (keeps : table.KeepsSurrogates) (left right : JsString) :
    compareSortStrings table left right =
      (List.compareLex compare (foldedCodePoints table left) (foldedCodePoints table right)).then
        (List.compareLex compare (codePoints left) (codePoints right)) := by
  rw [compareSortStrings, compareCaseFolded_eq]
  cases order : List.compareLex compare (foldedCodePoints table left) (foldedCodePoints table right) with
  | lt => rfl
  | gt => rfl
  | eq =>
    have lawful : Std.LawfulEqCmp (List.compareLex (compare : Nat → Nat → Ordering)) := inferInstance
    have folds : foldedCodePoints table left = foldedCodePoints table right := lawful.eq_of_compare order
    show compareCodePoints left right = List.compareLex compare (codePoints left) (codePoints right)
    rw [compareCodePoints_adjusted, adjustedUnits_eq, adjustedUnits_eq right,
      compareLex_adjusted keeps (codePoints_lt left) (codePoints_lt right) folds]

end RawOrder

/-- The comparison is one of a total order. -/
structure IsTotalOrder {α : Type} (comparison : α → α → Ordering) : Prop where
  antisymmetric : ∀ left right, comparison left right = (comparison right left).swap
  transitive : ∀ first second third, (comparison first second).isLE → (comparison second third).isLE →
    (comparison first third).isLE
  zero_iff_equal : ∀ left right, comparison left right = .eq ↔ left = right

theorem IsTotalOrder.of_lawful {α : Type} (comparison : α → α → Ordering) [Std.TransCmp comparison]
    [Std.LawfulEqCmp comparison] : IsTotalOrder comparison where
  antisymmetric _ _ := Std.OrientedCmp.eq_swap
  transitive _ _ _ := Std.TransCmp.isLE_trans
  zero_iff_equal _ _ := Std.LawfulEqCmp.compare_eq_iff_eq

variable (table : FoldTable)

instance : Std.LawfulEqCmp (compareSortStrings table) where
  compare_self := Std.ReflCmp.compare_self
  eq_of_compare {left right} equal := by
    rw [compareSortStrings, Ordering.then_eq_eq] at equal
    exact Std.LawfulEqCmp.eq_of_compare equal.2

theorem comparePresentValues_equal {left right : SortValue} (equal : comparePresentValues table left right = .eq) :
    left = right := by
  have texts : Std.LawfulEqCmp (compareSortStrings table) := inferInstance
  obtain ⟨ranks, values⟩ := Ordering.then_eq_eq.mp equal
  have same_rank : typeRank left = typeRank right := Nat.compare_eq_eq.mp ranks
  cases left with
  | number left =>
    cases right with
    | number right => exact congrArg SortValue.number (compare_eq_iff_eq.mp values)
    | text right => exact absurd same_rank (by simp [typeRank])
    | boolean right => exact absurd same_rank (by simp [typeRank])
  | text left =>
    cases right with
    | number right => exact absurd same_rank (by simp [typeRank])
    | text right => exact congrArg SortValue.text (texts.eq_of_compare values)
    | boolean right => exact absurd same_rank (by simp [typeRank])
  | boolean left =>
    cases right with
    | number right => exact absurd same_rank (by simp [typeRank])
    | text right => exact absurd same_rank (by simp [typeRank])
    | boolean right => cases left <;> cases right <;> first | rfl | contradiction

theorem compareComparableValues_equal {direction : SortDirection} {left right : ComparableSortValue}
    (equal : compareComparableValues table left right direction = .eq) : left = right := by
  cases left with
  | none =>
    cases right with
    | none => rfl
    | some right => contradiction
  | some left =>
    cases right with
    | none => contradiction
    | some right =>
      cases direction with
      | asc => rw [comparePresentValues_equal table equal]
      | desc => rw [comparePresentValues_equal table (Ordering.swap_eq_eq.mp equal)]

instance (direction : SortDirection) :
    Std.LawfulEqCmp fun left right => compareComparableValues table left right direction := by
  have ordered : Std.ReflCmp fun left right => compareComparableValues table left right direction := inferInstance
  exact { compare_self := ordered.compare_self, eq_of_compare := compareComparableValues_equal table }

/-- The types in their order, and a missing value last. -/
structure OrdersTypes (comparison : ComparableSortValue → ComparableSortValue → SortDirection → Ordering) : Prop where
  number_text : ∀ number text, comparison (some (.number number)) (some (.text text)) .asc = .lt
  text_boolean : ∀ text boolean, comparison (some (.text text)) (some (.boolean boolean)) .asc = .lt
  number_boolean : ∀ number boolean, comparison (some (.number number)) (some (.boolean boolean)) .asc = .lt
  null_last : ∀ value direction, comparison (some value) none direction = .lt
  descending : ∀ left right, comparison (some left) (some right) .desc = (comparison (some left) (some right) .asc).swap

end Narsil.Ordering
