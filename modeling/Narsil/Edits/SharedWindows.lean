import Mathlib.Data.List.Infix
import Mathlib.Data.List.Perm.Subperm
import Narsil.Edits.Distance

/-!
# Windows that edits leave

A list read in windows of one width loses only few of them by an edit: those that
reach into what the edit takes. Elements may be expanded into blocks first.
-/
namespace Edits

variable {α β : Type*}

/-- The stretch of that width from a place on. -/
def windowAt (width : Nat) (list : List α) (place : Nat) : List α := (list.drop place).take width

theorem infix_between {window before middle after : List α}
    (within : window <:+: before ++ middle ++ after) (not_before : ¬ window <:+: before)
    (not_after : ¬ window <:+: after) :
    ∃ place < middle.length + (window.length - 1),
      windowAt window.length (before ++ middle ++ after)
        (before.length - (window.length - 1) + place) = window := by
  obtain ⟨ahead, behind, whole⟩ := within
  have reaches : before.length < ahead.length + window.length := by
    by_contra short
    apply not_before
    have front : ahead ++ window <+: before ++ middle ++ after := ⟨behind, whole⟩
    have own : before <+: before ++ middle ++ after := ⟨middle ++ after, by simp⟩
    have inside := List.prefix_of_prefix_length_le front own (by simp; omega)
    exact (List.suffix_append ahead window).isInfix.trans inside.isInfix
  have starts : ahead.length < before.length + middle.length := by
    by_contra late
    apply not_after
    have lengths := congrArg List.length whole
    simp only [List.length_append] at lengths
    have back : window ++ behind <:+ before ++ middle ++ after := ⟨ahead, by simpa using whole⟩
    have own : after <:+ before ++ middle ++ after := ⟨before ++ middle, rfl⟩
    have inside := List.suffix_of_suffix_length_le back own (by simp; omega)
    exact (List.prefix_append window behind).isInfix.trans inside.isInfix
  refine ⟨ahead.length - (before.length - (window.length - 1)), by omega, ?_⟩
  have place : before.length - (window.length - 1) +
      (ahead.length - (before.length - (window.length - 1))) = ahead.length := by omega
  rw [place, windowAt, ← whole, List.append_assoc, List.drop_left, List.take_left]

theorem length_le_between [DecidableEq α] {width : Nat} {windows : List (List α)}
    {before middle after : List α} (distinct : windows.Nodup)
    (wide : ∀ window ∈ windows, window.length = width)
    (within : ∀ window ∈ windows, window <:+: before ++ middle ++ after)
    (not_before : ∀ window ∈ windows, ¬ window <:+: before)
    (not_after : ∀ window ∈ windows, ¬ window <:+: after) :
    windows.length ≤ middle.length + (width - 1) := by
  have listed : windows ⊆ (List.range (middle.length + (width - 1))).map fun place =>
      windowAt width (before ++ middle ++ after) (before.length - (width - 1) + place) := by
    intro window member
    obtain ⟨place, less, same⟩ :=
      infix_between (within window member) (not_before window member) (not_after window member)
    rw [wide window member] at less same
    exact List.mem_map.mpr ⟨place, List.mem_range.mpr less, same⟩
  have fewer := (List.subperm_of_subset distinct listed).length_le
  simpa using fewer

section Blocks
variable [DecidableEq β] (block : α → List β)

/-- Windows of the expanded list that an edited list has none of: each edit loses those
    that reach into one block. -/
theorem Edited.lost_windows_le {width longest count : Nat} {left right : List α} {windows : List (List β)}
    (edited : Edited count left right) (bounded : ∀ x ∈ left, (block x).length ≤ longest)
    (before : List β) (distinct : windows.Nodup) (wide : ∀ window ∈ windows, window.length = width)
    (held : ∀ window ∈ windows, window <:+: before ++ left.flatMap block)
    (lost : ∀ window ∈ windows, ¬ window <:+: before ++ right.flatMap block) :
    windows.length ≤ count * (longest + (width - 1)) := by
  -- one edit: the windows it takes reach into the middle, and the others are counted by the rest
  have one_edit : ∀ {count : Nat} {left right : List α} {windows : List (List β)} {middle : List β}
      (added before : List β), middle.length ≤ longest → windows.Nodup →
      (∀ window ∈ windows, window.length = width) →
      (∀ window ∈ windows, window <:+: before ++ middle ++ left.flatMap block) →
      (∀ window ∈ windows, ¬ window <:+: before ++ added ++ right.flatMap block) →
      (∀ others : List (List β), others.Nodup → (∀ window ∈ others, window.length = width) →
        (∀ window ∈ others, window <:+: left.flatMap block) →
        (∀ window ∈ others, ¬ window <:+: right.flatMap block) →
        others.length ≤ count * (longest + (width - 1))) →
      windows.length ≤ (count + 1) * (longest + (width - 1)) := by
    intro count left right windows middle added before short distinct wide held lost rest
    let there := fun window : List β => decide (window <:+: left.flatMap block)
    have split : windows.length =
        (windows.filter there).length + (windows.filter fun window => !there window).length :=
      List.length_eq_length_filter_add there
    have by_rest : (windows.filter there).length ≤ count * (longest + (width - 1)) := by
      apply rest _ (distinct.filter _)
      · exact fun window member => wide window (List.mem_of_mem_filter member)
      · intro window member
        simpa [there] using (List.mem_filter.mp member).2
      · intro window member kept
        apply lost window (List.mem_of_mem_filter member)
        exact kept.trans (List.suffix_append _ _).isInfix
    have by_middle : (windows.filter fun window => !there window).length ≤ middle.length + (width - 1) := by
      apply length_le_between (distinct.filter _)
      · exact fun window member => wide window (List.mem_of_mem_filter member)
      · exact fun window member => held window (List.mem_of_mem_filter member)
      · intro window member kept
        apply lost window (List.mem_of_mem_filter member)
        rw [List.append_assoc]
        exact kept.trans (List.prefix_append _ _).isInfix
      · intro window member
        simpa [there] using (List.mem_filter.mp member).2
    rw [Nat.succ_mul]
    omega
  induction edited generalizing windows before with
  | nil =>
    cases windows with
    | nil => simp
    | cons window windows => exact absurd (held window (by simp)) (lost window (by simp))
  | @keep count left right x edited ih =>
    apply ih (fun y member => bounded y (by simp [member])) (before ++ block x) distinct wide
    · simpa using held
    · simpa using lost
  | @substitute count left right x y edited ih =>
    apply one_edit (block y) before (bounded x (by simp)) distinct wide
    · simpa using held
    · simpa using lost
    · intro others others_distinct others_wide there gone
      exact ih (fun z member => bounded z (by simp [member])) [] others_distinct others_wide there gone
  | @delete count left right x edited ih =>
    apply one_edit [] before (bounded x (by simp)) distinct wide
    · simpa using held
    · simpa using lost
    · intro others others_distinct others_wide there gone
      exact ih (fun z member => bounded z (by simp [member])) [] others_distinct others_wide there gone
  | @insert count left right y edited ih =>
    have nothing : ([] : List β).length ≤ longest := Nat.zero_le _
    apply one_edit (block y) before nothing distinct wide
    · simpa using held
    · simpa using lost
    · intro others others_distinct others_wide there gone
      exact ih bounded [] others_distinct others_wide there gone

theorem Edited.window_kept {width longest count : Nat} {left right : List α} {windows : List (List β)}
    (edited : Edited count left right) (bounded : ∀ x ∈ left, (block x).length ≤ longest)
    (distinct : windows.Nodup) (wide : ∀ window ∈ windows, window.length = width)
    (held : ∀ window ∈ windows, window <:+: left.flatMap block)
    (many : count * (longest + (width - 1)) < windows.length) :
    ∃ window ∈ windows, window <:+: right.flatMap block := by
  by_contra none_kept
  push Not at none_kept
  have few := edited.lost_windows_le block bounded [] distinct wide held none_kept
  omega

end Blocks

end Edits
