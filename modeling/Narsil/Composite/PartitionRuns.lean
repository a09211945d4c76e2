import Mathlib.Data.List.Flatten
import Mathlib.Data.List.Perm.Subperm
import Narsil.Composite.VisibleDocuments

/-!
# Runs of a composite partition

Whatever the order of writes, freezes and merges, a partition shows what a plain map
under the same writes holds, and no document is live in two places.
-/
namespace Narsil.Composite

variable {Id Doc SegmentId : Type} [DecidableEq Id]
variable {partition : CompositePartition Id Doc SegmentId} {docId : Id} {document : Doc}

structure Whole (partition : CompositePartition Id Doc SegmentId) : Prop where
  distinct : Distinct partition.frozen
  named : (partition.frozen.map FrozenSegment.segmentId).Nodup
  apart : (partition.rows.map Prod.fst).Nodup

structure Inv (state : State Id Doc SegmentId) : Prop where
  whole : Whole state.partition
  merging : ∀ merge, state.merging = some merge → merge.Covers state.partition.frozen ∧
    ∀ segmentId ∈ merge.segmentIds, ¬ Unused state.partition segmentId

/-- The places a document is live in: the segments, and the tail as one more. -/
def CompositePartition.holders (partition : CompositePartition Id Doc SegmentId) (docId : Id) : Nat :=
  (partition.frozen.filter fun segment => segment.hasDocument docId).length +
    if LivePartition.has partition.live docId then 1 else 0

omit [DecidableEq Id] in
theorem Whole.frozen_apart (h : Whole partition) :
    ((frozenRows partition.frozen).map Prod.fst).Nodup := by
  have rows := h.apart
  rw [CompositePartition.rows, List.map_append] at rows
  exact (List.nodup_append.mp rows).1

omit [DecidableEq Id] in
theorem Whole.live_apart (h : Whole partition) : (partition.live.map Prod.fst).Nodup := by
  have rows := h.apart
  rw [CompositePartition.rows, List.map_append] at rows
  exact (List.nodup_append.mp rows).2.1

omit [DecidableEq Id] in
theorem Whole.not_live (h : Whole partition)
    (held : docId ∈ (frozenRows partition.frozen).map Prod.fst) :
    docId ∉ partition.live.map Prod.fst := by
  have rows := h.apart
  rw [CompositePartition.rows, List.map_append] at rows
  exact fun live => (List.nodup_append.mp rows).2.2 docId held docId live rfl

theorem has_iff {live : LivePartition Id Doc} :
    LivePartition.has live docId = true ↔ docId ∈ live.map Prod.fst :=
  Assoc.lookup_isSome

theorem holders_eq_count (h : Whole partition) (docId : Id) :
    partition.holders docId = (partition.rows.map Prod.fst).count docId := by
  have own : ∀ frozen : List (FrozenSegment Id Doc SegmentId), Distinct frozen →
      (frozen.filter fun segment => segment.hasDocument docId).length =
        ((frozenRows frozen).map Prod.fst).count docId := by
    intro frozen distinct
    induction frozen with
    | nil => rfl
    | cons segment rest ih =>
      have here := distinct segment (by simp)
      have later := ih fun other member => distinct other (by simp [member])
      rw [frozenRows_cons, List.map_append, List.count_append,
        (FrozenSegment.survivors_distinct here).count, ← later, List.filter_cons]
      by_cases live : segment.hasDocument docId = true
      · rw [if_pos live, if_pos ((FrozenSegment.hasDocument_iff here).mp live), List.length_cons]
        omega
      · rw [if_neg live, if_neg fun member => live ((FrozenSegment.hasDocument_iff here).mpr member)]
        omega
  rw [CompositePartition.holders, own _ h.distinct, CompositePartition.rows, List.map_append,
    List.count_append, h.live_apart.count]
  simp only [has_iff]

/-- The rows once the document of an id is replaced. -/
def Replaces (rows rows' : List (Id × Doc)) (docId : Id) (document : Doc) : Prop :=
  (rows'.map Prod.fst).Nodup ∧
    ∀ other, Assoc.lookup rows' other =
      if other = docId then some document else Assoc.lookup rows other

theorem lookup_snoc (rows : List (Id × Doc)) (missing : docId ∉ rows.map Prod.fst)
    (document : Doc) (other : Id) :
    Assoc.lookup (rows ++ [(docId, document)]) other =
      if other = docId then some document else Assoc.lookup rows other := by
  rw [Assoc.lookup_append]
  by_cases same : other = docId
  · subst same
    rw [Assoc.lookup_eq_none.mpr missing]
    simp [Assoc.lookup]
  · simp [Assoc.lookup, same, Ne.symm same]

theorem replaces_erase {rows : List (Id × Doc)} (apart : (rows.map Prod.fst).Nodup) (docId : Id)
    (document : Doc) : Replaces rows (Assoc.erase rows docId ++ [(docId, document)]) docId document := by
  have missing : docId ∉ (Assoc.erase rows docId).map Prod.fst := Assoc.not_mem_keys_erase
  constructor
  · rw [List.map_append, List.nodup_append]
    refine ⟨apart.sublist ((Assoc.erase_sublist _ _).map _), by simp, ?_⟩
    rintro held member other new rfl
    have same : held = docId := by simpa using new
    exact missing (same ▸ member)
  · intro other
    rw [lookup_snoc _ missing, Assoc.lookup_erase]
    split <;> rfl

/-- What a write leaves: the same segments with fewer survivors, and the documents of the
    plain map under the same write. -/
structure Keeps (before after : CompositePartition Id Doc SegmentId) (documents : Id → Option Doc) :
    Prop where
  whole : Whole after
  shrinks : List.Forall₂ Shrinks before.frozen after.frozen
  reads : ∀ other, Assoc.lookup after.rows other = documents other

theorem Whole.keeps (h : Whole partition) {live : LivePartition Id Doc}
    {frozen : List (FrozenSegment Id Doc SegmentId)} {documents : Id → Option Doc}
    (shrinks : List.Forall₂ Shrinks partition.frozen frozen)
    (apart : ((frozenRows frozen ++ live).map Prod.fst).Nodup)
    (reads : ∀ other, Assoc.lookup (frozenRows frozen ++ live) other = documents other) :
    Keeps partition ⟨live, frozen⟩ documents where
  whole :=
    { distinct := Shrinks.distinct shrinks h.distinct
      named := shrinks_names shrinks ▸ h.named
      apart := apart }
  shrinks := shrinks
  reads := reads

variable (schema : Schema Doc)

omit [DecidableEq Id] in
theorem mem_rows_keys :
    docId ∈ partition.rows.map Prod.fst ↔
      docId ∈ (frozenRows partition.frozen).map Prod.fst ∨ docId ∈ partition.live.map Prod.fst := by
  rw [CompositePartition.rows, List.map_append, List.mem_append]

theorem frozenOwner_none (h : Whole partition) :
    partition.frozenOwner docId = none ↔ docId ∉ (frozenRows partition.frozen).map Prod.fst := by
  rw [← frozenOwner_isSome h.distinct, Option.isSome_iff_ne_none, not_not]

/-- How a write ends: it is refused where the plain map is not changed, and otherwise
    leaves what the plain map holds. -/
def Ends (partition : CompositePartition Id Doc SegmentId) (call : Call Id Doc SegmentId)
    (outcome : Except (NarsilError Id) (CompositePartition Id Doc SegmentId)) : Prop :=
  match outcome with
  | .error _ => call.applied schema (Assoc.lookup partition.rows) = Assoc.lookup partition.rows
  | .ok after => Keeps partition after (call.applied schema (Assoc.lookup partition.rows))

theorem insert_ends (h : Whole partition) (docId : Id) (document : Doc) :
    Ends schema partition (.insert docId document) (partition.insert schema docId document) := by
  rw [CompositePartition.insert]
  cases owner : partition.frozenOwner docId with
  | some segment =>
    have held : docId ∈ partition.rows.map Prod.fst :=
      mem_rows_keys.mpr (Or.inl ((frozenOwner_isSome h.distinct).mp (by simp [owner])))
    have present := Assoc.lookup_isSome.mpr held
    simp [Ends, Call.applied, Option.isNone_iff_eq_none, Option.ne_none_iff_isSome.mpr present]
  | none =>
    have missing := (frozenOwner_none h).mp owner
    rw [LivePartition.insert]
    by_cases held : LivePartition.has partition.live docId = true
    · have present := Assoc.lookup_isSome.mpr (mem_rows_keys.mpr (Or.inr (has_iff.mp held)))
      simp [held, Ends, Call.applied, Option.ne_none_iff_isSome.mpr present]
    · by_cases accepted : schema.accepts document = true
      · have absent : docId ∉ partition.rows.map Prod.fst := by
          rw [mem_rows_keys]
          exact not_or.mpr ⟨missing, fun live => held (has_iff.mpr live)⟩
        simp only [held, accepted, Bool.false_eq_true, if_false, if_true, Ends]
        have stored := replaces_erase h.apart docId document
        rw [Assoc.erase_of_not_mem absent] at stored
        have rows : partition.rows ++ [(docId, document)] =
            frozenRows partition.frozen ++ (partition.live ++ [(docId, document)]) :=
          List.append_assoc ..
        rw [rows] at stored
        apply h.keeps (unchanged_shrinks _) stored.1
        intro other
        rw [Call.applied, if_pos (by simp [Assoc.lookup_eq_none.mpr absent, accepted])]
        exact stored.2 other
      · simp [held, accepted, Ends, Call.applied]

theorem update_ends (h : Whole partition) (docId : Id) (document : Doc) :
    Ends schema partition (.update docId document) (partition.update schema docId document) := by
  rw [CompositePartition.update]
  cases owner : partition.frozenOwner docId with
  | none =>
    have missing := (frozenOwner_none h).mp owner
    have read : Assoc.lookup partition.rows docId = Assoc.lookup partition.live docId := by
      rw [CompositePartition.rows, Assoc.lookup_append, Assoc.lookup_eq_none.mpr missing]
      rfl
    rw [LivePartition.update]
    cases stored : Assoc.lookup partition.live docId with
    | none => simp [Ends, Call.applied, read, stored]
    | some old =>
      by_cases accepted : schema.accepts document = true
      · have changed : ∀ other, (Call.update docId document : Call Id Doc SegmentId).applied schema
            (Assoc.lookup partition.rows) other =
            if other = docId then some document else Assoc.lookup partition.rows other := by
          simp [Call.applied, read, stored, accepted]
        simp only [accepted, Bool.not_true, Bool.false_eq_true, if_false]
        by_cases reindexed : schema.textFieldsChanged old document = true
        · simp only [reindexed, if_true]
          -- The document is taken out of the tail and stored at its end.
          have replaced := replaces_erase h.apart docId document
          rw [CompositePartition.rows, Assoc.erase_append, Assoc.erase_of_not_mem missing,
            List.append_assoc] at replaced
          exact h.keeps (unchanged_shrinks _) replaced.1 fun other =>
            (replaced.2 other).trans (changed other).symm
        · simp only [reindexed, Bool.false_eq_true, if_false]
          apply h.keeps (unchanged_shrinks _)
          · rw [List.map_append, List.nodup_append]
            refine ⟨h.frozen_apart, Assoc.set_distinct h.live_apart docId document, ?_⟩
            rintro held frozen other live rfl
            rcases Assoc.mem_keys_set.mp live with rfl | before
            · exact missing frozen
            · exact h.not_live frozen before
          · intro other
            rw [changed, CompositePartition.rows, Assoc.lookup_append, Assoc.lookup_append,
              Assoc.lookup_set]
            by_cases same : other = docId
            · subst same
              simp [Assoc.lookup_eq_none.mpr missing]
            · simp [same]
      · simp [accepted, Ends, Call.applied]
  | some segment =>
    have owned : (partition.frozenOwner docId).isSome = true := by simp [owner]
    have held := (frozenOwner_isSome h.distinct).mp owned
    have absent := h.not_live held
    have away : LivePartition.has partition.live docId = false := by
      rw [← Bool.not_eq_true, has_iff]
      exact absent
    rw [LivePartition.insert]
    by_cases accepted : schema.accepts document = true
    · simp only [away, accepted, Bool.false_eq_true, if_false, if_true, Ends]
      have replaced := replaces_erase h.apart docId document
      rw [CompositePartition.rows, Assoc.erase_append, Assoc.erase_of_not_mem absent,
        ← tombstoneInOwner_rows h.distinct h.frozen_apart, List.append_assoc] at replaced
      apply h.keeps (tombstoneInOwner_shrinks h.distinct docId) replaced.1
      intro other
      have present := Assoc.lookup_isSome.mpr (mem_rows_keys.mpr (Or.inl held))
      rw [Call.applied, if_pos ⟨present, accepted⟩]
      exact replaced.2 other
    · simp [away, accepted, Ends, Call.applied]

theorem remove_ends (h : Whole partition) (docId : Id) :
    Ends schema partition (.remove docId) (partition.remove docId) := by
  rw [CompositePartition.remove]
  have erased_apart : ((Assoc.erase partition.rows docId).map Prod.fst).Nodup :=
    h.apart.sublist ((Assoc.erase_sublist _ _).map _)
  by_cases held : LivePartition.has partition.live docId = true
  · have live := has_iff.mp held
    have missing : docId ∉ (frozenRows partition.frozen).map Prod.fst := fun frozen =>
      h.not_live frozen live
    obtain ⟨stored, found⟩ := Option.isSome_iff_exists.mp (Assoc.lookup_isSome.mpr live)
    simp only [held, if_true, LivePartition.remove, found, Ends]
    rw [CompositePartition.rows, Assoc.erase_append, Assoc.erase_of_not_mem missing] at erased_apart
    apply h.keeps (unchanged_shrinks _) erased_apart
    intro other
    simp only [Call.applied, ← Assoc.lookup_erase]
    rw [CompositePartition.rows, Assoc.erase_append, Assoc.erase_of_not_mem missing]
  · have absent : docId ∉ partition.live.map Prod.fst := fun live => held (has_iff.mpr live)
    simp only [held, Bool.false_eq_true, if_false]
    cases owner : partition.frozenOwner docId with
    | none =>
      have missing := (frozenOwner_none h).mp owner
      funext other
      simp only [Call.applied]
      split
      · next same =>
        subst same
        exact (Assoc.lookup_eq_none.mpr (mem_rows_keys.not.mpr (not_or.mpr ⟨missing, absent⟩))).symm
      · rfl
    | some segment =>
      rw [CompositePartition.rows, Assoc.erase_append, Assoc.erase_of_not_mem absent,
        ← tombstoneInOwner_rows h.distinct h.frozen_apart] at erased_apart
      apply h.keeps (tombstoneInOwner_shrinks h.distinct docId) erased_apart
      intro other
      simp only [Call.applied, ← Assoc.lookup_erase]
      rw [CompositePartition.rows, Assoc.erase_append, Assoc.erase_of_not_mem absent,
        tombstoneInOwner_rows h.distinct h.frozen_apart]

variable [DecidableEq SegmentId] {state state' : State Id Doc SegmentId}

omit [DecidableEq Id] in
theorem mapM_forall₂ {α β : Type} {f : α → Option β} {xs : List α} {ys : List β}
    (mapped : xs.mapM f = some ys) : List.Forall₂ (fun x y => f x = some y) xs ys := by
  induction xs generalizing ys with
  | nil =>
    cases mapped
    exact List.Forall₂.nil
  | cons x rest ih =>
    simp only [List.mapM_cons, Option.pure_def, Option.bind_eq_bind, Option.bind_eq_some_iff,
      Option.some.injEq] at mapped
    obtain ⟨y, found, others, later, rfl⟩ := mapped
    exact List.Forall₂.cons found (ih later)

omit [DecidableEq Id] in
theorem frozenSegmentsById_named {segmentIds : List SegmentId}
    {segments : List (FrozenSegment Id Doc SegmentId)}
    (resolved : partition.frozenSegmentsById segmentIds = some segments) :
    segments.map FrozenSegment.segmentId = segmentIds ∧ segments ⊆ partition.frozen := by
  have found := mapM_forall₂ resolved
  clear resolved
  induction found with
  | nil => simp
  | cons head _ ih =>
    have same := List.find?_some head
    refine ⟨by rw [List.map_cons, ih.1, of_decide_eq_true same], ?_⟩
    apply List.cons_subset.mpr
    exact ⟨List.mem_reverse.mp (List.mem_of_find?_eq_some head), ih.2⟩

omit [DecidableEq Id] in
theorem Whole.covers (h : Whole partition) {segmentIds : List SegmentId}
    {segments : List (FrozenSegment Id Doc SegmentId)} (distinct : segmentIds.Nodup)
    (resolved : partition.frozenSegmentsById segmentIds = some segments) :
    (Merge.mk segmentIds (mergeDocuments segments)).Covers partition.frozen := by
  obtain ⟨named, held⟩ := frozenSegmentsById_named resolved
  have read : ∀ segment ∈ partition.frozen, segment.segmentId ∈ segmentIds → segment ∈ segments := by
    intro segment member picked
    rw [← named] at picked
    obtain ⟨other, inside, same⟩ := List.mem_map.mp picked
    rwa [← List.inj_on_of_nodup_map h.named (held inside) member same]
  have segments_nodup : segments.Nodup := (named ▸ distinct).of_map _
  refine ⟨?_, ?_, ?_⟩
  · have part : segments.Subperm partition.frozen := List.subperm_of_subset segments_nodup held
    obtain ⟨order, same, sublist⟩ := part
    have rows : (frozenRows order).Sublist (frozenRows partition.frozen) := sublist.flatMap _
    have kept := h.frozen_apart.sublist (rows.map Prod.fst)
    exact ((same.flatMap_right _).map Prod.fst).nodup_iff.mp kept
  · intro segment member picked row kept
    exact List.mem_flatMap.mpr ⟨segment, read segment member picked, kept⟩
  · intro row member
    obtain ⟨segment, inside, kept⟩ := List.mem_flatMap.mp member
    refine ⟨segment, held inside, ?_, ?_⟩
    · exact named ▸ List.mem_map_of_mem inside
    · exact List.mem_map_of_mem (segment.survivors_sublist.subset kept)

omit [DecidableEq SegmentId] in
theorem Inv.after (h : Inv state) {call : Call Id Doc SegmentId}
    {outcome : Except (NarsilError Id) (CompositePartition Id Doc SegmentId)}
    (ends : Ends schema state.partition call outcome) :
    Inv (state.after outcome) ∧ ∀ other, Assoc.lookup (state.after outcome).partition.rows other =
      call.applied schema (Assoc.lookup state.partition.rows) other := by
  cases outcome with
  | error refused => exact ⟨h, fun other => (congrFun ends other).symm⟩
  | ok after =>
    refine ⟨⟨ends.whole, ?_⟩, ends.reads⟩
    intro merge running
    obtain ⟨covers, named⟩ := h.merging merge running
    refine ⟨covers.shrink ends.shrinks, fun segmentId picked unused => named segmentId picked ?_⟩
    intro segment member
    obtain ⟨segment', after', shrinks⟩ := related_after ends.shrinks member
    exact shrinks.segmentId ▸ unused segment' after'

theorem swap_distinct {merge : Merge Id Doc SegmentId}
    {frozen : List (FrozenSegment Id Doc SegmentId)} (covers : merge.Covers frozen)
    (distinct : Distinct frozen) (named : (frozen.map FrozenSegment.segmentId).Nodup)
    {segmentId : SegmentId} (unused : ∀ segment ∈ frozen, segment.segmentId ≠ segmentId) :
    let swapped := swapFrozenSegmentList frozen merge.segmentIds ⟨segmentId, merge.documents, []⟩
    Distinct swapped ∧ (swapped.map FrozenSegment.segmentId).Nodup := by
  intro swapped
  let dropped := frozen.filter fun segment => segment.segmentId ∈ merge.segmentIds
  let kept := frozen.filter fun segment => segment.segmentId ∉ merge.segmentIds
  have fresh : (⟨segmentId, merge.documents, []⟩ : FrozenSegment Id Doc SegmentId).ids.Nodup :=
    covers.distinct
  obtain ⟨named_so, held, -⟩ := maskRemoved_spec dropped
    (dropped.flatMap FrozenSegment.tombstonedDocIds) fresh
  have kept_sublist : kept.Sublist frozen := List.filter_sublist
  constructor
  · intro segment member
    rcases List.mem_append.mp member with before | new
    · exact distinct segment (kept_sublist.subset before)
    · rw [List.mem_singleton.mp new, FrozenSegment.ids, held]
      exact fresh
  · change ((kept ++ [_]).map FrozenSegment.segmentId).Nodup
    rw [List.map_append, List.nodup_append]
    refine ⟨named.sublist (kept_sublist.map _), by simp, ?_⟩
    rintro name before other new rfl
    obtain ⟨segment, member, rfl⟩ := List.mem_map.mp before
    apply unused segment (kept_sublist.subset member)
    rw [List.map_singleton, List.mem_singleton, named_so] at new
    exact new

omit [DecidableEq Id] [DecidableEq SegmentId] in
theorem freezeLiveTail_cases (partition : CompositePartition Id Doc SegmentId)
    (freeze : Option SegmentId) :
    partition.freezeLiveTail freeze = partition ∨
      ∃ segmentId, freeze = some segmentId ∧ partition.freezeLiveTail freeze =
        ⟨[], partition.frozen ++ [⟨segmentId, partition.live, []⟩]⟩ := by
  unfold CompositePartition.freezeLiveTail
  split
  · exact Or.inl rfl
  · cases freeze with
    | none => exact Or.inl rfl
    | some segmentId => exact Or.inr ⟨segmentId, rfl, rfl⟩

omit [DecidableEq Id] [DecidableEq SegmentId] in
theorem Inv.freeze (h : Inv state) {freeze : Option SegmentId}
    (unused : ∀ segmentId ∈ freeze, Unused state.partition segmentId) :
    Inv { state with partition := state.partition.freezeLiveTail freeze } ∧
      (state.partition.freezeLiveTail freeze).rows = state.partition.rows := by
  rcases freezeLiveTail_cases state.partition freeze with same | ⟨segmentId, rfl, moved⟩
  · rw [same]
    exact ⟨h, rfl⟩
  · have free := unused segmentId rfl
    have rows : (state.partition.freezeLiveTail (some segmentId)).rows = state.partition.rows := by
      rw [moved, CompositePartition.rows, CompositePartition.rows, frozenRows_append, List.append_nil]
      simp [frozenRows, survivors_fresh]
    have whole : Whole (state.partition.freezeLiveTail (some segmentId)) := by
      refine ⟨?_, ?_, rows ▸ h.whole.apart⟩
      · rw [moved]
        intro segment member
        rcases List.mem_append.mp member with before | new
        · exact h.whole.distinct segment before
        · rw [List.mem_singleton.mp new]
          exact h.whole.live_apart
      · rw [moved, List.map_append, List.nodup_append]
        refine ⟨h.whole.named, by simp, ?_⟩
        rintro name before other new rfl
        obtain ⟨segment, member, rfl⟩ := List.mem_map.mp before
        apply free segment member
        simpa using new
    refine ⟨⟨whole, ?_⟩, rows⟩
    intro merge running
    obtain ⟨covers, named⟩ := h.merging merge running
    rw [moved]
    refine ⟨covers.add fun picked => named segmentId picked free, fun name picked unnamed => ?_⟩
    exact named name picked fun segment member => unnamed segment (by simp [member])

theorem Inv.next (h : Inv state) {call : Call Id Doc SegmentId}
    (step : next schema state call = some state') :
    Inv state' ∧ ∀ other, Assoc.lookup state'.partition.rows other =
      call.applied schema (Assoc.lookup state.partition.rows) other := by
  cases call with
  | insert docId document =>
    obtain rfl := Option.some.inj step
    exact h.after schema (insert_ends schema h.whole docId document)
  | update docId document =>
    obtain rfl := Option.some.inj step
    exact h.after schema (update_ends schema h.whole docId document)
  | remove docId =>
    obtain rfl := Option.some.inj step
    exact h.after schema (remove_ends schema h.whole docId)
  | freezeLiveTail freeze =>
    simp only [Composite.next, Option.ite_none_right_eq_some, Option.some.injEq] at step
    obtain ⟨unused, rfl⟩ := step
    obtain ⟨kept, rows⟩ := h.freeze unused
    exact ⟨kept, fun other => congrArg (Assoc.lookup · other) rows⟩
  | readSegments segmentIds =>
    simp only [Composite.next, Option.ite_none_left_eq_some, Option.map_eq_some_iff, not_or,
      not_not] at step
    obtain ⟨⟨-, distinct⟩, segments, resolved, rfl⟩ := step
    refine ⟨⟨h.whole, ?_⟩, fun _ => rfl⟩
    rintro _ ⟨⟩
    refine ⟨h.whole.covers distinct resolved, fun segmentId picked unused => ?_⟩
    obtain ⟨named, held⟩ := frozenSegmentsById_named resolved
    rw [← named] at picked
    obtain ⟨segment, member, same⟩ := List.mem_map.mp picked
    exact unused segment (held member) same
  | swapSegments segmentId =>
    simp only [Composite.next] at step
    cases running : state.merging with
    | none => simp [running] at step
    | some merge =>
      simp only [running, Option.ite_none_right_eq_some, Option.some.injEq] at step
      obtain ⟨unused, rfl⟩ := step
      obtain ⟨covers, -⟩ := h.merging merge running
      have swapped := swap_perm covers h.whole.distinct h.whole.frozen_apart segmentId
      have rows := swapped.append_right state.partition.live
      obtain ⟨distinct, named⟩ := swap_distinct covers h.whole.distinct h.whole.named unused
      have apart := (rows.map Prod.fst).nodup_iff.mpr h.whole.apart
      refine ⟨⟨⟨distinct, named, apart⟩, by simp⟩, fun other => ?_⟩
      exact Assoc.lookup_perm apart rows other
  | abandonMerge =>
    obtain rfl := Option.some.inj step
    exact ⟨⟨h.whole, by simp⟩, fun _ => rfl⟩

omit [DecidableEq Id] [DecidableEq SegmentId] in
theorem empty_inv : Inv (State.empty : State Id Doc SegmentId) where
  whole := ⟨by simp [State.empty, Distinct], by simp [State.empty], by
    simp [State.empty, CompositePartition.rows, frozenRows]⟩
  merging := by simp [State.empty]

theorem run_inv (calls : List (Call Id Doc SegmentId)) (h : Inv state)
    (reached : Transition.run (next schema) state calls = some state') :
    Inv state' ∧ Assoc.lookup state'.partition.rows =
      calls.foldl (Call.applied schema) (Assoc.lookup state.partition.rows) := by
  induction calls generalizing state with
  | nil =>
    cases reached
    exact ⟨h, rfl⟩
  | cons call rest ih =>
    rw [Transition.run_cons, Option.bind_eq_some_iff] at reached
    obtain ⟨mid, step, later⟩ := reached
    obtain ⟨kept, reads⟩ := h.next schema step
    obtain ⟨last, same⟩ := ih kept later
    rw [List.foldl_cons, ← funext reads]
    exact ⟨last, same⟩

/-- A document updated between the read of a merge and its swap. -/
def sampleCalls : List (Call Nat String Nat) :=
  [.insert 1 "old", .freezeLiveTail (some 10), .insert 2 "kept", .freezeLiveTail (some 11),
    .readSegments [10, 11], .update 1 "new", .freezeLiveTail (some 12), .swapSegments 13, .remove 2]

end Narsil.Composite
