import Narsil.Cursor.Pagination
import Narsil.Distribution.MergeEntries
import Narsil.Ranking.Placing
import Mathlib.Data.Rat.Floor

/-!
# Pinned documents on a page

A pinned document takes a fixed place, and where the query found it too it leaves the place
it had. One process places the pins into its whole ranking and then cuts the page. A cluster
merges no further than the page reaches: it places the pins above that depth into the cut
ranking, so a pin that leaves the cut for a place below it leaves a row short.
-/
namespace Narsil.Distribution
open Narsil.Ordering Narsil.Ranking
open Narsil.Cursor (Hit)

structure WirePinnedEntry where
  docId : JsString
  position : ℚ
  deriving DecidableEq, Repr

/-- Each document where it is listed first; `seen` are the ones met so far. -/
def dedupeUnseen (seen : List JsString) : List WirePinnedEntry → List WirePinnedEntry
  | [] => []
  | entry :: pinned =>
    if entry.docId ∈ seen then dedupeUnseen seen pinned
    else entry :: dedupeUnseen (entry.docId :: seen) pinned

def dedupePinnedEntries (pinned : List WirePinnedEntry) : List WirePinnedEntry := dedupeUnseen [] pinned

/-- By position; a sort keeps pins of one position in their order. -/
def sortByPosition (pinned : List WirePinnedEntry) : List WirePinnedEntry :=
  pinned.insertionSort fun a b => a.position ≤ b.position

/-- `result.splice(Math.max(0, Math.min(position, result.length)), 0, placed)`, which drops a fraction. -/
def spliceAt {α : Type*} (result : List α) (position : ℚ) (placed : α) : List α :=
  let start := ⌊max 0 (min position result.length)⌋₊
  result.take start ++ placed :: result.drop start

structure LocalPlacement where
  hits : List Hit
  placedFromOutside : Nat
  deriving DecidableEq, Repr

/-- One turn of the loop of `placePinned`. -/
def placePin (listedPins : List JsString) (resolveDoc : JsString → Option Hit) (placement : LocalPlacement)
    (entry : WirePinnedEntry) : LocalPlacement :=
  match resolveDoc entry.docId with
  | none => placement
  | some doc =>
    { hits := spliceAt placement.hits entry.position doc
      placedFromOutside := placement.placedFromOutside + if entry.docId ∈ listedPins then 0 else 1 }

def placePinned (hits : List Hit) (pinned : List WirePinnedEntry) (resolveDoc : JsString → Option Hit) :
    LocalPlacement :=
  let deduped := dedupePinnedEntries pinned
  let pinnedDocIds := deduped.map WirePinnedEntry.docId
  let listedPins := (hits.map Hit.id).filter fun id => id ∈ pinnedDocIds
  let result := hits.filter fun hit => hit.id ∉ pinnedDocIds
  (sortByPosition deduped).foldl (placePin listedPins resolveDoc) ⟨result, 0⟩

structure ClusterPlacement where
  entries : List ScoredEntry
  placedFromOutside : List JsString
  deriving DecidableEq, Repr

/-- One turn of the loop of `placePinnedEntries`. -/
def placePinnedEntry (removed : List ScoredEntry) (depth : Nat) (allMatchesPresent : Bool)
    (placement : ClusterPlacement) (entry : WirePinnedEntry) : ClusterPlacement :=
  if !allMatchesPresent && (depth : ℚ) ≤ entry.position then placement
  else
    -- A later entry of one id replaces an earlier one.
    let organic := removed.reverse.find? fun found => found.docId = entry.docId
    { entries := spliceAt placement.entries entry.position
        ⟨entry.docId, some 0, organic.bind ScoredEntry.sortValues⟩
      placedFromOutside := placement.placedFromOutside ++ if organic.isNone then [entry.docId] else [] }

def placePinnedEntries (merged : List ScoredEntry) (pinned : List WirePinnedEntry) (depth : Nat)
    (allMatchesPresent : Bool) : ClusterPlacement :=
  let deduped := dedupePinnedEntries pinned
  let pinnedIds := deduped.map WirePinnedEntry.docId
  let removed := merged.filter fun entry => entry.docId ∈ pinnedIds
  let result := merged.filter fun entry => entry.docId ∉ pinnedIds
  (sortByPosition deduped).foldl (placePinnedEntry removed depth allMatchesPresent) ⟨result, []⟩

/-- The page a cluster cuts from what it merged, down to the depth of the page. -/
def pageWithPins (merged : List ScoredEntry) (totalHits queriedPartitions totalPartitions : Nat)
    (pinned : List WirePinnedEntry) (limit offset : Nat) : List ScoredEntry :=
  let depth := limit + offset
  let allMatchesPresent := queriedPartitions = totalPartitions && totalHits ≤ merged.length
  ((placePinnedEntries merged pinned depth allMatchesPresent).entries.take depth).drop offset

/-- The hit of a document that takes its place for being pinned. -/
def pinnedHit (docId : JsString) : Hit := ⟨docId, some (.finite 0)⟩

/-- The page one process cuts from its whole ranking; `stored` are the documents it holds. -/
def localPageWithPins (hits : List Hit) (pinned : List WirePinnedEntry) (stored : JsString → Bool)
    (limit offset : Nat) : List Hit :=
  let resolveDoc docId := if stored docId then some (pinnedHit docId) else none
  ((placePinned hits pinned resolveDoc).hits.drop offset).take limit

/-- What the answer shows of a merged entry. -/
def shownHit (entry : ScoredEntry) : Hit := ⟨entry.docId, entry.score.map JsNumber.finite⟩

def isPinned (pinned : List WirePinnedEntry) (docId : JsString) : Bool :=
  docId ∈ (dedupePinnedEntries pinned).map WirePinnedEntry.docId

/-- The entries of a list that no pin moves. -/
def organicEntries (pinned : List WirePinnedEntry) (entries : List ScoredEntry) : List ScoredEntry :=
  entries.filter fun entry => !isPinned pinned entry.docId

/-- Where each pin goes, in the order they are placed. -/
def placements (pins : List WirePinnedEntry) : List (Nat × Hit) :=
  pins.map fun entry => (⌊entry.position⌋₊, pinnedHit entry.docId)

/-- The pins with a position above the depth, in the order of their positions. -/
def pinsAbove (pinned : List WirePinnedEntry) (depth : Nat) : List WirePinnedEntry :=
  (sortByPosition (dedupePinnedEntries pinned)).filter fun entry => entry.position < depth

/--
The page is empty, or the merge holds the whole ranking, or there are as many pins above the
depth as the cut loses entries, and either the cut leaves out pinned documents only, or a
pin that has to stand at the end of the cut instead of its position stands before the page.
-/
def PinsKeepPage (ranking : List ScoredEntry) (pinned : List WirePinnedEntry) (limit offset : Nat) : Prop :=
  let depth := limit + offset
  let kept := organicEntries pinned (ranking.take depth)
  limit = 0 ∨ ranking.length ≤ depth ∨
    depth ≤ kept.length + (pinsAbove pinned depth).length ∧
      (organicEntries pinned (ranking.drop depth) = [] ∨
        EndsBefore offset kept.length (placements (pinsAbove pinned depth)))

instance (ranking : List ScoredEntry) (pinned : List WirePinnedEntry) (limit offset : Nat) :
    Decidable (PinsKeepPage ranking pinned limit offset) := by
  unfold PinsKeepPage
  infer_instance

theorem dedupeUnseen_spec (pinned : List WirePinnedEntry) (seen : List JsString) :
    ((dedupeUnseen seen pinned).map WirePinnedEntry.docId).Nodup ∧
      (∀ entry ∈ dedupeUnseen seen pinned, entry ∈ pinned ∧ entry.docId ∉ seen) := by
  induction pinned generalizing seen with
  | nil => simp [dedupeUnseen]
  | cons entry rest ih =>
    rw [dedupeUnseen]
    split
    next =>
      obtain ⟨once, listed⟩ := ih seen
      exact ⟨once, fun other member => ⟨List.mem_cons_of_mem _ (listed other member).1, (listed other member).2⟩⟩
    next unseen =>
      obtain ⟨once, listed⟩ := ih (entry.docId :: seen)
      constructor
      · rw [List.map_cons, List.nodup_cons]
        refine ⟨fun again => ?_, once⟩
        obtain ⟨other, member, same⟩ := List.mem_map.mp again
        exact (listed other member).2 (same ▸ List.mem_cons_self)
      · intro other member
        rcases List.mem_cons.mp member with rfl | member
        · exact ⟨List.mem_cons_self, unseen⟩
        · obtain ⟨among, new⟩ := listed other member
          exact ⟨List.mem_cons_of_mem _ among, fun before => new (List.mem_cons_of_mem _ before)⟩

theorem dedupePinnedEntries_nodup (pinned : List WirePinnedEntry) :
    ((dedupePinnedEntries pinned).map WirePinnedEntry.docId).Nodup :=
  (dedupeUnseen_spec pinned []).1

theorem sortByPosition_perm (pinned : List WirePinnedEntry) : (sortByPosition pinned).Perm pinned :=
  List.perm_insertionSort _ pinned

theorem sortByPosition_sorted (pinned : List WirePinnedEntry) :
    (sortByPosition pinned).Pairwise fun a b => a.position ≤ b.position := by
  have : Std.Total fun a b : WirePinnedEntry => a.position ≤ b.position := ⟨fun a b => le_total a.position b.position⟩
  have : IsTrans WirePinnedEntry fun a b => a.position ≤ b.position := ⟨fun _ _ _ => le_trans⟩
  exact List.pairwise_insertionSort _ pinned

theorem sortByPosition_split (pinned : List WirePinnedEntry) (depth : Nat) :
    sortByPosition (dedupePinnedEntries pinned) = pinsAbove pinned depth ++
      (sortByPosition (dedupePinnedEntries pinned)).filter fun entry => (depth : ℚ) ≤ entry.position := by
  have ascending := sortByPosition_sorted (dedupePinnedEntries pinned)
  rw [pinsAbove]
  generalize sortByPosition (dedupePinnedEntries pinned) = pins at ascending ⊢
  induction pins with
  | nil => rfl
  | cons entry rest ih =>
    obtain ⟨least, rest_ascending⟩ := List.pairwise_cons.mp ascending
    have rest_split := ih rest_ascending
    by_cases above : entry.position < depth
    · rw [List.filter_cons_of_pos (by simpa using above), List.filter_cons_of_neg (by simpa using above),
        List.cons_append, ← rest_split]
    · -- No pin behind one below the depth is above it.
      have none_above : (entry :: rest).filter (fun entry : WirePinnedEntry => entry.position < (depth : ℚ)) = [] := by
        apply List.filter_eq_nil_iff.mpr
        intro other member
        rcases List.mem_cons.mp member with rfl | member
        · simpa using above
        · simpa using le_trans (not_lt.mp above) (least other member)
      have all_below : (entry :: rest).filter (fun entry : WirePinnedEntry => (depth : ℚ) ≤ entry.position) = entry :: rest := by
        apply List.filter_eq_self.mpr
        intro other member
        rcases List.mem_cons.mp member with rfl | member
        · simpa using above
        · simpa using le_trans (not_lt.mp above) (least other member)
      rw [none_above, all_below, List.nil_append]

theorem spliceAt_eq {α : Type*} (result : List α) (position : ℚ) (placed : α) :
    spliceAt result position placed = placeAt result ⌊position⌋₊ placed := by
  rw [spliceAt]
  rcases le_total position result.length with within | past
  · have start : ⌊max 0 (min position result.length)⌋₊ = ⌊position⌋₊ := by
      rw [min_eq_left within]
      rcases le_total position 0 with negative | positive
      · rw [max_eq_left negative, Nat.floor_of_nonpos negative, Nat.floor_zero]
      · rw [max_eq_right positive]
    rw [start]
    rfl
  · have start : ⌊max 0 (min position result.length)⌋₊ = result.length := by
      rw [min_eq_right past, max_eq_right (Nat.cast_nonneg _), Nat.floor_natCast]
    rw [start, placeAt_end (Nat.le_floor past), List.take_length, List.drop_length]

theorem placePin_hits {listedPins : List JsString} {resolveDoc : JsString → Option Hit} {pins : List WirePinnedEntry}
    (resolved : ∀ entry ∈ pins, resolveDoc entry.docId = some (pinnedHit entry.docId)) (placement : LocalPlacement) :
    (pins.foldl (placePin listedPins resolveDoc) placement).hits = placeAll placement.hits (placements pins) := by
  induction pins generalizing placement with
  | nil => rfl
  | cons entry rest ih =>
    obtain ⟨entry_resolved, rest_resolved⟩ := List.forall_mem_cons.mp resolved
    have step : (placePin listedPins resolveDoc placement entry).hits =
        placeAt placement.hits ⌊entry.position⌋₊ (pinnedHit entry.docId) := by
      simp only [placePin, entry_resolved, spliceAt_eq]
    rw [List.foldl_cons, ih rest_resolved, step]
    rfl

theorem organicEntries_eq (pinned : List WirePinnedEntry) (entries : List ScoredEntry) :
    organicEntries pinned entries =
      entries.filter fun entry => decide (entry.docId ∉ (dedupePinnedEntries pinned).map WirePinnedEntry.docId) := by
  rw [organicEntries]
  apply List.filter_congr
  intro entry _
  exact decide_not.symm

theorem placePinned_hits {stored : JsString → Bool} {pinned : List WirePinnedEntry}
    (all_stored : ∀ entry ∈ pinned, stored entry.docId = true) (ranking : List ScoredEntry) :
    (placePinned (ranking.map shownHit) pinned fun docId => if stored docId then some (pinnedHit docId) else none).hits =
      placeAll ((organicEntries pinned ranking).map shownHit)
        (placements (sortByPosition (dedupePinnedEntries pinned))) := by
  have resolved : ∀ entry ∈ sortByPosition (dedupePinnedEntries pinned),
      (if stored entry.docId then some (pinnedHit entry.docId) else none) = some (pinnedHit entry.docId) := by
    intro entry member
    have deduped := (sortByPosition_perm _).mem_iff.mp member
    have listed := ((dedupeUnseen_spec pinned []).2 entry deduped).1
    rw [if_pos (all_stored entry listed)]
  have organic : (ranking.map shownHit).filter
      (fun hit => decide (hit.id ∉ (dedupePinnedEntries pinned).map WirePinnedEntry.docId)) =
        (organicEntries pinned ranking).map shownHit := by
    rw [organicEntries_eq, List.filter_map]
    rfl
  rw [← organic]
  exact placePin_hits resolved _

theorem placePinnedEntry_entries (removed : List ScoredEntry) (depth : Nat) (allMatchesPresent : Bool)
    (pins : List WirePinnedEntry) (placement : ClusterPlacement) :
    (pins.foldl (placePinnedEntry removed depth allMatchesPresent) placement).entries.map shownHit =
      placeAll (placement.entries.map shownHit)
        (placements (pins.filter fun entry => allMatchesPresent || entry.position < (depth : ℚ))) := by
  induction pins generalizing placement with
  | nil => rfl
  | cons entry rest ih =>
    rw [List.foldl_cons, ih]
    by_cases skipped : allMatchesPresent = false ∧ (depth : ℚ) ≤ entry.position
    · rw [placePinnedEntry, if_pos (by simpa using skipped), List.filter_cons_of_neg (by simpa using skipped)]
    · have taken : (allMatchesPresent || decide (entry.position < (depth : ℚ))) = true := by
        simpa [or_iff_not_imp_left] using skipped
      rw [placePinnedEntry, if_neg (by simpa using skipped), List.filter_cons, if_pos taken]
      simp only [spliceAt_eq, placeAt_map]
      rfl

theorem placePinnedEntries_entries (merged : List ScoredEntry) (pinned : List WirePinnedEntry) (depth : Nat)
    (allMatchesPresent : Bool) :
    (placePinnedEntries merged pinned depth allMatchesPresent).entries.map shownHit =
      placeAll ((organicEntries pinned merged).map shownHit)
        (placements ((sortByPosition (dedupePinnedEntries pinned)).filter fun entry =>
          allMatchesPresent || entry.position < (depth : ℚ))) := by
  rw [organicEntries_eq]
  exact placePinnedEntry_entries _ depth allMatchesPresent _ _

section TwoPages
variable (ranking : List ScoredEntry) (pinned : List WirePinnedEntry) (depth : Nat)

/-- The whole ranking with all pins in it. -/
def rankingWithPins : List Hit :=
  placeAll ((organicEntries pinned ranking).map shownHit) (placements (sortByPosition (dedupePinnedEntries pinned)))

/-- The cut ranking with the pins above the depth in it. -/
def cutWithPins : List Hit :=
  placeAll ((organicEntries pinned (ranking.take depth)).map shownHit) (placements (pinsAbove pinned depth))

theorem organicEntries_split :
    organicEntries pinned ranking =
      organicEntries pinned (ranking.take depth) ++ organicEntries pinned (ranking.drop depth) := by
  rw [organicEntries, organicEntries, organicEntries, ← List.filter_append, List.take_append_drop]

theorem placements_ascending : (placements (pinsAbove pinned depth)).Pairwise fun a b => a.1 ≤ b.1 := by
  have ascending := (sortByPosition_sorted (dedupePinnedEntries pinned)).filter
    fun entry => decide (entry.position < (depth : ℚ))
  rw [placements, List.pairwise_map]
  exact ascending.imp fun before => Nat.floor_mono before

theorem cutWithPins_length :
    (cutWithPins ranking pinned depth).length =
      (organicEntries pinned (ranking.take depth)).length + (pinsAbove pinned depth).length := by
  rw [cutWithPins, placeAll_length, List.length_map, placements, List.length_map]

variable {ranking pinned depth}

theorem placements_above {i : Nat} (inside : i < (placements (pinsAbove pinned depth)).length) (positive : depth ≠ 0) :
    (placements (pinsAbove pinned depth))[i].1 < depth := by
  have member := List.getElem_mem inside
  obtain ⟨entry, listed, same⟩ := List.mem_map.mp member
  rw [← same]
  exact (Nat.floor_lt' positive).mpr (by simpa using (List.mem_filter.mp listed).2)

theorem ranking_length_le (distinct : (ranking.map ScoredEntry.docId).Nodup) :
    ranking.length ≤ (rankingWithPins ranking pinned).length := by
  have moved : (ranking.filter fun entry => isPinned pinned entry.docId).length ≤ (dedupePinnedEntries pinned).length := by
    have once := distinct.sublist
      ((List.filter_sublist (p := fun entry => isPinned pinned entry.docId)).map ScoredEntry.docId)
    have among : (ranking.filter fun entry => isPinned pinned entry.docId).map ScoredEntry.docId ⊆
        (dedupePinnedEntries pinned).map WirePinnedEntry.docId := by
      intro id member
      obtain ⟨entry, listed, rfl⟩ := List.mem_map.mp member
      exact of_decide_eq_true (List.mem_filter.mp listed).2
    simpa using (List.subperm_of_subset once among).length_le
  have parts := List.length_eq_length_filter_add (l := ranking) fun entry => isPinned pinned entry.docId
  rw [rankingWithPins, placeAll_length, List.length_map, placements, List.length_map,
    (sortByPosition_perm _).length_eq]
  show ranking.length ≤ (ranking.filter fun entry => !isPinned pinned entry.docId).length + _
  omega

theorem rankingWithPins_getElem? {j : Nat} (above : j < depth)
    (within : j < (organicEntries pinned ranking).length + (pinsAbove pinned depth).length) :
    (rankingWithPins ranking pinned)[j]? =
      (placeAll ((organicEntries pinned (ranking.take depth)).map shownHit ++
        (organicEntries pinned (ranking.drop depth)).map shownHit) (placements (pinsAbove pinned depth)))[j]? := by
  have late : ∀ placement ∈ placements ((sortByPosition (dedupePinnedEntries pinned)).filter
      fun entry => (depth : ℚ) ≤ entry.position), j < placement.1 := by
    intro placement member
    obtain ⟨entry, listed, rfl⟩ := List.mem_map.mp member
    have below : (depth : ℚ) ≤ entry.position := by simpa using (List.mem_filter.mp listed).2
    exact Nat.lt_of_lt_of_le above (Nat.le_floor below)
  rw [rankingWithPins, sortByPosition_split pinned depth, placements, List.map_append, placeAll_append,
    ← List.map_append, ← organicEntries_split]
  apply placeAll_getElem? late
  rw [placeAll_length, List.length_map, List.length_map]
  exact within

theorem pinnedHit_new {i : Nat} (inside : i < (placements (pinsAbove pinned depth)).length) :
    (placements (pinsAbove pinned depth))[i].2 ∉
      ((organicEntries pinned (ranking.take depth)).map shownHit ++
        (organicEntries pinned (ranking.drop depth)).map shownHit) ++
        ((placements (pinsAbove pinned depth)).take i).map Prod.snd := by
  have once : ((placements (pinsAbove pinned depth)).map Prod.snd).Nodup := by
    have deduped := ((sortByPosition_perm _).map WirePinnedEntry.docId).nodup_iff.mpr (dedupePinnedEntries_nodup pinned)
    have above := deduped.sublist ((List.filter_sublist
      (p := fun entry : WirePinnedEntry => decide (entry.position < (depth : ℚ)))).map WirePinnedEntry.docId)
    rw [placements, List.map_map]
    apply List.Nodup.of_map Hit.id
    rw [List.map_map]
    exact above
  rw [List.mem_append, ← List.map_append, ← organicEntries_split]
  rintro (organic | earlier)
  · obtain ⟨entry, listed, same⟩ := List.mem_map.mp organic
    obtain ⟨pin, above, placed⟩ := List.mem_map.mp (List.getElem_mem inside)
    have deduped := (sortByPosition_perm _).mem_iff.mp (List.mem_filter.mp above).1
    have same_id : entry.docId = pin.docId := by
      have hits := same.trans (congrArg Prod.snd placed).symm
      exact congrArg Hit.id hits
    have not_pinned := (List.mem_filter.mp listed).2
    have is_pinned : isPinned pinned pin.docId = true := decide_eq_true (List.mem_map_of_mem deduped)
    rw [same_id, is_pinned] at not_pinned
    exact Bool.noConfusion not_pinned
  · have parts : (placements (pinsAbove pinned depth)).map Prod.snd =
        ((placements (pinsAbove pinned depth)).take i).map Prod.snd ++
          (placements (pinsAbove pinned depth))[i].2 ::
            ((placements (pinsAbove pinned depth)).drop (i + 1)).map Prod.snd := by
      rw [← List.map_cons, ← List.drop_eq_getElem_cons inside, ← List.map_append, List.take_append_drop]
    rw [parts] at once
    exact (List.nodup_append.mp once).2.2 _ earlier _ List.mem_cons_self rfl

theorem page_eq_iff {left right : List Hit} {limit offset : Nat} :
    (left.drop offset).take limit = (right.drop offset).take limit ↔
      ∀ j, offset ≤ j → j < limit + offset → left[j]? = right[j]? := by
  constructor
  · intro same j from_offset within
    have at_place := congrArg (·[j - offset]?) same
    simp only [List.getElem?_take, List.getElem?_drop, if_pos (show j - offset < limit by omega)] at at_place
    rwa [Nat.add_sub_cancel' from_offset] at at_place
  · intro agree
    apply List.ext_getElem?
    intro i
    simp only [List.getElem?_take, List.getElem?_drop]
    split
    · exact agree _ (Nat.le_add_right _ _) (by omega)
    · rfl

theorem cutWithPins_page_iff (distinct : (ranking.map ScoredEntry.docId).Nodup) {limit offset : Nat}
    (page : limit ≠ 0) (more : limit + offset < ranking.length) :
    ((cutWithPins ranking pinned (limit + offset)).drop offset).take limit =
        ((rankingWithPins ranking pinned).drop offset).take limit ↔
      limit + offset ≤ (organicEntries pinned (ranking.take (limit + offset))).length +
          (pinsAbove pinned (limit + offset)).length ∧
        (organicEntries pinned (ranking.drop (limit + offset)) = [] ∨
          EndsBefore offset (organicEntries pinned (ranking.take (limit + offset))).length
            (placements (pinsAbove pinned (limit + offset)))) := by
  have cut_length := cutWithPins_length ranking pinned (limit + offset)
  have organic_length := congrArg List.length (organicEntries_split ranking pinned (limit + offset))
  rw [List.length_append] at organic_length
  have ascending := placements_ascending pinned (limit + offset)
  have pin_count : (placements (pinsAbove pinned (limit + offset))).length = (pinsAbove pinned (limit + offset)).length :=
    List.length_map _
  rw [page_eq_iff]
  constructor
  · intro agree
    constructor
    · -- The last row of the page is there in the whole ranking.
      by_contra short
      have last := agree (limit + offset - 1) (by omega) (by omega)
      rw [List.getElem?_eq_none (by omega)] at last
      have whole := @ranking_length_le ranking pinned distinct
      have := List.getElem?_eq_none_iff.mp last.symm
      omega
    · by_cases beyond : organicEntries pinned (ranking.drop (limit + offset)) = []
      · exact .inl beyond
      · right
        intro i inside past
        by_contra late
        have above := placements_above inside (by omega)
        have rows_length : ((organicEntries pinned (ranking.take (limit + offset))).map shownHit).length =
            (organicEntries pinned (ranking.take (limit + offset))).length := List.length_map _
        rw [← rows_length] at past late
        apply placeAll_differs ascending inside past (by simpa using beyond) (pinnedHit_new inside)
        have in_page := Nat.lt_trans past above
        have same := agree _ (Nat.le_of_not_lt late) in_page
        rw [rankingWithPins_getElem? in_page (by omega)] at same
        exact same
  · rintro ⟨enough, settled⟩ j from_offset within
    rw [rankingWithPins_getElem? within (by omega)]
    rcases settled with nothing | ends
    · rw [nothing, List.map_nil, List.append_nil, cutWithPins]
    · apply placeAll_agrees ascending _ from_offset
      · rw [List.length_map, pin_count]
        omega
      · rwa [List.length_map]

end TwoPages

/-- With every partition answering and every pin stored, the two pages are one exactly where the pins keep it. -/
theorem pageWithPins_iff (ranking : List ScoredEntry) (distinct : (ranking.map ScoredEntry.docId).Nodup)
    (pinned : List WirePinnedEntry) (stored : JsString → Bool)
    (all_stored : ∀ entry ∈ pinned, stored entry.docId = true) (limit offset totalPartitions : Nat) :
    (pageWithPins (ranking.take (limit + offset)) ranking.length totalPartitions totalPartitions pinned limit
        offset).map shownHit =
      localPageWithPins (ranking.map shownHit) pinned stored limit offset ↔
      PinsKeepPage ranking pinned limit offset := by
  have local_page : localPageWithPins (ranking.map shownHit) pinned stored limit offset =
      ((rankingWithPins ranking pinned).drop offset).take limit := by
    simp only [localPageWithPins, placePinned_hits all_stored]
    rfl
  have cluster_page : ∀ allMatchesPresent, (((placePinnedEntries (ranking.take (limit + offset)) pinned
      (limit + offset) allMatchesPresent).entries.take (limit + offset)).drop offset).map shownHit =
        (((placePinnedEntries (ranking.take (limit + offset)) pinned (limit + offset)
          allMatchesPresent).entries.map shownHit).drop offset).take limit := by
    intro allMatchesPresent
    rw [List.map_drop, List.map_take, List.drop_take, Nat.add_sub_cancel]
  rw [local_page, pageWithPins, cluster_page, placePinnedEntries_entries, PinsKeepPage]
  rcases Nat.eq_zero_or_pos limit with rfl | positive
  · simp
  rcases Nat.lt_or_ge (limit + offset) ranking.length with more | whole
  · have cut : (decide (totalPartitions = totalPartitions) &&
        decide (ranking.length ≤ (ranking.take (limit + offset)).length)) = false := by
      rw [List.length_take]
      simpa using more
    rw [cut]
    simp only [Bool.false_or]
    rw [or_iff_right (by omega), or_iff_right (by omega)]
    exact cutWithPins_page_iff distinct (by omega) more
  · have held : (decide (totalPartitions = totalPartitions) &&
        decide (ranking.length ≤ (ranking.take (limit + offset)).length)) = true := by
      rw [List.length_take]
      simpa using whole
    rw [held, List.take_of_length_le whole]
    simp only [Bool.true_or, List.filter_true]
    exact iff_of_true rfl (.inr (.inl whole))

def rankedThree : List ScoredEntry :=
  [⟨[97], some 3, none⟩, ⟨[98], some 2, none⟩, ⟨[99], some 1, none⟩]

/-- The best of three documents, pinned to the end, leaves a page of one without any. -/
theorem pageWithPins_short :
    pageWithPins (rankedThree.take 1) 3 1 1 [⟨[97], 5⟩] 1 0 = [] ∧
      localPageWithPins (rankedThree.map shownHit) [⟨[97], 5⟩] (fun _ => true) 1 0 = [shownHit ⟨[98], some 2, none⟩] ∧
      ¬PinsKeepPage rankedThree [⟨[97], 5⟩] 1 0 := by
  decide

/-- Two pins inside the page change places and keep it. -/
theorem pageWithPins_iff_three :
    (pageWithPins (rankedThree.take 2) 3 1 1 [⟨[97], 1⟩, ⟨[98], 0⟩] 2 0).map shownHit =
      localPageWithPins (rankedThree.map shownHit) [⟨[97], 1⟩, ⟨[98], 0⟩] (fun _ => true) 2 0 :=
  (pageWithPins_iff rankedThree (by decide) [⟨[97], 1⟩, ⟨[98], 0⟩] (fun _ => true) (by decide) 2 0 1).mpr
    (by decide)

end Narsil.Distribution
