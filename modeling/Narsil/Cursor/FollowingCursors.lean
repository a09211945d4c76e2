import Narsil.Cursor.Pagination
import Narsil.Ranking.Seeking

/-!
# Following cursors

From the first page on, each page is asked for with the cursor of the one before it, and
every matching document is shown once, in rank order.
-/
namespace Narsil.Cursor
open Narsil.Ordering Narsil.Ranking

/-- A cursor that is read back, and that is not too long to be accepted. -/
structure CursorHost.Carries (host : CursorHost) (cursor : PageCursor) : Prop where
  readsBack : host.ReadsBack (payloadOf cursor)
  fits : (encodePageCursor host cursor).length ≤ MAX_CURSOR_LENGTH

theorem isHexDigit_hexDigit (value : Fin 16) : isHexDigit (hexDigit value) := by
  revert value
  decide

theorem hexDigits_isBinding (hash : UInt32) : isBinding (hexDigits hash) := by
  have digit (shift : Nat) : isHexDigit (hexDigit (hash.toNat >>> shift % 16)) :=
    isHexDigit_hexDigit ⟨hash.toNat >>> shift % 16, Nat.mod_lt _ (by decide)⟩
  have last := digit 0
  rw [Nat.shiftRight_zero] at last
  simp [isBinding, hexDigits, digit, last]

section Wire
variable {host : CursorHost} {cursor : PageCursor} {signature : Option JsString} {binding : JsString}

theorem encodePageCursor_ne_nil (carries : host.Carries cursor) : encodePageCursor host cursor ≠ [] :=
  carries.readsBack.1

theorem seekCursor_own (sound : cursor.Sound) (carries : host.Carries cursor) (bound : cursor.binding = binding)
    (signed : cursor.sortSignature = signature) (anchored : signature = none → cursor.score.isSome) :
    seekCursor host (encodePageCursor host cursor) signature binding =
      .ok { cursor with depth := some (cursor.depth.getD 0) } := by
  rw [seekCursor, decodePageCursor_encodePageCursor sound carries.readsBack carries.fits]
  have matching : requireMatchingCursor { cursor with depth := some (cursor.depth.getD 0) }
      (encodePageCursor host cursor) signature true binding = .ok () := by
    rw [requireMatchingCursor, if_neg (by simp [bound])]
    cases signature with
    | some text => simp [signed]
    | none =>
      obtain ⟨score, scored⟩ := Option.isSome_iff_exists.mp (anchored rfl)
      simp [signed, scored]
  simp only [bind, Except.bind, matching]
  rfl

theorem seekCursor_other (sound : cursor.Sound) (carries : host.Carries cursor)
    (other : cursor.binding ≠ binding ∨ cursor.sortSignature ≠ signature) :
    ∃ reason, seekCursor host (encodePageCursor host cursor) signature binding =
      .error (invalidCursor (encodePageCursor host cursor) reason) := by
  rw [seekCursor, decodePageCursor_encodePageCursor sound carries.readsBack carries.fits]
  have refused : ∃ reason, requireMatchingCursor { cursor with depth := some (cursor.depth.getD 0) }
      (encodePageCursor host cursor) signature true binding =
        .error (invalidCursor (encodePageCursor host cursor) reason) := by
    unfold requireMatchingCursor
    by_cases bound : cursor.binding = binding
    · have unsigned := other.resolve_left fun apart => apart bound
      rw [if_neg (by simp [bound])]
      cases signature with
      | some text => exact ⟨_, if_pos unsigned⟩
      | none =>
        rw [if_neg (by decide), if_pos (by simpa [Option.isSome_iff_ne_none] using unsigned)]
        exact ⟨_, rfl⟩
    · exact ⟨_, if_pos bound⟩
  obtain ⟨reason, refused⟩ := refused
  simp only [bind, Except.bind, refused]
  exact ⟨reason, rfl⟩

end Wire

section Cut
variable {host : CursorHost} {table : FoldTable} {results : List Hit} {limit : Nat} {binding : JsString}
  {sort : Option PaginationSortContext}

/-- The cursor that leads to a position of the ranking. -/
def cursorAt (host : CursorHost) (sort : Option PaginationSortContext) (binding : JsString) (results : List Hit)
    (at_ : Nat) : Option JsString :=
  if at_ = 0 then none
  else results[at_ - 1]?.map fun last => encodePageCursor host (cursorBehind sort binding last at_)

theorem lastOrganicResult_none (sliced : List Hit) : lastOrganicResult sliced none = sliced.getLast? := by
  rw [lastOrganicResult, ← List.head?_reverse]
  cases sliced.reverse <;> rfl

theorem pageFrom_at (positive : 0 < limit) (at_ : Nat) :
    pageFrom host results limit at_ binding sort none = ((results.drop at_).take limit,
      if at_ + limit < results.length then cursorAt host sort binding results (at_ + limit) else none) := by
  rw [pageFrom]
  by_cases more : at_ + limit < results.length
  · have whole : ((results.drop at_).take limit).length = limit := by
      rw [List.length_take, List.length_drop]
      omega
    have last : ((results.drop at_).take limit).getLast? = results[at_ + limit - 1]? := by
      rw [List.getLast?_eq_getElem?, whole, List.getElem?_take_of_lt (by omega), List.getElem?_drop]
      congr 1
      omega
    rw [if_pos more, if_pos more, lastOrganicResult_none, last, whole, cursorAt, if_neg (by omega)]
  · rw [if_neg more, if_neg more]

theorem applyPagination_seeks {order : Hit → Hit → Ordering} [Std.OrientedCmp order]
    (ranked : Ranked order results) (positive : 0 < limit)
    (own : ∀ hit ∈ results, ∀ depth ≤ results.length,
      seekCursor host (encodePageCursor host (cursorBehind sort binding hit depth))
        (sort.map PaginationSortContext.signature) binding = .ok (cursorBehind sort binding hit depth))
    (written : ∀ hit ∈ results, ∀ depth ≤ results.length,
      encodePageCursor host (cursorBehind sort binding hit depth) ≠ [])
    (after : ∀ hit ∈ results, ∀ row ∈ results, ∀ depth,
      ordersAfterAnchor table row (cursorBehind sort binding hit depth) sort ↔ order hit row = .lt) :
    Seeks (fun cursor => applyPagination host table results limit 0 binding cursor sort none) results limit
      (cursorAt host sort binding results) where
  positive := positive
  shows at_ inside := by
    rw [← pageFrom_at positive at_]
    have some_rows : ¬limit = 0 := by omega
    by_cases first : at_ = 0
    · rw [first, cursorAt, if_pos rfl]
      simp only [applyPagination, if_neg some_rows]
      rfl
    · have bound : at_ - 1 < results.length := by omega
      have member : results[at_ - 1] ∈ results := List.getElem_mem bound
      have start : (results.findIdx fun hit => ordersAfterAnchor table hit
          (cursorBehind sort binding results[at_ - 1] at_) sort) = at_ := by
        rw [findIdx_behind ranked bound fun row listed => after _ member row listed at_]
        omega
      have kept : (some (encodePageCursor host (cursorBehind sort binding results[at_ - 1] at_))).filter
          (fun text => !text.isEmpty) =
            some (encodePageCursor host (cursorBehind sort binding results[at_ - 1] at_)) := by
        simp [written _ member at_ (by omega)]
      rw [cursorAt, if_neg first, List.getElem?_eq_getElem bound, Option.map_some]
      simp only [applyPagination, kept, Option.mapM_some, own _ member at_ (by omega), if_neg some_rows]
      simp only [Except.map, bind, Except.bind, Functor.map, Option.elim_some, start, Nat.add_zero]
      rfl
  goesOn at_ positive inside := by
    rw [cursorAt, if_neg (by omega), List.getElem?_eq_getElem (by omega)]
    rfl

end Cut

section Merged
variable {host : CursorHost} {table : FoldTable} {directions : List SortDirection} {limit : Nat}
  {signature binding : JsString} {partitions : List (List SortedPageEntry)}

def sortedCursorAt (host : CursorHost) (signature binding : JsString) (ranked : List SortedPageEntry)
    (at_ : Nat) : Option JsString :=
  if at_ = 0 then none
  else ranked[at_ - 1]?.map fun last => encodePageCursor host (sortedCursor signature binding last)

theorem sortedCursorAt_pos {ranked : List SortedPageEntry} {at_ : Nat} (positive : 0 < at_) :
    sortedCursorAt host signature binding ranked at_ =
      ranked[at_ - 1]?.map fun last => encodePageCursor host (sortedCursor signature binding last) :=
  if_neg (by omega)

theorem selectSortedPage_eq {matched : List SortedPageEntry} {anchor : Option SortedPageEntry}
    (sorts : directions ≠ []) (distinct : Distinct (compareEntries table directions) matched) :
    selectSortedPage table directions (limit + 1) anchor matched =
      (sorted (compareEntries table directions) (matched.filter (isBehind table directions anchor))).take
        (limit + 1) := by
  rw [selectSortedPage, if_neg (by simp [sorts])]
  exact foldl_keepSmallest_nil (List.Pairwise.filter _ distinct)

theorem mergeSortedPages_eq (sorts : directions ≠ []) (positive : 0 < limit)
    (distinct : Distinct (compareEntries table directions) partitions.flatten)
    {anchor : Option SortedPageEntry} {rest : List SortedPageEntry}
    (behind : (sorted (compareEntries table directions) partitions.flatten).filter
      (isBehind table directions anchor) = rest) :
    mergeSortedPages host table partitions limit 0 directions signature binding anchor =
      (rest.take limit, if limit < rest.length then
        rest[limit - 1]?.map fun last => encodePageCursor host (sortedCursor signature binding last) else none) := by
  rw [mergeSortedPages, Nat.zero_add]
  generalize merging : sorted (compareEntries table directions)
    (partitions.map (selectSortedPage table directions (limit + 1) anchor)).flatten = merged
  -- One row more than the page is enough to see whether rows are left.
  have firsts : merged.take (limit + 1) = rest.take (limit + 1) := by
    have parts : partitions.map (selectSortedPage table directions (limit + 1) anchor) =
        (partitions.map (List.filter (isBehind table directions anchor))).map fun part =>
          (sorted (compareEntries table directions) part).take (limit + 1) := by
      rw [List.map_map]
      apply List.map_congr_left
      intro part member
      exact selectSortedPage_eq sorts (List.Pairwise.sublist (List.sublist_flatten_of_mem member) distinct)
    have kept : Distinct (compareEntries table directions)
        ([] ++ (partitions.map (List.filter (isBehind table directions anchor))).flatten) := by
      rw [List.nil_append, ← List.filter_flatten]
      exact List.Pairwise.filter _ distinct
    rw [← merging, parts, ← behind, ← sorted_filter distinct, List.filter_flatten]
    exact take_sorted_parts kept
  have page : merged.take limit = rest.take limit := by
    have := congrArg (List.take limit) firsts
    rwa [List.take_take, List.take_take, Nat.min_eq_left (Nat.le_succ _)] at this
  have more : limit < merged.length ↔ limit < rest.length := by
    have := congrArg List.length firsts
    rw [List.length_take, List.length_take] at this
    omega
  simp only [List.drop_zero, page, more]
  split
  next left =>
    rw [List.getLast?_eq_getElem?, List.length_take, Nat.min_eq_left (Nat.le_of_lt left),
      List.getElem?_take_of_lt (by omega)]
  next => rfl

theorem executeSortedQueryPage_seeks (sorts : directions ≠ []) (positive : 0 < limit)
    (distinct : Distinct (compareEntries table directions) partitions.flatten)
    (own : ∀ entry ∈ partitions.flatten,
      seekCursor host (encodePageCursor host (sortedCursor signature binding entry)) (some signature) binding =
        .ok { sortedCursor signature binding entry with depth := some 0 }) :
    Seeks (executeSortedQueryPage host table partitions limit 0 directions signature binding)
      (sorted (compareEntries table directions) partitions.flatten) limit
      (sortedCursorAt host signature binding (sorted (compareEntries table directions) partitions.flatten)) where
  positive := positive
  shows at_ inside := by
    have ranked := sorted_ranked distinct
    have shown (anchor : Option SortedPageEntry)
        (behind : (sorted (compareEntries table directions) partitions.flatten).filter
          (isBehind table directions anchor) = (sorted (compareEntries table directions) partitions.flatten).drop at_) :
        mergeSortedPages host table partitions limit 0 directions signature binding anchor =
          (((sorted (compareEntries table directions) partitions.flatten).drop at_).take limit,
            if at_ + limit < (sorted (compareEntries table directions) partitions.flatten).length then
              sortedCursorAt host signature binding
                (sorted (compareEntries table directions) partitions.flatten) (at_ + limit) else none) := by
      rw [mergeSortedPages_eq sorts positive distinct behind, List.length_drop, sortedCursorAt_pos (by omega)]
      by_cases left : at_ + limit < (sorted (compareEntries table directions) partitions.flatten).length
      · rw [if_pos left, if_pos (by omega), List.getElem?_drop, Nat.add_sub_assoc positive]
      · rw [if_neg left, if_neg (by omega)]
    by_cases first : at_ = 0
    · have whole := shown none (by rw [first]; exact List.filter_eq_self.mpr fun _ _ => rfl)
      rw [sortedCursorAt, if_pos first, ← whole]
      rfl
    · have bound : at_ - 1 < (sorted (compareEntries table directions) partitions.flatten).length := by omega
      have member := sorted_perm.subset (List.getElem_mem bound)
      have behind : (sorted (compareEntries table directions) partitions.flatten).filter
          (isBehind table directions (some (sorted (compareEntries table directions) partitions.flatten)[at_ - 1])) =
            (sorted (compareEntries table directions) partitions.flatten).drop at_ := by
        rw [filter_behind ranked bound, Nat.sub_add_cancel (by omega)]
        intro row _
        rw [isBehind, Option.elim_some, ← Std.OrientedCmp.gt_iff_lt (a := row)]
        cases compareEntries table directions row _ <;> simp
      rw [← shown _ behind, sortedCursorAt_pos (by omega), List.getElem?_eq_getElem bound, Option.map_some,
        executeSortedQueryPage, Option.mapM_some, own _ member]
      rfl
  goesOn at_ positive inside := by
    rw [sortedCursorAt, if_neg (by omega), List.getElem?_eq_getElem (by omega)]
    rfl

end Merged

/-- The cursor behind a matching document. -/
def issuedCursor (answer : QueryAnswer) (params : QueryParams) (signature : Option JsString) (binding : JsString)
    (scored : ScoredDocument) (depth : Option Nat) : PageCursor :=
  { cursorBehind (signature.map (sortContextOf answer params)) binding (hitOf scored) 0 with depth := depth }

/-- All cursors a query can end a page with are carried. -/
def CarriesIssued (host : CursorHost) (bytes : NumberBytes) (answer : QueryAnswer) (params : QueryParams)
    (signature : Option JsString) : Prop :=
  ∀ scored ∈ answer.scored, ∀ depth : Option Nat, (∀ count ∈ depth, count ≤ answer.scored.length) →
    host.Carries (issuedCursor answer params signature (queryBindingOf bytes params.bound) scored depth)

section Issued
variable {host : CursorHost} {bytes : NumberBytes} {table : FoldTable} {answer : QueryAnswer} {params : QueryParams}
  {signature : Option JsString} {scored : ScoredDocument} {depth : Option Nat} {binding : JsString}

theorem compareSortValues_raw {left right : List ComparableSortValue} (directions : List SortDirection)
    (leftReduced : ∀ value ∈ left, toComparableSortValue (rawOf value) = value)
    (rightReduced : ∀ value ∈ right, toComparableSortValue (rawOf value) = value) :
    compareSortValues table (left.map rawOf) (right.map rawOf) directions =
      compareComparableKeys table left right directions := by
  have head {key : List ComparableSortValue} (reduced : ∀ value ∈ key, toComparableSortValue (rawOf value) = value) :
      toComparableSortValue ((key.map rawOf).head?.getD .other) = key.head?.getD none := by
    cases key with
    | nil => rfl
    | cons value key => exact reduced value (by simp)
  induction directions generalizing left right with
  | nil => rfl
  | cons direction directions ih =>
    rw [compareSortValues, compareComparableKeys, head leftReduced, head rightReduced, ← List.map_tail,
      ← List.map_tail, ih (fun value member => leftReduced value (List.mem_of_mem_tail member))
        fun value member => rightReduced value (List.mem_of_mem_tail member)]

theorem sortValues_reduced (fields : List SortField) (id : JsString) :
    ∀ value ∈ answer.sortValues fields id, toComparableSortValue (rawOf value) = value := by
  intro value member
  obtain ⟨field, _, rfl⟩ := List.mem_map.mp member
  exact answer.reduced id field

theorem scored_named (member : scored ∈ answer.scored) : scored.docId ≠ [] ∧
    scored.docId.length ≤ MAX_CURSOR_ANCHOR_CODE_POINTS :=
  answer.named _ (answer.same.subset (List.mem_map_of_mem member))

theorem sortSignatureOf_ok (sorts : sortSignatureOf host params.sort = .ok signature) :
    params.sort.length ≤ MAX_SORT_FIELDS ∧ (signature = none ↔ params.sort = []) := by
  rw [sortSignatureOf] at sorts
  split_ifs at sorts with none many long
  · cases sorts
    exact ⟨by omega, by simpa using List.length_eq_zero_iff.mp none⟩
  · cases sorts
    refine ⟨by omega, ?_⟩
    simp [List.length_eq_zero_iff.not.mp none]

theorem key_comes_back (id : JsString) : ((sortContextOf answer params []).sortKeyOf id).map toComparableSortValue =
    answer.sortValues params.sort id := by
  rw [sortContextOf, List.map_map]
  exact (List.map_congr_left (sortValues_reduced params.sort id)).trans (List.map_id' _)

theorem issuedCursor_sound (sorts : sortSignatureOf host params.sort = .ok signature)
    (member : scored ∈ answer.scored) (counted : ∀ count ∈ depth, count ≤ answer.scored.length) :
    (issuedCursor answer params signature (queryBindingOf bytes params.bound) scored depth).Sound := by
  obtain ⟨named, short⟩ := scored_named member
  have key : ((sortContextOf answer params []).sortKeyOf scored.docId).map toComparableSortValue =
      answer.sortValues params.sort scored.docId := key_comes_back scored.docId
  have countable : ∀ count, depth = some count → count ≤ MAX_SAFE_INTEGER := by
    intro count same
    have := counted count same
    have := answer.countable
    have : (2 : Nat) ^ 32 ≤ MAX_SAFE_INTEGER := by decide
    omega
  have bound : isBinding (queryBindingOf bytes params.bound) := hexDigits_isBinding _
  have brief := Nat.le_trans (codePoints_length_le scored.docId) short
  cases signature with
  | none =>
    constructor <;> try (first | exact bound | exact named | exact brief | exact countable)
    · rintro score ⟨⟩
      rfl
    · rfl
    · exact fun sorted => absurd sorted Bool.false_ne_true
    · rintro key ⟨⟩
    · rintro key ⟨⟩
  | some text =>
    constructor <;> try (first | exact bound | exact named | exact brief | exact countable)
    · rintro score ⟨⟩
    · rfl
    · exact fun _ => rfl
    · rintro _ ⟨⟩
      have fields := (sortSignatureOf_ok sorts).1
      simp [sortContextOf, QueryAnswer.sortValues]
      exact fields
    · rintro _ ⟨⟩
      change ∀ value ∈ ((sortContextOf answer params []).sortKeyOf scored.docId).map toComparableSortValue, _
      rw [key]
      exact sortValues_reduced params.sort scored.docId

theorem issuedCursor_own (sorts : sortSignatureOf host params.sort = .ok signature)
    (carried : CarriesIssued host bytes answer params signature) (member : scored ∈ answer.scored)
    (counted : ∀ count ∈ depth, count ≤ answer.scored.length) :
    seekCursor host (encodePageCursor host
        (issuedCursor answer params signature (queryBindingOf bytes params.bound) scored depth))
      signature (queryBindingOf bytes params.bound) =
        .ok (issuedCursor answer params signature (queryBindingOf bytes params.bound) scored (some (depth.getD 0))) := by
  rw [seekCursor_own (issuedCursor_sound sorts member counted) (carried scored member depth counted)]
  · rfl
  · cases signature <;> rfl
  · cases signature <;> rfl
  · rintro rfl
    rfl

/-- The score a hit is ranked by. -/
def scoreOf (hit : Hit) : ℚ :=
  match hit.score with
  | some (.finite score) => score
  | _ => 0

def compareHits (first second : Hit) : Ordering :=
  compareScored ⟨first.id, scoreOf first⟩ ⟨second.id, scoreOf second⟩

def compareHitEntries (table : FoldTable) (answer : QueryAnswer) (fields : List SortField)
    (first second : Hit) : Ordering :=
  compareEntries table (fields.map SortField.direction) (answer.entryOf fields first.id)
    (answer.entryOf fields second.id)

instance : Std.TransCmp compareHits := transCmp_on compareScored fun hit : Hit => ⟨hit.id, scoreOf hit⟩

instance (fields : List SortField) : Std.TransCmp (compareHitEntries table answer fields) :=
  transCmp_on (compareEntries table (fields.map SortField.direction)) fun hit : Hit => answer.entryOf fields hit.id

theorem ordersAfterAnchor_score {hit row : Hit} {count : Nat} {other : ℚ} {score : ℚ}
    (anchored : hit.score = some (.finite score)) (scored : row.score = some (.finite other)) :
    ordersAfterAnchor table row (cursorBehind none binding hit count) none ↔ compareHits hit row = .lt := by
  have first : scoreOf hit = score := by rw [scoreOf, anchored]
  have second : scoreOf row = other := by rw [scoreOf, scored]
  rw [compareHits, first, second, compareScored, Ordering.then_eq_lt, compare_lt_iff_lt,
    compare_eq_iff_eq, ← Std.OrientedCmp.gt_iff_lt (a := row.id)]
  simp only [ordersAfterAnchor, cursorBehind, anchored, scored, JsNumber.lt, JsNumber.same, Bool.or_eq_true,
    Bool.and_eq_true, decide_eq_true_eq, JsNumber.finite.injEq]
  cases compareCodePoints row.id hit.id <;> simp

theorem ordersAfterAnchor_sort {hit row : Hit} {count : Nat} {text : JsString} :
    ordersAfterAnchor table row (cursorBehind (some (sortContextOf answer params text)) binding hit count)
      (some (sortContextOf answer params text)) ↔ compareHitEntries table answer params.sort hit row = .lt := by
  have key : ((sortContextOf answer params text).sortKeyOf hit.id).map toComparableSortValue =
      answer.sortValues params.sort hit.id := key_comes_back hit.id
  have values : compareSortValues table ((answer.sortValues params.sort row.id).map rawOf)
      ((answer.sortValues params.sort hit.id).map rawOf) (params.sort.map SortField.direction) =
        compareComparableKeys table (answer.sortValues params.sort row.id) (answer.sortValues params.sort hit.id)
          (params.sort.map SortField.direction) :=
    compareSortValues_raw _ (sortValues_reduced _ _) (sortValues_reduced _ _)
  rw [← Std.OrientedCmp.gt_iff_lt (a := row)]
  simp only [ordersAfterAnchor, cursorBehind, key]
  simp only [sortContextOf, values, compareHitEntries, compareEntries, QueryAnswer.entryOf]
  generalize (compareComparableKeys table _ _ _).then _ = order
  cases order <;> simp

end Issued

/-- The ids of the matching documents in the order of the unpaged result. -/
def unpaged (table : FoldTable) (answer : QueryAnswer) (params : QueryParams) : List JsString :=
  if params.sort.isEmpty then answer.scored.map ScoredDocument.docId
  else (sorted (compareEntries table (params.sort.map SortField.direction))
    (answer.partitions.flatten.map (answer.entryOf params.sort))).map SortedPageEntry.id

/-- The ids a request shows when it is sent with a cursor. -/
def pageIds (host : CursorHost) (bytes : NumberBytes) (table : FoldTable) (answer : QueryAnswer)
    (params : QueryParams) (cursor : Option JsString) : Except NarsilError (List JsString × Option JsString) :=
  (queryPage host bytes table answer { params with searchAfter := cursor }).map fun page =>
    (page.1.map Hit.id, page.2)

/-- A request for pages of at least one row, from the first row on, that is let in. -/
structure Pageable (host : CursorHost) (bytes : NumberBytes) (answer : QueryAnswer) (params : QueryParams)
    (signature : Option JsString) : Prop where
  sorts : sortSignatureOf host params.sort = .ok signature
  some_rows : 0 < params.limitRows
  window : params.limitRows ≤ RESULT_WINDOW
  offset : params.offsetRows = 0
  carried : CarriesIssued host bytes answer params signature

theorem Pageable.let_in {host : CursorHost} {bytes : NumberBytes} {answer : QueryAnswer} {params : QueryParams}
    {signature : Option JsString} (ready : Pageable host bytes answer params signature) :
    requireWithinResultWindow params.limitRows params.offsetRows = .ok () := by
  rw [requireWithinResultWindow, ready.offset, Nat.zero_add, if_pos ready.window]

section Query
variable {host : CursorHost} {bytes : NumberBytes} {table : FoldTable} {answer : QueryAnswer} {params : QueryParams}
  {signature : Option JsString}

theorem entries_flatten (fields : List SortField) :
    (answer.partitions.map fun partition => partition.map (answer.entryOf fields)).flatten =
      answer.partitions.flatten.map (answer.entryOf fields) :=
  List.map_flatten.symm

theorem compareEntries_ne {directions : List SortDirection} {first second : SortedPageEntry}
    (apart : first.id ≠ second.id) : compareEntries table directions first second ≠ .eq := by
  intro equal
  rw [compareEntries, Ordering.then_eq_eq] at equal
  exact apart (Std.LawfulEqCmp.eq_of_compare equal.2)

theorem entries_distinct (fields : List SortField) :
    Distinct (compareEntries table (fields.map SortField.direction))
      (answer.partitions.flatten.map (answer.entryOf fields)) :=
  List.pairwise_map.mpr (List.Pairwise.imp (fun apart => compareEntries_ne apart) answer.once)

theorem scored_nodup : (answer.scored.map ScoredDocument.docId).Nodup :=
  answer.same.nodup_iff.mpr answer.once

theorem hits_ranked : Ranked compareHits (answer.scored.map hitOf) :=
  List.pairwise_map.mpr answer.ranked

theorem hits_distinct (fields : List SortField) :
    Distinct (compareHitEntries table answer fields) (answer.scored.map hitOf) := by
  apply List.pairwise_map.mpr
  apply (List.pairwise_map.mp scored_nodup).imp
  intro first second apart
  exact compareEntries_ne apart

theorem unpaged_perm : (unpaged table answer params).Perm answer.partitions.flatten := by
  rw [unpaged]
  split
  · exact answer.same
  · have ids : (answer.partitions.flatten.map (answer.entryOf params.sort)).map SortedPageEntry.id =
        answer.partitions.flatten := by
      rw [List.map_map]
      exact List.map_id' _
    exact (sorted_perm.map _).trans (.of_eq ids)

theorem applyPagination_first (results : List Hit) (limit offset : Nat) (binding : JsString)
    (sort : Option PaginationSortContext) :
    applyPagination host table (results.take (offset + limit + 1)) limit offset binding none sort none =
      applyPagination host table results limit offset binding none sort none := by
  have page : pageFrom host (results.take (offset + limit + 1)) limit offset binding sort none =
      pageFrom host results limit offset binding sort none := by
    have rows : ((results.take (offset + limit + 1)).drop offset).take limit = (results.drop offset).take limit := by
      rw [List.drop_take, List.take_take, Nat.min_eq_left (by omega)]
    have more : offset + limit < (results.take (offset + limit + 1)).length ↔ offset + limit < results.length := by
      rw [List.length_take]
      omega
    simp only [pageFrom, rows, more]
  simp only [applyPagination, Option.filter_none, Option.mapM_none]
  change (if limit = 0 then _ else _) = (if limit = 0 then _ else _)
  split
  · rfl
  · simp only [Option.elim_none, Nat.zero_add, page]

/-- The query reads its sort columns alone. -/
def QueryParams.sortedAlone (params : QueryParams) : Bool :=
  hasTerm params.bound.term && sortsWithoutScores params

theorem queryPage_merged (params : QueryParams) {text : JsString}
    (window : requireWithinResultWindow params.limitRows params.offsetRows = .ok ())
    (sorts : sortSignatureOf host params.sort = .ok (some text)) (fast : params.sortedAlone = true) :
    queryPage host bytes table answer params =
      (executeSortedQueryPage host table
        (answer.partitions.map fun partition => partition.map (answer.entryOf params.sort)) params.limitRows
        params.offsetRows (params.sort.map SortField.direction) text (queryBindingOf bytes params.bound)
        params.searchAfter).map fun page => (page.1.map fun entry => ⟨entry.id, none⟩, page.2) := by
  rw [QueryParams.sortedAlone] at fast
  simp only [queryPage, window, sorts, fast, bind, Except.bind]
  generalize executeSortedQueryPage host table _ _ _ _ _ _ _ = shown
  cases shown <;> rfl

/-- The hits a request is cut from. -/
def QueryParams.hits (params : QueryParams) (answer : QueryAnswer) : List Hit :=
  if params.needsFullHits then answer.scored.map hitOf
  else (answer.scored.take (params.offsetRows + params.limitRows + 1)).map hitOf

theorem queryPage_cut (params : QueryParams)
    (window : requireWithinResultWindow params.limitRows params.offsetRows = .ok ())
    (sorts : sortSignatureOf host params.sort = .ok signature)
    (slow : signature = none ∨ params.sortedAlone = false) :
    queryPage host bytes table answer params =
      (applyPagination host table (applySorting table answer params (params.hits answer)) params.limitRows
        params.offsetRows (queryBindingOf bytes params.bound) params.searchAfter
        (signature.map (sortContextOf answer params)) none).map fun page =>
          (if signature.isSome && !params.includeScores then page.1.map fun hit => { hit with score := none }
            else page.1, page.2) := by
  rw [QueryParams.sortedAlone] at slow
  simp only [queryPage, window, sorts, bind, Except.bind]
  split
  next fast =>
    rcases slow with unsorted | slow
    · cases unsorted
    · rw [slow] at fast
      cases fast
  next =>
    rw [← QueryParams.hits]
    generalize applyPagination host table _ _ _ _ _ _ _ = shown
    cases shown with
    | error error => rfl
    | ok page =>
      simp only [Except.map]
      split <;> rfl

/-- Hits are ranked before a page is cut. -/
def rankedHits (table : FoldTable) (answer : QueryAnswer) (params : QueryParams) : List Hit :=
  applySorting table answer params (answer.scored.map hitOf)

theorem pageIds_merged {text : JsString} (ready : Pageable host bytes answer params (some text))
    (fast : params.sortedAlone = true) (cursor : Option JsString) :
    pageIds host bytes table answer params cursor =
      (executeSortedQueryPage host table
        (answer.partitions.map fun partition => partition.map (answer.entryOf params.sort)) params.limitRows 0
        (params.sort.map SortField.direction) text (queryBindingOf bytes params.bound) cursor).map
          fun page => (page.1.map SortedPageEntry.id, page.2) := by
  have skipped : QueryParams.offsetRows { params with searchAfter := cursor } = 0 := ready.offset
  rw [pageIds, queryPage_merged { params with searchAfter := cursor } ready.let_in ready.sorts fast, skipped]
  change Except.map _ (Except.map _ (executeSortedQueryPage host table _ params.limitRows 0 _ _ _ cursor)) = _
  generalize executeSortedQueryPage host table _ _ _ _ _ _ _ = shown
  cases shown with
  | error error => rfl
  | ok page => simp [Except.map, Function.comp_def]

theorem pageIds_cut (ready : Pageable host bytes answer params signature)
    (slow : signature = none ∨ params.sortedAlone = false)
    (cursor : Option JsString) :
    pageIds host bytes table answer params cursor =
      (applyPagination host table (rankedHits table answer params) params.limitRows 0
        (queryBindingOf bytes params.bound) cursor (signature.map (sortContextOf answer params)) none).map
          fun page => (page.1.map Hit.id, page.2) := by
  have skipped : QueryParams.offsetRows { params with searchAfter := cursor } = 0 := ready.offset
  have rows : QueryParams.limitRows { params with searchAfter := cursor } = params.limitRows := rfl
  have context : sortContextOf answer { params with searchAfter := cursor } = sortContextOf answer params := rfl
  have hits : applyPagination host table (applySorting table answer { params with searchAfter := cursor }
        (QueryParams.hits { params with searchAfter := cursor } answer)) params.limitRows 0
        (queryBindingOf bytes params.bound) cursor (signature.map (sortContextOf answer params)) none =
      applyPagination host table (rankedHits table answer params) params.limitRows 0
        (queryBindingOf bytes params.bound) cursor (signature.map (sortContextOf answer params)) none := by
    rw [QueryParams.hits]
    split
    next => rfl
    next first =>
      -- Without a sort and without a cursor a page needs only its own hits.
      simp only [QueryParams.needsFullHits, Bool.or_eq_true, not_or, Bool.not_eq_true] at first
      have noCursor : cursor = none := by simpa using first.2
      have unsorted : params.sort.isEmpty = true := by simpa using first.1.1.1
      rw [noCursor, rankedHits, applySorting, applySorting, if_pos unsorted, if_pos unsorted, List.map_take,
        ← noCursor, skipped, rows, noCursor]
      exact applyPagination_first _ _ _ _ _
  rw [pageIds, queryPage_cut { params with searchAfter := cursor } ready.let_in ready.sorts slow, ← hits, skipped, rows,
    context]
  dsimp only
  generalize applyPagination host table _ params.limitRows 0 _ cursor _ none = shown
  cases shown with
  | error error => rfl
  | ok page =>
    simp only [Except.map]
    split <;> simp [Function.comp_def]

theorem rankedHits_perm : (rankedHits table answer params).Perm (answer.scored.map hitOf) := by
  rw [rankedHits, applySorting]
  split
  · exact .refl _
  · exact sorted_perm

theorem cursorBehind_issued {binding : JsString} {scored : ScoredDocument} {depth : Nat} :
    cursorBehind (signature.map (sortContextOf answer params)) binding (hitOf scored) depth =
      issuedCursor answer params signature binding scored (some depth) := by
  cases signature <;> rfl

theorem issuedCursor_entry {text binding : JsString} {scored : ScoredDocument} :
    issuedCursor answer params (some text) binding scored none =
      sortedCursor text binding (answer.entryOf params.sort scored.docId) := by
  have key : ((sortContextOf answer params text).sortKeyOf scored.docId).map toComparableSortValue =
      answer.sortValues params.sort scored.docId := key_comes_back scored.docId
  simp only [issuedCursor, Option.map_some, cursorBehind, hitOf, key, sortedCursor, QueryAnswer.entryOf]
  rfl

theorem pageIds_cut_seeks (ready : Pageable host bytes answer params signature)
    (slow : signature = none ∨ params.sortedAlone = false) {order : Hit → Hit → Ordering} [Std.OrientedCmp order]
    (ranked : Ranked order (rankedHits table answer params))
    (after : ∀ hit ∈ answer.scored.map hitOf, ∀ row ∈ answer.scored.map hitOf, ∀ depth,
      ordersAfterAnchor table row (cursorBehind (signature.map (sortContextOf answer params))
        (queryBindingOf bytes params.bound) hit depth) (signature.map (sortContextOf answer params)) ↔
          order hit row = .lt) :
    Seeks (pageIds host bytes table answer params) ((rankedHits table answer params).map Hit.id) params.limitRows
      (cursorAt host (signature.map (sortContextOf answer params)) (queryBindingOf bytes params.bound)
        (rankedHits table answer params)) := by
  have listed {hit : Hit} (member : hit ∈ rankedHits table answer params) : hit ∈ answer.scored.map hitOf :=
    rankedHits_perm.subset member
  have counted {depth : Nat} (short : depth ≤ (rankedHits table answer params).length) :
      ∀ count ∈ some depth, count ≤ answer.scored.length := by
    rintro _ ⟨⟩
    rwa [rankedHits_perm.length_eq, List.length_map] at short
  rw [funext (pageIds_cut ready slow)]
  apply Seeks.map
  apply applyPagination_seeks ranked ready.some_rows
  · intro hit member depth short
    obtain ⟨scored, known, rfl⟩ := List.mem_map.mp (listed member)
    rw [cursorBehind_issued]
    have signed : (signature.map (sortContextOf answer params)).map PaginationSortContext.signature = signature := by
      cases signature <;> rfl
    rw [signed]
    exact issuedCursor_own ready.sorts ready.carried known (counted short)
  · intro hit member depth short
    obtain ⟨scored, known, rfl⟩ := List.mem_map.mp (listed member)
    rw [cursorBehind_issued]
    exact encodePageCursor_ne_nil (ready.carried scored known _ (counted short))
  · intro hit member row other depth
    exact after hit (listed member) row (listed other) depth

theorem pageIds_seeks (ready : Pageable host bytes answer params signature) :
    ∃ leads : Nat → Option JsString, leads 0 = none ∧
      Seeks (pageIds host bytes table answer params) (unpaged table answer params) params.limitRows leads := by
  have fields := (sortSignatureOf_ok ready.sorts).2
  cases signature with
  | none =>
    have noSort : params.sort.isEmpty = true := by rw [fields.mp rfl]; rfl
    have hits : rankedHits table answer params = answer.scored.map hitOf := by
      rw [rankedHits, applySorting, if_pos noSort]
    have ids : unpaged table answer params = (rankedHits table answer params).map Hit.id := by
      rw [unpaged, if_pos noSort, hits, List.map_map]
      rfl
    have ranked : Ranked compareHits (rankedHits table answer params) := by
      rw [hits]
      exact hits_ranked
    refine ⟨_, rfl, ids ▸ pageIds_cut_seeks ready (.inl rfl) ranked ?_⟩
    · intro hit member row other depth
      obtain ⟨scored, _, rfl⟩ := List.mem_map.mp member
      obtain ⟨later, _, rfl⟩ := List.mem_map.mp other
      exact ordersAfterAnchor_score rfl rfl
  | some text =>
    have sorts : ¬params.sort.isEmpty = true := by
      intro none
      exact absurd (fields.mpr (List.isEmpty_iff.mp none)) (by simp)
    cases alone : params.sortedAlone with
    | false =>
      have hits : rankedHits table answer params =
          sorted (compareHitEntries table answer params.sort) (answer.scored.map hitOf) := by
        rw [rankedHits, applySorting, if_neg sorts]
        rfl
      have ranked : Ranked (compareHitEntries table answer params.sort) (rankedHits table answer params) := by
        rw [hits]
        exact sorted_ranked (hits_distinct _)
      -- The hits stand as their entries do, and these have one order.
      have entries : (rankedHits table answer params).map (fun hit => answer.entryOf params.sort hit.id) =
          sorted (compareEntries table (params.sort.map SortField.direction))
            (answer.partitions.flatten.map (answer.entryOf params.sort)) := by
        have inOrder : Ranked (compareEntries table (params.sort.map SortField.direction))
            ((rankedHits table answer params).map fun hit => answer.entryOf params.sort hit.id) :=
          List.pairwise_map.mpr ranked
        apply inOrder.eq_of_perm (sorted_ranked (entries_distinct _))
        refine ((rankedHits_perm.map _).trans ?_).trans sorted_perm.symm
        rw [List.map_map]
        have docs := answer.same.map (answer.entryOf params.sort)
        rwa [List.map_map] at docs
      have ids : unpaged table answer params = (rankedHits table answer params).map Hit.id := by
        rw [unpaged, if_neg sorts, ← entries, List.map_map]
        rfl
      refine ⟨_, rfl, ids ▸ pageIds_cut_seeks ready (.inr alone) ranked ?_⟩
      intro hit _ row _ depth
      exact ordersAfterAnchor_sort
    | true =>
      have directions : params.sort.map SortField.direction ≠ [] := by
        simpa using sorts
      have flat : (answer.partitions.map fun partition => partition.map (answer.entryOf params.sort)).flatten =
          answer.partitions.flatten.map (answer.entryOf params.sort) := entries_flatten params.sort
      have ids : unpaged table answer params = (sorted (compareEntries table (params.sort.map SortField.direction))
          (answer.partitions.map fun partition => partition.map (answer.entryOf params.sort)).flatten).map
            SortedPageEntry.id := by
        rw [unpaged, if_neg sorts, flat]
      refine ⟨sortedCursorAt host text (queryBindingOf bytes params.bound)
        (sorted (compareEntries table (params.sort.map SortField.direction))
          (answer.partitions.map fun partition => partition.map (answer.entryOf params.sort)).flatten), rfl, ?_⟩
      rw [funext (pageIds_merged ready alone), ids]
      apply Seeks.map
      apply executeSortedQueryPage_seeks directions ready.some_rows
      · rw [flat]
        exact entries_distinct params.sort
      · intro entry member
        rw [flat] at member
        obtain ⟨id, known, rfl⟩ := List.mem_map.mp member
        obtain ⟨scored, listed, rfl⟩ := List.mem_map.mp (answer.same.symm.subset known)
        rw [← issuedCursor_entry]
        exact issuedCursor_own ready.sorts ready.carried listed (by simp)

end Query

end Narsil.Cursor
