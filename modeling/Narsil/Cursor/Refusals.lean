import Narsil.Cursor.FollowingCursors

/-!
# Cursors of other requests

A page ends with a cursor behind one of its matching documents, and a request whose
binding or sort signature is another refuses it. The binding is a hash of 32 bits, so
requests with one hash take each other's cursors.
-/
namespace Narsil.Cursor
open Narsil.Ordering Narsil.Ranking

section Issues
variable {host : CursorHost} {bytes : NumberBytes} {table : FoldTable} {answer : QueryAnswer} {params : QueryParams}
  {signature : Option JsString}

theorem pageFrom_issues {results rows : List Hit} {limit afterOffset : Nat} {binding next : JsString}
    {sort : Option PaginationSortContext}
    (page : pageFrom host results limit afterOffset binding sort none = (rows, some next)) :
    ∃ hit ∈ results, ∃ depth ≤ results.length,
      next = encodePageCursor host (cursorBehind sort binding hit depth) := by
  rw [pageFrom, Prod.mk.injEq] at page
  obtain ⟨_, next'⟩ := page
  split at next'
  next more =>
    rw [lastOrganicResult_none] at next'
    obtain ⟨hit, last, rfl⟩ := Option.map_eq_some_iff.mp next'
    refine ⟨hit, List.mem_of_mem_drop (List.mem_of_mem_take (List.mem_of_getLast? last)), _, ?_, rfl⟩
    have := List.length_take_le limit (results.drop afterOffset)
    omega
  next => cases next'

theorem applyPagination_issues {results rows : List Hit} {limit offset : Nat} {binding next : JsString}
    {cursor : Option JsString} {sort : Option PaginationSortContext}
    (page : applyPagination host table results limit offset binding cursor sort none = .ok (rows, some next)) :
    ∃ hit ∈ results, ∃ depth ≤ results.length,
      next = encodePageCursor host (cursorBehind sort binding hit depth) := by
  rw [applyPagination] at page
  generalize (cursor.filter fun text => !text.isEmpty).mapM (fun text =>
    seekCursor host text (sort.map PaginationSortContext.signature) binding) = decoded at page
  cases decoded with
  | error error => cases page
  | ok decoded =>
    simp only [bind, Except.bind] at page
    split at page
    · cases page
    · exact pageFrom_issues (Except.ok.inj page)

theorem executeSortedQueryPage_issues {partitions : List (List SortedPageEntry)} {limit offset : Nat}
    {directions : List SortDirection} {text binding next : JsString} {cursor : Option JsString}
    {rows : List SortedPageEntry}
    (page : executeSortedQueryPage host table partitions limit offset directions text binding cursor =
      .ok (rows, some next)) :
    ∃ entry ∈ partitions.flatten, next = encodePageCursor host (sortedCursor text binding entry) := by
  rw [executeSortedQueryPage] at page
  generalize cursor.mapM (fun sent => seekCursor host sent (some text) binding) = decoded at page
  cases decoded with
  | error error => cases page
  | ok decoded =>
    have merged := Except.ok.inj page
    rw [mergeSortedPages, Prod.mk.injEq] at merged
    obtain ⟨_, next'⟩ := merged
    split at next'
    next more =>
      obtain ⟨entry, last, rfl⟩ := Option.map_eq_some_iff.mp next'
      refine ⟨entry, ?_, rfl⟩
      have shown := sorted_perm.subset
        (List.mem_of_mem_drop (List.mem_of_mem_take (List.mem_of_getLast? last)))
      obtain ⟨part, selected, member⟩ := List.mem_flatten.mp shown
      obtain ⟨partition, known, rfl⟩ := List.mem_map.mp selected
      rw [selectSortedPage] at member
      split at member
      · cases member
      · rcases foldl_keepSmallest_subset _ _ entry member with none | kept
        · cases none
        · exact List.mem_flatten.mpr ⟨partition, known, (List.mem_filter.mp kept).1⟩
    next => cases next'

theorem queryPage_issues {rows : List Hit} {next : JsString}
    (sorts : sortSignatureOf host params.sort = .ok signature)
    (page : queryPage host bytes table answer params = .ok (rows, some next)) :
    ∃ scored ∈ answer.scored, ∃ depth : Option Nat, (∀ count ∈ depth, count ≤ answer.scored.length) ∧
      next = encodePageCursor host
        (issuedCursor answer params signature (queryBindingOf bytes params.bound) scored depth) := by
  have window : requireWithinResultWindow params.limitRows params.offsetRows = .ok () := by
    rw [queryPage] at page
    cases checked : requireWithinResultWindow params.limitRows params.offsetRows with
    | error error =>
      rw [checked] at page
      cases page
    | ok _ => rfl
  by_cases alone : signature.isSome ∧ params.sortedAlone = true
  · obtain ⟨text, rfl⟩ := Option.isSome_iff_exists.mp alone.1
    rw [queryPage_merged params window sorts alone.2] at page
    generalize shownPage : executeSortedQueryPage host table _ _ _ _ _ _ _ = shown at page
    cases shown with
    | error error => cases page
    | ok shown =>
      obtain ⟨entries, following⟩ := shown
      have ends : following = some next := (Prod.mk.inj (Except.ok.inj page)).2
      subst ends
      obtain ⟨entry, member, rfl⟩ := executeSortedQueryPage_issues shownPage
      rw [entries_flatten] at member
      obtain ⟨id, known, rfl⟩ := List.mem_map.mp member
      obtain ⟨scored, listed, rfl⟩ := List.mem_map.mp (answer.same.symm.subset known)
      exact ⟨scored, listed, none, by simp, by rw [issuedCursor_entry]⟩
  · have slow : signature = none ∨ params.sortedAlone = false := by
      cases signature with
      | none => exact .inl rfl
      | some text => exact .inr (by simpa using alone)
    rw [queryPage_cut params window sorts slow] at page
    generalize shownPage : applyPagination host table _ _ _ _ _ _ _ = shown at page
    cases shown with
    | error error => cases page
    | ok shown =>
      obtain ⟨hits, following⟩ := shown
      have ends : following = some next := (Prod.mk.inj (Except.ok.inj page)).2
      subst ends
      obtain ⟨hit, member, depth, short, rfl⟩ := applyPagination_issues shownPage
      have fewer : (applySorting table answer params (params.hits answer)).Subperm (answer.scored.map hitOf) := by
        have sortedSame : (applySorting table answer params (params.hits answer)).Perm (params.hits answer) := by
          rw [applySorting]
          split
          · exact .refl _
          · exact sorted_perm
        apply sortedSame.subperm.trans
        rw [QueryParams.hits]
        split
        · exact .refl _
        · exact ((List.take_sublist _ _).map hitOf).subperm
      obtain ⟨scored, listed, rfl⟩ := List.mem_map.mp (fewer.subset member)
      refine ⟨scored, listed, some depth, ?_, by rw [cursorBehind_issued]⟩
      rintro _ ⟨⟩
      have := fewer.length_le
      rw [List.length_map] at this
      omega

theorem queryPage_refuses {rows : List Hit} {next : JsString} {asked : QueryAnswer} {other : QueryParams}
    {otherSignature : Option JsString} (sorts : sortSignatureOf host params.sort = .ok signature)
    (carried : CarriesIssued host bytes answer params signature)
    (page : queryPage host bytes table answer params = .ok (rows, some next))
    (sent : other.searchAfter = some next)
    (window : requireWithinResultWindow other.limitRows other.offsetRows = .ok ())
    (otherSorts : sortSignatureOf host other.sort = .ok otherSignature)
    (apart : queryBindingOf bytes params.bound ≠ queryBindingOf bytes other.bound ∨ signature ≠ otherSignature) :
    ∃ reason, queryPage host bytes table asked other = .error (invalidCursor next reason) := by
  obtain ⟨scored, listed, depth, counted, rfl⟩ := queryPage_issues sorts page
  have carries := carried scored listed depth counted
  have signed : (issuedCursor answer params signature (queryBindingOf bytes params.bound) scored depth).sortSignature =
      signature := by
    cases signature <;> rfl
  have bound : (issuedCursor answer params signature (queryBindingOf bytes params.bound) scored depth).binding =
      queryBindingOf bytes params.bound := by
    cases signature <;> rfl
  obtain ⟨reason, refused⟩ := seekCursor_other (issuedCursor_sound sorts listed counted) carries
    (by rw [bound, signed]; exact apart)
  have written := encodePageCursor_ne_nil carries
  generalize encodePageCursor host _ = text at refused sent written
  refine ⟨reason, ?_⟩
  by_cases alone : otherSignature.isSome ∧ other.sortedAlone = true
  · obtain ⟨otherText, rfl⟩ := Option.isSome_iff_exists.mp alone.1
    rw [queryPage_merged other window otherSorts alone.2, executeSortedQueryPage, sent, Option.mapM_some, refused]
    rfl
  · have slow : otherSignature = none ∨ other.sortedAlone = false := by
      cases otherSignature with
      | none => exact .inl rfl
      | some text => exact .inr (by simpa using alone)
    have own : (otherSignature.map (sortContextOf asked other)).map PaginationSortContext.signature =
        otherSignature := by
      cases otherSignature <;> rfl
    have kept : (some text).filter (fun text : JsString => !text.isEmpty) = some text := by simp [written]
    rw [queryPage_cut other window otherSorts slow, applyPagination, sent, kept, Option.mapM_some, own, refused]
    rfl

end Issues

def quoted (text : JsString) : JsString := ascii "\"" ++ text ++ ascii "\""

/-- The JSON text of a cursor with a whole score and nothing to escape. -/
def plainJson (payload : CursorPayload) : JsString :=
  ascii "\x7b\"v\":4,\"a\":" ++ quoted payload.a ++
    (payload.s.elim [] fun score => ascii ",\"s\":" ++ ascii (toString (score.getD 0).num)) ++
    (payload.d.elim [] fun depth => ascii ",\"d\":" ++ ascii (toString depth)) ++
    ascii ",\"q\":" ++ quoted payload.q ++ ascii "\x7d"

def base64Digit (value : Nat) : UInt16 :=
  if value < 26 then (0x41 + value).toUInt16
  else if value < 52 then (0x61 + (value - 26)).toUInt16
  else if value < 62 then (0x30 + (value - 52)).toUInt16
  else if value = 62 then 0x2b else 0x2f

/-- The base64 text of a string of ASCII units. -/
def base64Text : JsString → JsString
  | [] => []
  | [first] =>
    [base64Digit (first.toNat >>> 2), base64Digit (first.toNat % 4 * 16), 0x3d, 0x3d]
  | [first, second] =>
    [base64Digit (first.toNat >>> 2), base64Digit (first.toNat % 4 * 16 + second.toNat >>> 4),
      base64Digit (second.toNat % 16 * 4), 0x3d]
  | first :: second :: third :: rest =>
    base64Digit (first.toNat >>> 2) :: base64Digit (first.toNat % 4 * 16 + second.toNat >>> 4) ::
      base64Digit (second.toNat % 16 * 4 + third.toNat >>> 6) :: base64Digit (third.toNat % 64) :: base64Text rest

def twinBytes : NumberBytes := ⟨fun _ => [], id⟩

/-- A request whose binding is that of a request for another term. -/
def twinParams (term : String) (limit offset : ℚ) (cursor : Option JsString) : QueryParams where
  bound := termParams (ascii term)
  sort := []
  limit := some (.finite limit)
  offset := some (.finite offset)
  searchAfter := cursor
  includeScores := false
  includeScoreComponents := false
  group := .undefined

def twinAnswer : QueryAnswer where
  partitions := [[ascii "a"], [ascii "b"]]
  scored := [⟨ascii "a", 1⟩, ⟨ascii "b", 1⟩]
  sortValue _ _ := none
  once := by decide
  same := by decide
  ranked := by unfold Ranked; decide
  named := by decide
  reduced _ _ := rfl
  countable := by decide

def twinPayloads : List CursorPayload :=
  [ascii "a", ascii "b"].flatMap fun id => [none, some 1, some 2].map fun depth =>
    ⟨id, none, none, some (some 1), depth, ascii "c52ed1ac"⟩

def twinHost : CursorHost where
  stringify := plainJson
  stringifyLists _ := []
  parse text := (twinPayloads.find? fun payload => plainJson payload == text).map fun payload => .object payload.members
  encodeCursorText := base64Text
  decodeCursorText text := (twinPayloads.find? fun payload => base64Text (plainJson payload) == text).map plainJson
  shown _ := ""

theorem twinHost_finds : ∀ payload ∈ twinPayloads,
    twinPayloads.find? (fun other => plainJson other == plainJson payload) = some payload ∧
      twinPayloads.find? (fun other => base64Text (plainJson other) == base64Text (plainJson payload)) = some payload ∧
      base64Text (plainJson payload) ≠ [] ∧ (base64Text (plainJson payload)).length ≤ MAX_CURSOR_LENGTH := by
  decide

theorem twin_issued {scored : ScoredDocument} (listed : scored ∈ twinAnswer.scored) {depth : Option Nat}
    (counted : ∀ count ∈ depth, count ≤ twinAnswer.scored.length) :
    payloadOf (issuedCursor twinAnswer (twinParams "lotoba" 1 0 none) none (ascii "c52ed1ac") scored depth) ∈
      twinPayloads := by
  have known : scored = ⟨ascii "a", 1⟩ ∨ scored = ⟨ascii "b", 1⟩ := by
    simpa [twinAnswer] using listed
  rcases depth with _ | depth
  · rcases known with rfl | rfl <;> decide
  · have few : depth ≤ 2 := counted depth rfl
    have cases : depth = 0 ∨ depth = 1 ∨ depth = 2 := by omega
    rcases known with rfl | rfl <;> rcases cases with rfl | rfl | rfl <;> decide

set_option maxRecDepth 100000 in
theorem twin_binding : queryBindingOf twinBytes (termParams (ascii "lotoba")) = ascii "c52ed1ac" ∧
    queryBindingOf twinBytes (termParams (ascii "dutafi")) = ascii "c52ed1ac" ∧
    queryBindingOf twinBytes (termParams (ascii "dutafa")) ≠ ascii "c52ed1ac" := by
  decide

theorem twin_carries : CarriesIssued twinHost twinBytes twinAnswer (twinParams "lotoba" 1 0 none) none := by
  intro scored listed depth counted
  have bound : queryBindingOf twinBytes (twinParams "lotoba" 1 0 none).bound = ascii "c52ed1ac" := twin_binding.1
  rw [bound]
  obtain ⟨parsed, decoded, written, short⟩ := twinHost_finds _ (twin_issued listed counted)
  constructor
  · refine ⟨written, ?_, ?_⟩
    · simp only [twinHost, decoded, Option.map_some]
    · simp only [twinHost, parsed, Option.map_some]
  · exact short

theorem twin_pageable : Pageable twinHost twinBytes twinAnswer (twinParams "lotoba" 1 0 none) none where
  sorts := by rfl
  some_rows := by decide
  window := by decide
  offset := by decide
  carried := twin_carries

def twinTable : FoldTable := ⟨fun _ => none, fun _ => none⟩

set_option maxRecDepth 100000 in
theorem twin_first : queryPage twinHost twinBytes twinTable twinAnswer (twinParams "lotoba" 1 0 none) =
    .ok ([⟨ascii "a", some (.finite 1)⟩], some (ascii "eyJ2Ijo0LCJhIjoiYSIsInMiOjEsImQiOjEsInEiOiJjNTJlZDFhYyJ9")) := by
  decide

end Narsil.Cursor
