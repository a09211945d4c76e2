import Narsil.Cursor.PageCursor
import Narsil.Ranking.Smallest

/-!
# The pages of a full-text query

A page is cut from the ranked hits behind the anchor of its cursor, or, where only the
sort decides, selected from each partition and merged. A query with a vector, or one
that is reranked, is paged elsewhere.
-/
namespace Narsil.Cursor
open Narsil.Ordering Narsil.Ranking

def RESULT_WINDOW : Nat := 10000
def DEFAULT_LIMIT : Nat := 10
def DEFAULT_OFFSET : Nat := 0

def clampRowCount (value : Option JsNumber) (fallback : Nat) : Nat :=
  match value with
  | some (.finite value) => value.floor.toNat
  | _ => fallback

def requireWithinResultWindow (limit offset : Nat) : Except NarsilError Unit :=
  if offset + limit ≤ RESULT_WINDOW then .ok ()
  else .error ⟨.SEARCH_RESULT_WINDOW_EXCEEDED,
    "A request reaches the first " ++ toString RESULT_WINDOW ++ " results, and offset + limit is " ++
      toString (offset + limit) ++ ". Page past that with the cursor each result carries", []⟩

/-- How far a vector search is read for a page. -/
def vectorFetchDepth (limit offset cursorDepth : Nat) : Except NarsilError Nat :=
  if cursorDepth + offset + limit > RESULT_WINDOW then
    .error ⟨.SEARCH_RESULT_WINDOW_EXCEEDED,
      "The engine pages a vector search through the first " ++ toString RESULT_WINDOW ++
        " results, and this page ends at " ++ toString (cursorDepth + offset + limit) ++
        ". Narrow the search with a filter or a similarity floor", []⟩
  else .ok (min (cursorDepth + offset + limit + 1) RESULT_WINDOW)

structure SortField where
  field : JsString
  direction : SortDirection
  mode : Option SortMode
  deriving DecidableEq, Repr

def defaultSortMode : SortDirection → SortMode
  | .desc => .max
  | .asc => .min

def sortModeOf (entry : SortField) : SortMode := entry.mode.getD (defaultSortMode entry.direction)

def directionText : SortDirection → JsString
  | .asc => ascii "asc"
  | .desc => ascii "desc"

def modeText : SortMode → JsString
  | .min => ascii "min"
  | .max => ascii "max"
  | .avg => ascii "avg"
  | .median => ascii "median"

def sortSignatureEntry (entry : SortField) : List JsString :=
  if sortModeOf entry = defaultSortMode entry.direction then [entry.field, directionText entry.direction]
  else [entry.field, directionText entry.direction, modeText (sortModeOf entry)]

def sortSignatureOf (host : CursorHost) (fields : List SortField) : Except NarsilError (Option JsString) :=
  if fields.length = 0 then .ok none
  else if fields.length > MAX_SORT_FIELDS then
    .error ⟨.SEARCH_INVALID_FIELD, "A sort names at most " ++ toString MAX_SORT_FIELDS ++
      " fields, because the paging cursor carries one value per field", []⟩
  else if fields.any fun entry => entry.field.length > MAX_SORT_FIELD_NAME_LENGTH then
    .error ⟨.SEARCH_INVALID_FIELD, "A sort field name holds at most " ++ toString MAX_SORT_FIELD_NAME_LENGTH ++
      " characters, because the paging cursor carries the sort with every page", []⟩
  else .ok (some (host.stringifyLists (fields.map sortSignatureEntry)))

structure Hit where
  id : JsString
  score : Option JsNumber
  deriving DecidableEq, Repr

structure PaginationSortContext where
  signature : JsString
  directions : List SortDirection
  sortKeyOf : JsString → List RawValue

section Pages
variable (host : CursorHost) (table : FoldTable)

def ordersAfterAnchor (result : Hit) (anchor : PageCursor) (sort : Option PaginationSortContext) : Bool :=
  match sort, anchor.sortKey with
  | some sort, some key =>
    ((compareSortValues table (sort.sortKeyOf result.id) (key.map rawOf) sort.directions).then
      (compareCodePoints result.id anchor.anchor)).isGT
  | _, _ =>
    match anchor.score, result.score with
    | none, _ => true
    | _, none => true
    | some anchored, some score =>
      score.lt anchored || (score.same anchored && (compareCodePoints result.id anchor.anchor).isGT)

def lastOrganicResult (sliced : List Hit) (pinnedIds : Option (List JsString)) : Option Hit :=
  sliced.reverse.find? fun hit => pinnedIds.elim true fun pinned => !pinned.contains hit.id

/-- The cursor to what follows a hit. -/
def cursorBehind (sort : Option PaginationSortContext) (binding : JsString) (last : Hit) (depth : Nat) :
    PageCursor :=
  match sort with
  | some sort =>
    { anchor := last.id, score := none,
      sortKey := some ((sort.sortKeyOf last.id).map toComparableSortValue),
      sortSignature := some sort.signature, depth := some depth, binding }
  | none =>
    { anchor := last.id, score := last.score, sortKey := none, sortSignature := none,
      depth := some depth, binding }

/-- The cursor of a request, decoded and held against the request. -/
def seekCursor (cursor : JsString) (signature : Option JsString) (binding : JsString) :
    Except NarsilError PageCursor := do
  let decoded ← decodePageCursor host cursor
  requireMatchingCursor decoded cursor signature true binding
  return decoded

def pageFrom (results : List Hit) (limit afterOffset : Nat) (binding : JsString)
    (sort : Option PaginationSortContext) (pinnedIds : Option (List JsString)) : List Hit × Option JsString :=
  let sliced := (results.drop afterOffset).take limit
  let nextCursor :=
    if afterOffset + limit < results.length then
      (lastOrganicResult sliced pinnedIds).map fun last =>
        encodePageCursor host (cursorBehind sort binding last (afterOffset + sliced.length))
    else none
  (sliced, nextCursor)

def applyPagination (results : List Hit) (limit offset : Nat) (binding : JsString) (cursor : Option JsString)
    (sort : Option PaginationSortContext) (pinnedIds : Option (List JsString)) :
    Except NarsilError (List Hit × Option JsString) := do
  -- An empty text counts as no cursor.
  let decoded ← (cursor.filter fun text => !text.isEmpty).mapM fun text =>
    seekCursor host text (sort.map PaginationSortContext.signature) binding
  if limit = 0 then return ([], none)
  let startIndex := decoded.elim 0 fun anchor => results.findIdx fun hit => ordersAfterAnchor table hit anchor sort
  return pageFrom host results limit (startIndex + offset) binding sort pinnedIds

structure SortedPageEntry where
  id : JsString
  key : List ComparableSortValue
  deriving DecidableEq, Repr

def compareEntries (directions : List SortDirection) (first second : SortedPageEntry) : Ordering :=
  (compareComparableKeys table first.key second.key directions).then (compareCodePoints first.id second.id)

instance (directions : List SortDirection) : Std.TransCmp (compareEntries table directions) := by
  have byKey : Std.TransCmp fun first second : SortedPageEntry =>
      compareComparableKeys table first.key second.key directions :=
    transCmp_on (fun first second => compareComparableKeys table first second directions) SortedPageEntry.key
  have byId : Std.TransCmp fun first second : SortedPageEntry => compareCodePoints first.id second.id :=
    transCmp_on compareCodePoints SortedPageEntry.id
  exact inferInstanceAs (Std.TransCmp (compareLex _ _))

/-- What the page of a partition takes: the entries behind the anchor. -/
def isBehind (directions : List SortDirection) (anchor : Option SortedPageEntry) (entry : SortedPageEntry) : Bool :=
  anchor.elim true fun anchor => (compareEntries table directions entry anchor).isGT

/-- The first matching documents of a partition behind the anchor. The source reads them
in the order of the first sort field, and stops when no later one can come in. -/
def selectSortedPage (directions : List SortDirection) (limit : Nat) (anchor : Option SortedPageEntry)
    (matched : List SortedPageEntry) : List SortedPageEntry :=
  if limit = 0 ∨ directions = [] then []
  else
    (matched.filter (isBehind table directions anchor)).foldl
      (keepSmallest (compareEntries table directions) limit) []

/-- The cursor to what follows an entry. -/
def sortedCursor (signature binding : JsString) (last : SortedPageEntry) : PageCursor where
  anchor := last.id
  score := none
  sortKey := some last.key
  sortSignature := some signature
  depth := none
  binding := binding

/-- The pages of the partitions, merged and cut. -/
def mergeSortedPages (partitions : List (List SortedPageEntry)) (limit offset : Nat)
    (directions : List SortDirection) (signature binding : JsString) (anchor : Option SortedPageEntry) :
    List SortedPageEntry × Option JsString :=
  let merged := sorted (compareEntries table directions)
    (partitions.map (selectSortedPage table directions (offset + limit + 1) anchor)).flatten
  let page := (merged.drop offset).take limit
  let cursor :=
    if offset + limit < merged.length then
      page.getLast?.map fun last => encodePageCursor host (sortedCursor signature binding last)
    else none
  (page, cursor)

def executeSortedQueryPage (partitions : List (List SortedPageEntry)) (limit offset : Nat)
    (directions : List SortDirection) (signature binding : JsString) (searchAfter : Option JsString) :
    Except NarsilError (List SortedPageEntry × Option JsString) := do
  let decoded ← searchAfter.mapM fun text => seekCursor host text (some signature) binding
  let anchor := decoded.bind fun cursor => cursor.sortKey.map fun key => ⟨cursor.anchor, key⟩
  return mergeSortedPages host table partitions limit offset directions signature binding anchor

end Pages

structure QueryParams where
  bound : BoundParams
  sort : List SortField
  limit : Option JsNumber
  offset : Option JsNumber
  searchAfter : Option JsString
  includeScores : Bool
  includeScoreComponents : Bool
  group : JsValue

def QueryParams.limitRows (params : QueryParams) : Nat := clampRowCount params.limit DEFAULT_LIMIT

def QueryParams.offsetRows (params : QueryParams) : Nat := clampRowCount params.offset DEFAULT_OFFSET

/-- The units that trimming takes from the ends of a string. -/
def isWhitespace (unit : UInt16) : Bool :=
  [0x9, 0xa, 0xb, 0xc, 0xd, 0x20, 0xa0, 0x1680, 0x2028, 0x2029, 0x202f, 0x205f, 0x3000, 0xfeff].contains unit ||
    (0x2000 ≤ unit && unit ≤ 0x200a)

def hasTerm (term : Option JsString) : Bool := term.any fun text => text.any fun unit => !isWhitespace unit

def sortsWithoutScores (params : QueryParams) : Bool :=
  !params.includeScores && !params.includeScoreComponents && params.bound.minScore.isUndefined &&
    params.group.isUndefined && params.bound.pinned.isUndefined &&
    match params.bound.termMatch with
    | .undefined => true
    | .string policy => policy == ascii "any"
    | _ => false

structure ScoredDocument where
  docId : JsString
  score : ℚ
  deriving DecidableEq, Repr

/-- The order of scored documents: by falling score, and by id where scores are equal. -/
def compareScored (first second : ScoredDocument) : Ordering :=
  (compare second.score first.score).then (compareCodePoints first.docId second.docId)

instance : Std.TransCmp compareScored := by
  have byScore : Std.TransCmp fun first second : ScoredDocument => compare second.score first.score :=
    transCmp_on (fun first second : ℚ => compare second first) ScoredDocument.score
  have byId : Std.TransCmp fun first second : ScoredDocument => compareCodePoints first.docId second.docId :=
    transCmp_on compareCodePoints ScoredDocument.docId
  exact inferInstanceAs (Std.TransCmp (compareLex _ _))

/-- What a fixed index answers to a request: the documents that match, by partition, and
ranked by score, and the value each has in a sort field. -/
structure QueryAnswer where
  partitions : List (List JsString)
  scored : List ScoredDocument
  sortValue : JsString → SortField → ComparableSortValue
  once : partitions.flatten.Nodup
  same : (scored.map ScoredDocument.docId).Perm partitions.flatten
  ranked : Ranked compareScored scored
  named : ∀ id ∈ partitions.flatten, id ≠ [] ∧ id.length ≤ MAX_CURSOR_ANCHOR_CODE_POINTS
  reduced : ∀ id field, toComparableSortValue (rawOf (sortValue id field)) = sortValue id field
  countable : scored.length < 2 ^ 32

def QueryAnswer.sortValues (answer : QueryAnswer) (fields : List SortField) (id : JsString) :
    List ComparableSortValue :=
  fields.map (answer.sortValue id)

def QueryAnswer.entryOf (answer : QueryAnswer) (fields : List SortField) (id : JsString) : SortedPageEntry :=
  ⟨id, answer.sortValues fields id⟩

section Query
variable (host : CursorHost) (bytes : NumberBytes) (table : FoldTable) (answer : QueryAnswer) (params : QueryParams)

def hitOf (scored : ScoredDocument) : Hit := ⟨scored.docId, some (.finite scored.score)⟩

def applySorting (hits : List Hit) : List Hit :=
  if params.sort.isEmpty then hits
  else sorted (fun first second => compareEntries table (params.sort.map SortField.direction)
    (answer.entryOf params.sort first.id) (answer.entryOf params.sort second.id)) hits

def sortContextOf (signature : JsString) : PaginationSortContext where
  signature := signature
  directions := params.sort.map SortField.direction
  sortKeyOf id := (answer.sortValues params.sort id).map rawOf

def QueryParams.needsFullHits : Bool :=
  !params.sort.isEmpty || !params.group.isUndefined || !params.bound.pinned.isUndefined ||
    params.searchAfter.isSome

/-- The page of a full-text request without pinned documents. -/
def queryPage : Except NarsilError (List Hit × Option JsString) := do
  requireWithinResultWindow params.limitRows params.offsetRows
  let signature ← sortSignatureOf host params.sort
  let binding := queryBindingOf bytes params.bound
  match signature, hasTerm params.bound.term && sortsWithoutScores params with
  | some signature, true =>
    let page ← executeSortedQueryPage host table
      (answer.partitions.map fun partition => partition.map (answer.entryOf params.sort))
      params.limitRows params.offsetRows (params.sort.map SortField.direction) signature binding params.searchAfter
    return (page.1.map fun entry => ⟨entry.id, none⟩, page.2)
  | signature, _ =>
    let hits :=
      if params.needsFullHits then answer.scored.map hitOf
      else (answer.scored.take (params.offsetRows + params.limitRows + 1)).map hitOf
    let page ← applyPagination host table (applySorting table answer params hits) params.limitRows
      params.offsetRows binding params.searchAfter (signature.map (sortContextOf answer params)) none
    if signature.isSome && !params.includeScores then
      return (page.1.map fun hit => { hit with score := none }, page.2)
    else return page

end Query

end Narsil.Cursor
