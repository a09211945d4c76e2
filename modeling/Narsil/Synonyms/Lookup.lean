import Narsil.Assoc.Entries
import Narsil.Buckets.Counted
import Narsil.Offsets.Packed
import Narsil.Segment.TokenLookups

/-!
# Synonym lookup

The words of the rules are analysed to tokens, which are numbered in code point order and
packed with the rules that have them. A lookup finds the token among the packed ones, and
gathers the other tokens of its rules.
-/
namespace Narsil.Synonyms

open Narsil.Cursor Narsil.Ordering Narsil.Segment

def SYNONYMS_ADDED_PER_QUERY : Nat := 50
def SYNONYM_EXPANSION_CACHE_ENTRIES : Nat := 1024

inductive SynonymRule
  | twoWay (words : List JsString)
  | oneWay (word : JsString) (synonyms : List JsString)

/-- The analysis of an index; every tokenizer has its unpaired surrogates replaced. -/
structure SynonymAnalysis where
  tokenize : JsString → List JsString
  wellFormed : ∀ word, ∀ token ∈ tokenize word, WellFormed token

structure SynonymProblem where
  message : String
  rule : Nat
  tokens : Nat

def analyseWord (analysis : SynonymAnalysis) (word : JsString) : JsString ⊕ Nat :=
  match analysis.tokenize word with
  | [token] => .inl token
  | tokens => .inr tokens.length

def sourceWordOf : SynonymRule → Option JsString
  | .twoWay _ => none
  | .oneWay word _ => some word

def targetWordsOf : SynonymRule → List JsString
  | .twoWay words => words
  | .oneWay _ synonyms => synonyms

/-- The token of a word; what is none is left out, or is a problem where words are strict. -/
def tokenOf (analysis : SynonymAnalysis) (strictWords : Bool) (word : JsString) (rule : Nat) :
    Except SynonymProblem (Option JsString) :=
  match analyseWord analysis word with
  | .inl token => .ok (some token)
  | .inr result =>
    if strictWords then
      let reason := if result = 0 then "to no token, as a stop word does" else s!"to {result} tokens, as a phrase does"
      .error ⟨s!"Synonym rule {rule} holds a word that the index analyses {reason}", rule, result⟩
    else .ok none

/-- The number of a token, and the tokens that are numbered then. -/
def intern (tokens : List JsString) (token : JsString) : Nat × List JsString :=
  match tokens.idxOf? token with
  | some id => (id, tokens)
  | none => (tokens.length, tokens ++ [token])

structure Building where
  tokens : List JsString
  /-- The starts of the rules, and their token ids. -/
  rules : Offsets.Packed Nat
  ruleSource : List (Option Nat)

section Build
variable (analysis : SynonymAnalysis) (strictWords : Bool)

/-- The tokens, and the ids of a rule, of the words that are left. -/
def internWords (rule : Nat) : List JsString → List JsString × List Nat → Except SynonymProblem (List JsString × List Nat)
  | [], interned => .ok interned
  | word :: words, (tokens, seen) =>
    match tokenOf analysis strictWords word rule with
    | .error problem => .error problem
    | .ok none => internWords rule words (tokens, seen)
    | .ok (some token) =>
      let (id, tokens) := intern tokens token
      internWords rule words (tokens, if id ∈ seen then seen else seen ++ [id])

def sourceTokenOf (rule : Nat) (source : Option JsString) : Except SynonymProblem (Option JsString) :=
  match source with
  | none => .ok none
  | some word => tokenOf analysis strictWords word rule

def addRule (building : Building) (at_rule : Nat) (rule : SynonymRule) : Except SynonymProblem Building :=
  match sourceTokenOf analysis strictWords at_rule (sourceWordOf rule) with
  | .error problem => .error problem
  | .ok sourceToken =>
    match internWords analysis strictWords at_rule (targetWordsOf rule) (building.tokens, []) with
    | .error problem => .error problem
    | .ok (tokens, ids) =>
      let ruleTokenIds := building.rules.values ++ ids
      match sourceWordOf rule, sourceToken with
      | none, _ => .ok ⟨tokens, ⟨building.rules.offsets ++ [ruleTokenIds.length], ruleTokenIds⟩, building.ruleSource ++ [none]⟩
      | some _, some token =>
        let (id, tokens) := intern tokens token
        .ok ⟨tokens, ⟨building.rules.offsets ++ [ruleTokenIds.length], ruleTokenIds⟩, building.ruleSource ++ [some id]⟩
      | some _, none =>
        -- The tokens of a rule without its source are taken out again.
        let left := ruleTokenIds.take (building.rules.offsets.getD at_rule 0)
        .ok ⟨tokens, ⟨building.rules.offsets ++ [left.length], left⟩, building.ruleSource ++ [none]⟩

def addRules : Nat → List SynonymRule → Building → Except SynonymProblem Building
  | _, [], building => .ok building
  | at_rule, rule :: rules, building =>
    match addRule analysis strictWords building at_rule rule with
    | .error problem => .error problem
    | .ok later => addRules (at_rule + 1) rules later

end Build

structure SynonymLookup where
  strings : StringBlob
  ruleTokens : Offsets.Packed Nat
  tokenRules : Offsets.Packed Nat

/-- The ids in code point order of their tokens. -/
def orderOf (tokens : List JsString) : List Nat :=
  (List.range tokens.length).mergeSort fun a b => (compareCodePoints (tokens.getD a []) (tokens.getD b [])).isLE

/-- Where a rule is found: at its source, or at each of its tokens. -/
def keysOf (ruleTokens : Offsets.Packed Nat) (sources : List (Option Nat)) (rule : Nat) : List Nat :=
  match sources.getD rule none with
  | some source => [source]
  | none => ruleTokens.segment rule

def rulesByToken (ruleTokens : Offsets.Packed Nat) (sources : List (Option Nat)) : List (Nat × Nat) :=
  (List.range sources.length).flatMap fun rule => (keysOf ruleTokens sources rule).map fun token => (token, rule)

def packedLookup (building : Building) : SynonymLookup :=
  let order := orderOf building.tokens
  let rank : Nat → Nat := fun id => order.idxOf id
  let ruleTokens : Offsets.Packed Nat := ⟨building.rules.offsets, building.rules.values.map rank⟩
  let sources := building.ruleSource.map (Option.map rank)
  let found := rulesByToken ruleTokens sources
  let tokenRuleStart := offsetsOf 0 (Buckets.countKeys building.tokens.length (found.map Prod.fst))
  let room := List.replicate (tokenRuleStart.getD building.tokens.length 0) 0
  { strings := encodeStringBlob (order.map fun id => building.tokens.getD id [])
    ruleTokens
    tokenRules := ⟨tokenRuleStart, Buckets.place (tokenRuleStart.take building.tokens.length) room found⟩ }

/-- A lookup, unless the rules have no token at all. -/
def buildSynonymLookup (analysis : SynonymAnalysis) (strictWords : Bool) (rules : List SynonymRule) :
    Except SynonymProblem (Option SynonymLookup) :=
  (addRules analysis strictWords 0 rules ⟨[], Offsets.Packed.empty, []⟩).map fun building =>
    if building.rules.values.length = 0 then none else some (packedLookup building)

/-- The place between two bounds that compares equal, where what is below it compares less. -/
def searchBetween (compareAt : Nat → Int) : Nat → Nat → Nat → Option Nat
  | 0, _, _ => none
  | fuel + 1, low, above =>
    if low < above then
      let middle := (low + (above - 1)) / 2
      let order := compareAt middle
      if order = 0 then some middle
      else if order < 0 then searchBetween compareAt fuel (middle + 1) above
      else searchBetween compareAt fuel low middle
    else none

/-- Each id once, and so many of them, of ids in order. -/
def firstDistinct (previous : Option Nat) : Nat → List Nat → List Nat
  | _, [] => []
  | room, id :: found =>
    if room = 0 then []
    else if some id = previous then firstDistinct previous room found
    else id :: firstDistinct (some id) (room - 1) found

namespace SynonymLookup

variable (lookup : SynonymLookup)

def rankOf (token : JsString) : Option Nat :=
  let key := encodeLookupKey token
  let offsets := lookup.strings.offsets
  searchBetween (fun middle => compareBytes lookup.strings.blob (offsets.getD middle 0) (offsets.getD (middle + 1) 0) key)
    offsets.length 0 (offsets.length - 1)

def found (token : Nat) : List Nat :=
  (lookup.tokenRules.segment token).flatMap fun rule => (lookup.ruleTokens.segment rule).filter fun other => other ≠ token

def collect (token : Nat) : List JsString :=
  let ids := (lookup.found token).mergeSort fun a b => a ≤ b
  (firstDistinct none SYNONYMS_ADDED_PER_QUERY ids).map fun id => decodeText (lookup.strings.stringBytes id)

/-- The answer that no cache has. -/
def answer (token : JsString) : List JsString :=
  match lookup.rankOf token with
  | none => []
  | some rank => lookup.collect rank

/-- The answer, and the cache behind it: the token that was looked up last stands last. -/
def synonymsOf (cache : List (JsString × List JsString)) (token : JsString) :
    List JsString × List (JsString × List JsString) :=
  match Assoc.lookup cache token with
  | some cached => (cached, Assoc.set (Assoc.erase cache token) token cached)
  | none =>
    match lookup.rankOf token with
    | none => ([], cache)
    | some rank =>
      let synonyms := lookup.collect rank
      let kept := if SYNONYM_EXPANSION_CACHE_ENTRIES ≤ cache.length then cache.drop 1 else cache
      (synonyms, Assoc.set kept token synonyms)

/-- The cache after lookups, one after the other. -/
def cacheAfter (asked : List JsString) : List (JsString × List JsString) :=
  asked.foldl (fun cache token => (lookup.synonymsOf cache token).2) []

end SynonymLookup

def singleToken (analysis : SynonymAnalysis) (word : JsString) : Option JsString :=
  match analysis.tokenize word with
  | [token] => some token
  | _ => none

def synonymsByRule (analysis : SynonymAnalysis) (token : JsString) : SynonymRule → List JsString
  | .twoWay words =>
    let tokens := words.filterMap (singleToken analysis)
    if token ∈ tokens then tokens else []
  | .oneWay word synonyms =>
    if singleToken analysis word = some token then synonyms.filterMap (singleToken analysis) else []

/-- The first synonyms in code point order, each once. -/
def expectedSynonyms (analysis : SynonymAnalysis) (rules : List SynonymRule) (token : JsString) : List JsString :=
  let synonyms := (rules.flatMap (synonymsByRule analysis token)).filter fun other => other ≠ token
  (synonyms.dedup.mergeSort fun a b => (compareCodePoints a b).isLE).take SYNONYMS_ADDED_PER_QUERY

end Narsil.Synonyms
