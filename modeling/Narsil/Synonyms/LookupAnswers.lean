import Mathlib.Data.List.Dedup
import Narsil.Synonyms.Lookup

/-!
# What a synonym lookup answers

The packed rules are those of the words, with their tokens numbered in code point order, and
a lookup gathers the synonyms of a token from them, whatever its cache holds.
-/
namespace Narsil.Synonyms

open Narsil.Cursor Narsil.Ordering Narsil.Segment

/-! ### The rules that are built -/

/-- The source and the targets that are left of a rule. -/
def resolve (analysis : SynonymAnalysis) : SynonymRule → Option JsString × List JsString
  | .twoWay words => (none, words.filterMap (singleToken analysis))
  | .oneWay word synonyms =>
    match singleToken analysis word with
    | none => (none, [])
    | some source => (some source, synonyms.filterMap (singleToken analysis))

structure Names (tokens : List JsString) : Prop where
  distinct : tokens.Nodup
  wellFormed : ∀ token ∈ tokens, WellFormed token

/-- The ids of a rule are those of its tokens. -/
structure RuleAt (tokens : List JsString) (entry : List Nat × Option Nat) (meant : Option JsString × List JsString) : Prop where
  valid : ∀ id ∈ entry.1, id < tokens.length
  targets : ∀ token, token ∈ meant.2 ↔ ∃ id ∈ entry.1, tokens[id]? = some token
  source : entry.2 = none ∧ meant.1 = none ∨
    ∃ id token, entry.2 = some id ∧ meant.1 = some token ∧ tokens[id]? = some token

section Building
variable {analysis : SynonymAnalysis} {strictWords : Bool} {tokens others : List JsString} {token : JsString}

theorem getElem?_of_prefix (grown : tokens <+: others) {id : Nat} (inside : id < tokens.length) :
    others[id]? = tokens[id]? := by
  obtain ⟨rest, rfl⟩ := grown
  exact List.getElem?_append_left inside

theorem RuleAt.renumber {entry : List Nat × Option Nat} {meant : Option JsString × List JsString}
    (rule : RuleAt tokens entry meant) {renumbered : Nat → Nat}
    (same : ∀ id < tokens.length, others[renumbered id]? = tokens[id]?) :
    RuleAt others (entry.1.map renumbered, entry.2.map renumbered) meant where
  valid id isIn := by
    obtain ⟨before, isBefore, rfl⟩ := List.mem_map.mp isIn
    have inside := rule.valid before isBefore
    exact (List.getElem?_eq_some_iff.mp ((same before inside).trans (List.getElem?_eq_getElem inside))).1
  targets token := by
    rw [rule.targets]
    constructor
    · rintro ⟨id, isIn, at_id⟩
      exact ⟨renumbered id, List.mem_map_of_mem isIn, (same id (rule.valid id isIn)).trans at_id⟩
    · rintro ⟨_, isIn, at_id⟩
      obtain ⟨id, isId, rfl⟩ := List.mem_map.mp isIn
      exact ⟨id, isId, (same id (rule.valid id isId)).symm.trans at_id⟩
  source := by
    rcases rule.source with ⟨none_left, none_meant⟩ | ⟨id, token, isId, isToken, at_id⟩
    · exact .inl ⟨by rw [none_left]; rfl, none_meant⟩
    · refine .inr ⟨renumbered id, token, by rw [isId]; rfl, isToken, ?_⟩
      exact (same id (List.getElem?_eq_some_iff.mp at_id).1).trans at_id

theorem RuleAt.grow {entry : List Nat × Option Nat} {meant : Option JsString × List JsString}
    (rule : RuleAt tokens entry meant) (grown : tokens <+: others) : RuleAt others entry meant := by
  have kept := @RuleAt.renumber _ others _ _ rule id fun id inside => getElem?_of_prefix grown inside
  rwa [List.map_id, Option.map_id] at kept

theorem tokenOf_single {word : JsString} {rule : Nat} {result : Option JsString}
    (analysed : tokenOf analysis strictWords word rule = .ok result) : result = singleToken analysis word := by
  rw [tokenOf, analyseWord] at analysed
  rw [singleToken]
  cases tokenized : analysis.tokenize word with
  | nil =>
    rw [tokenized] at analysed
    cases strictWords
    · exact (Except.ok.inj analysed).symm
    · cases analysed
  | cons first rest =>
    rw [tokenized] at analysed
    cases rest with
    | nil => exact (Except.ok.inj analysed).symm
    | cons second rest =>
      cases strictWords
      · exact (Except.ok.inj analysed).symm
      · cases analysed

theorem singleToken_wellFormed {word : JsString} (single : singleToken analysis word = some token) : WellFormed token := by
  rw [singleToken] at single
  cases tokenized : analysis.tokenize word with
  | nil =>
    rw [tokenized] at single
    cases single
  | cons first rest =>
    rw [tokenized] at single
    cases rest with
    | nil =>
      cases single
      exact analysis.wellFormed word _ (by rw [tokenized]; exact List.mem_singleton_self _)
    | cons second rest => cases single

theorem intern_spec (names : Names tokens) (wellFormed : WellFormed token) :
    tokens <+: (intern tokens token).2 ∧ Names (intern tokens token).2 ∧
      (intern tokens token).2[(intern tokens token).1]? = some token := by
  rw [intern]
  cases found : tokens.idxOf? token with
  | some id =>
    obtain ⟨inside, same, _⟩ := List.idxOf?_eq_some_iff.mp found
    exact ⟨List.prefix_rfl, names, same ▸ List.getElem?_eq_getElem inside⟩
  | none =>
    have new : token ∉ tokens := List.idxOf?_eq_none_iff.mp found
    refine ⟨List.prefix_append _ _, ⟨?_, ?_⟩, List.getElem?_concat_length⟩
    · exact names.distinct.append (List.nodup_singleton _) (by simpa using new)
    · intro other isIn
      rcases List.mem_append.mp isIn with isIn | isIn
      · exact names.wellFormed other isIn
      · rw [List.mem_singleton.mp isIn]
        exact wellFormed

theorem internWords_spec {rule : Nat} {words : List JsString} {seen ids : List Nat}
    (interned : internWords analysis strictWords rule words (tokens, seen) = .ok (others, ids)) (names : Names tokens)
    (valid : ∀ id ∈ seen, id < tokens.length) :
    tokens <+: others ∧ Names others ∧ (∀ id ∈ ids, id < others.length) ∧
      ∀ token, (∃ id ∈ ids, others[id]? = some token) ↔
        (∃ id ∈ seen, tokens[id]? = some token) ∨ token ∈ words.filterMap (singleToken analysis) := by
  induction words generalizing tokens seen with
  | nil =>
    obtain ⟨rfl, rfl⟩ := Prod.mk.inj (Except.ok.inj interned)
    exact ⟨List.prefix_rfl, names, valid, fun token => by simp⟩
  | cons word words ih =>
    rw [internWords] at interned
    cases analysed : tokenOf analysis strictWords word rule with
    | error problem =>
      rw [analysed] at interned
      cases interned
    | ok result =>
      rw [analysed] at interned
      have single := tokenOf_single analysed
      cases result with
      | none =>
        obtain ⟨grown, later, inside, same⟩ := ih interned names valid
        refine ⟨grown, later, inside, fun token => ?_⟩
        rw [same, List.filterMap_cons_none single.symm]
      | some found =>
        obtain ⟨grown, named, at_found⟩ := intern_spec names (singleToken_wellFormed single.symm)
        have found_inside := (List.getElem?_eq_some_iff.mp at_found).1
        have seen_valid : ∀ id ∈ (if (intern tokens found).1 ∈ seen then seen else seen ++ [(intern tokens found).1]),
            id < (intern tokens found).2.length := by
          intro id isIn
          have isOld : id ∈ seen → id < (intern tokens found).2.length := fun isOld =>
            Nat.lt_of_lt_of_le (valid id isOld) grown.length_le
          split at isIn
          · exact isOld isIn
          · rcases List.mem_append.mp isIn with isIn | isIn
            · exact isOld isIn
            · exact List.mem_singleton.mp isIn ▸ found_inside
        obtain ⟨further, later, inside, same⟩ := ih interned named seen_valid
        refine ⟨grown.trans further, later, inside, fun token => ?_⟩
        have seen_now : (∃ id ∈ (if (intern tokens found).1 ∈ seen then seen else seen ++ [(intern tokens found).1]),
            (intern tokens found).2[id]? = some token) ↔ (∃ id ∈ seen, tokens[id]? = some token) ∨ token = found := by
          have isOld : ∀ id ∈ seen, (intern tokens found).2[id]? = tokens[id]? := fun id isIn =>
            getElem?_of_prefix grown (valid id isIn)
          constructor
          · rintro ⟨id, isIn, at_id⟩
            by_cases before : id ∈ seen
            · exact .inl ⟨id, before, isOld id before ▸ at_id⟩
            · have last : id = (intern tokens found).1 := by
                split at isIn
                · exact absurd isIn before
                · exact List.mem_singleton.mp ((List.mem_append.mp isIn).resolve_left before)
              rw [last, at_found] at at_id
              exact .inr (Option.some.inj at_id).symm
          · rintro (⟨id, isIn, at_id⟩ | rfl)
            · refine ⟨id, ?_, (isOld id isIn).trans at_id⟩
              split
              · exact isIn
              · exact List.mem_append_left _ isIn
            · refine ⟨_, ?_, at_found⟩
              split
              · assumption
              · exact List.mem_append_right _ (List.mem_singleton_self _)
        refine (same token).trans ((or_congr_left seen_now).trans ?_)
        rw [List.filterMap_cons_some single.symm, List.mem_cons, or_assoc]

/-- The rules so far are those that were read, packed one behind the other. -/
structure Built (analysis : SynonymAnalysis) (building : Building) (rules : List SynonymRule) : Prop where
  names : Names building.tokens
  entries : ∃ entries : List (List Nat × Option Nat), building.rules = Offsets.Packed.pack (entries.map Prod.fst) ∧
    building.ruleSource = entries.map Prod.snd ∧
    List.Forall₂ (fun entry rule => RuleAt building.tokens entry (resolve analysis rule)) entries rules

theorem Built.push {building later : Building} {rules : List SynonymRule} (built : Built analysis building rules)
    {rule : SynonymRule} {entry : List Nat × Option Nat} (grown : building.tokens <+: later.tokens) (names : Names later.tokens)
    (packed : later.rules = building.rules.push entry.1) (source : later.ruleSource = building.ruleSource ++ [entry.2])
    (at_rule : RuleAt later.tokens entry (resolve analysis rule)) : Built analysis later (rules ++ [rule]) := by
  obtain ⟨entries, is_packed, is_source, each⟩ := built.entries
  refine ⟨names, entries ++ [entry], ?_, ?_, ?_⟩
  · rw [packed, is_packed, List.map_append, List.map_singleton, Offsets.Packed.pack_concat]
  · rw [source, is_source, List.map_append, List.map_singleton]
  · exact List.rel_append (each.imp fun _ _ before => before.grow grown) (.cons at_rule .nil)

theorem addRule_built {building later : Building} {rules : List SynonymRule} (built : Built analysis building rules)
    {rule : SynonymRule} (added : addRule analysis strictWords building rules.length rule = .ok later) :
    Built analysis later (rules ++ [rule]) := by
  rw [addRule] at added
  cases sourced : sourceTokenOf analysis strictWords rules.length (sourceWordOf rule) with
  | error problem =>
    rw [sourced] at added
    cases added
  | ok sourceToken =>
    rw [sourced] at added
    dsimp only at added
    cases interned : internWords analysis strictWords rules.length (targetWordsOf rule) (building.tokens, []) with
    | error problem =>
      rw [interned] at added
      cases added
    | ok both =>
      obtain ⟨tokens, ids⟩ := both
      rw [interned] at added
      dsimp only at added
      obtain ⟨grown, names, valid, same⟩ := internWords_spec interned built.names (List.forall_mem_nil _)
      have targets : ∀ token, token ∈ (targetWordsOf rule).filterMap (singleToken analysis) ↔
          ∃ id ∈ ids, tokens[id]? = some token := fun token => by
        rw [same]
        simp
      cases rule with
      | twoWay words =>
        obtain rfl := Except.ok.inj added
        exact @Built.push _ _ _ _ built _ (ids, none) grown names (by simp [Offsets.Packed.push]) rfl
          ⟨valid, targets, .inl ⟨rfl, rfl⟩⟩
      | oneWay word synonyms =>
        have single : sourceToken = singleToken analysis word := tokenOf_single sourced
        cases sourceToken with
        | some token =>
          obtain rfl := Except.ok.inj added
          obtain ⟨further, named, at_token⟩ := intern_spec names (singleToken_wellFormed single.symm)
          have resolved : resolve analysis (.oneWay word synonyms) =
              (some token, synonyms.filterMap (singleToken analysis)) := by rw [resolve, ← single]
          refine @Built.push _ _ _ _ built _ (ids, some (intern tokens token).1) (grown.trans further) named
            (by simp [Offsets.Packed.push]) rfl ?_
          rw [resolved]
          have now : RuleAt tokens (ids, none) (none, synonyms.filterMap (singleToken analysis)) :=
            ⟨valid, targets, .inl ⟨rfl, rfl⟩⟩
          have later := now.grow further
          exact ⟨later.valid, later.targets, .inr ⟨_, token, rfl, rfl, at_token⟩⟩
        | none =>
          obtain rfl := Except.ok.inj added
          have resolved : resolve analysis (.oneWay word synonyms) = (none, []) := by rw [resolve, ← single]
          obtain ⟨entries, is_packed, is_source, each⟩ := built.entries
          have before : (building.rules.values ++ ids).take (building.rules.offsets.getD rules.length 0) =
              building.rules.values := by
            obtain ⟨_, flat, offsets⟩ := Offsets.Packed.pack_spec (entries.map Prod.fst)
            rw [is_packed, ← each.length_eq, List.getD_eq_getElem?_getD, offsets _ (by simp), Option.getD_some,
              ← List.length_map (f := Prod.fst), List.take_length, flat, List.take_left]
          refine @Built.push _ _ _ _ built _ ([], none) grown names ?_ rfl ?_
          · show Offsets.Packed.mk _ _ = _
            rw [before]
            simp [Offsets.Packed.push]
          · rw [resolved]
            exact ⟨List.forall_mem_nil _, fun token => by simp, .inl ⟨rfl, rfl⟩⟩

theorem addRules_built {building later : Building} {rules more : List SynonymRule} (built : Built analysis building rules)
    (added : addRules analysis strictWords rules.length more building = .ok later) : Built analysis later (rules ++ more) := by
  induction more generalizing building rules with
  | nil =>
    obtain rfl := Except.ok.inj added
    rwa [List.append_nil]
  | cons rule more ih =>
    rw [addRules] at added
    cases now : addRule analysis strictWords building rules.length rule with
    | error problem =>
      rw [now] at added
      cases added
    | ok middle =>
      rw [now] at added
      have step := ih (addRule_built built now) (by rw [List.length_append]; exact added)
      rwa [List.append_assoc] at step

end Building

/-! ### The packed rules -/

/-- The tokens in code point order. -/
def rankedTokens (tokens : List JsString) : List JsString := (orderOf tokens).map fun id => tokens.getD id []

structure Ranked (strings : List JsString) : Prop where
  ascending : strings.Pairwise fun earlier later => compareCodePoints earlier later = .lt
  wellFormed : ∀ token ∈ strings, WellFormed token

section Packing
variable {tokens : List JsString}

theorem orderOf_perm (tokens : List JsString) : (orderOf tokens).Perm (List.range tokens.length) := List.mergeSort_perm _ _

theorem rankedTokens_perm (tokens : List JsString) : (rankedTokens tokens).Perm tokens := by
  refine ((orderOf_perm tokens).map _).trans (List.Perm.of_eq (List.ext_getElem (by simp) fun id inside inside' => ?_))
  rw [List.getElem_map, List.getElem_range, List.getD_eq_getElem?_getD, List.getElem?_eq_getElem inside']
  rfl

theorem compareCodePoints_self (value : JsString) : compareCodePoints value value = .eq := Std.ReflCmp.compare_self

theorem total_le (left right : JsString) :
    ((compareCodePoints left right).isLE || (compareCodePoints right left).isLE) = true := by
  rw [@Std.OrientedCmp.eq_swap _ compareCodePoints _ right left]
  cases compareCodePoints left right <;> rfl

theorem Names.ranked (names : Names tokens) : Ranked (rankedTokens tokens) where
  ascending := by
    have sorted : (rankedTokens tokens).Pairwise fun earlier later => (compareCodePoints earlier later).isLE = true :=
      List.pairwise_map.mpr (@List.pairwise_mergeSort _
        (fun a b => (compareCodePoints (tokens.getD a []) (tokens.getD b [])).isLE)
        (fun _ _ _ => @Std.TransCmp.isLE_trans _ compareCodePoints _ _ _ _) (fun _ _ => total_le _ _) _)
    refine sorted.imp₂ (fun first later below differs => ?_) ((rankedTokens_perm tokens).nodup_iff.mpr names.distinct)
    cases compared : compareCodePoints first later with
    | lt => rfl
    | eq => exact absurd (Std.LawfulEqCmp.eq_of_compare compared) differs
    | gt =>
      rw [compared] at below
      cases below
  wellFormed token isIn := names.wellFormed token ((rankedTokens_perm tokens).mem_iff.mp isIn)

theorem ranked_at {id : Nat} (inside : id < tokens.length) : (rankedTokens tokens)[(orderOf tokens).idxOf id]? = tokens[id]? := by
  have isIn : id ∈ orderOf tokens := (orderOf_perm tokens).mem_iff.mpr (List.mem_range.mpr inside)
  rw [rankedTokens, List.getElem?_map, List.getElem?_eq_getElem (List.idxOf_lt_length_of_mem isIn),
    List.getElem_idxOf, Option.map_some, List.getD_eq_getElem?_getD, List.getElem?_eq_getElem inside]
  rfl

theorem pack_map (segments : List (List Nat)) (f : Nat → Nat) :
    (⟨(Offsets.Packed.pack segments).offsets, (Offsets.Packed.pack segments).values.map f⟩ : Offsets.Packed Nat) =
      Offsets.Packed.pack (segments.map (List.map f)) := by
  induction segments using List.reverseRecOn with
  | nil => rfl
  | append_singleton segments last ih =>
    rw [List.map_append, List.map_singleton, Offsets.Packed.pack_concat, Offsets.Packed.pack_concat, ← ih]
    simp [Offsets.Packed.push]

theorem exists_right {α β : Type} {r : α → β → Prop} {left : List α} {right : List β} (each : List.Forall₂ r left right)
    {a : α} (isIn : a ∈ left) : ∃ b ∈ right, r a b := by
  induction each with
  | nil => cases isIn
  | cons related _ ih =>
    rcases List.mem_cons.mp isIn with rfl | isIn
    · exact ⟨_, List.mem_cons_self, related⟩
    · obtain ⟨b, isRight, found⟩ := ih isIn
      exact ⟨b, List.mem_cons_of_mem _ isRight, found⟩

/-- The ranks a rule is found at. -/
def keysAt (entry : List Nat × Option Nat) : List Nat := entry.2.elim entry.1 fun source => [source]

theorem keysOf_packed {entries : List (List Nat × Option Nat)} {rule : Nat} {entry : List Nat × Option Nat}
    (here : entries[rule]? = some entry) :
    keysOf (Offsets.Packed.pack (entries.map Prod.fst)) (entries.map Prod.snd) rule = keysAt entry := by
  have own : (Offsets.Packed.pack (entries.map Prod.fst)).segment rule = entry.1 :=
    Offsets.Packed.segment_pack _ (by rw [List.getElem?_map, here]; rfl)
  rw [keysOf, List.getD_eq_getElem?_getD, List.getElem?_map, here, own]
  obtain ⟨ids, source⟩ := entry
  cases source <;> rfl

theorem tokenRules_segment {found : List (Nat × Nat)} {count rank : Nat} (within : ∀ member ∈ found, member.1 < count)
    (inside : rank < count) :
    let starts := offsetsOf 0 (Buckets.countKeys count (found.map Prod.fst))
    (⟨starts, Buckets.place (starts.take count) (List.replicate (starts.getD count 0) 0) found⟩ :
      Offsets.Packed Nat).segment rank = Buckets.valuesOf found rank := by
  intro starts
  have starts_at {key : Nat} (bound : key ≤ count) : starts.getD key 0 = Buckets.startOf found key := by
    show (offsetsOf _ _).getD key 0 = _
    rw [offsetsOf_getD _ _ (by rw [Buckets.countKeys_length]; exact bound), Nat.zero_add, Buckets.sum_countKeys _ bound]
  rw [Offsets.Packed.segment, starts_at (Nat.le_of_lt inside), starts_at inside, List.drop_take, Buckets.startOf_succ,
    Nat.add_sub_cancel_left]
  refine Buckets.place_slice within (fun key bound => ?_) ?_ rank
  · have length : starts.length = count + 1 := by rw [offsetsOf_length, Buckets.countKeys_length]
    rw [List.getElem?_take, if_pos bound, ← starts_at (Nat.le_of_lt bound), List.getD_eq_getElem?_getD,
      List.getElem?_eq_getElem (by omega)]
    rfl
  · rw [List.length_replicate, starts_at (Nat.le_refl _), Buckets.startOf_all within]

/-- The tokens and the rules that a lookup was packed from. -/
structure Packs (analysis : SynonymAnalysis) (rules : List SynonymRule) (lookup : SynonymLookup) (strings : List JsString)
    (entries : List (List Nat × Option Nat)) : Prop where
  ranked : Ranked strings
  stores : Stores lookup.strings strings
  each : List.Forall₂ (fun entry rule => RuleAt strings entry (resolve analysis rule)) entries rules
  found : ∀ rank other, rank < strings.length →
    (other ∈ lookup.found rank ↔ other ≠ rank ∧ ∃ entry ∈ entries, rank ∈ keysAt entry ∧ other ∈ entry.1)

theorem keysAt_valid {strings : List JsString} {entry : List Nat × Option Nat} {meant : Option JsString × List JsString}
    (rule : RuleAt strings entry meant) : ∀ rank ∈ keysAt entry, rank < strings.length := by
  intro rank isIn
  rw [keysAt] at isIn
  rcases rule.source with ⟨none_left, _⟩ | ⟨id, token, isId, _, at_id⟩
  · rw [none_left] at isIn
    exact rule.valid rank isIn
  · rw [isId] at isIn
    rw [List.mem_singleton.mp isIn]
    exact (List.getElem?_eq_some_iff.mp at_id).1

theorem packedLookup_packs {analysis : SynonymAnalysis} {rules : List SynonymRule} {building : Building}
    (built : Built analysis building rules) :
    ∃ entries, Packs analysis rules (packedLookup building) (rankedTokens building.tokens) entries := by
  obtain ⟨entries, is_packed, is_source, each⟩ := built.entries
  let rank : Nat → Nat := fun id => (orderOf building.tokens).idxOf id
  let renumbered := entries.map fun entry => (entry.1.map rank, entry.2.map rank)
  have ranked_each : List.Forall₂ (fun entry rule => RuleAt (rankedTokens building.tokens) entry (resolve analysis rule))
      renumbered rules :=
    List.forall₂_map_left_iff.mpr (each.imp fun _ _ rule => rule.renumber fun id inside => ranked_at inside)
  have count : (rankedTokens building.tokens).length = building.tokens.length := (rankedTokens_perm _).length_eq
  have ruleTokens : (packedLookup building).ruleTokens = Offsets.Packed.pack (renumbered.map Prod.fst) := by
    show (⟨building.rules.offsets, building.rules.values.map rank⟩ : Offsets.Packed Nat) = _
    rw [is_packed, pack_map, List.map_map, List.map_map]
    rfl
  have sources : building.ruleSource.map (Option.map rank) = renumbered.map Prod.snd := by
    rw [is_source, List.map_map, List.map_map]
    rfl
  have mem_byToken (at_rank rule : Nat) : (at_rank, rule) ∈ rulesByToken (Offsets.Packed.pack (renumbered.map Prod.fst))
      (renumbered.map Prod.snd) ↔ ∃ entry, renumbered[rule]? = some entry ∧ at_rank ∈ keysAt entry := by
    rw [rulesByToken, List.mem_flatMap]
    constructor
    · rintro ⟨other, inside, isIn⟩
      obtain ⟨key, isKey, same⟩ := List.mem_map.mp isIn
      obtain ⟨rfl, rfl⟩ := Prod.mk.inj same
      rw [List.mem_range, List.length_map] at inside
      have here := List.getElem?_eq_getElem inside
      exact ⟨_, here, keysOf_packed here ▸ isKey⟩
    · rintro ⟨entry, here, isKey⟩
      refine ⟨rule, List.mem_range.mpr ?_, List.mem_map.mpr ⟨at_rank, (keysOf_packed here).symm ▸ isKey, rfl⟩⟩
      rw [List.length_map]
      exact (List.getElem?_eq_some_iff.mp here).1
  refine ⟨renumbered, built.names.ranked, encodeStringBlob_stores _, ranked_each, fun at_rank other inside => ?_⟩
  have within : ∀ member ∈ rulesByToken (Offsets.Packed.pack (renumbered.map Prod.fst)) (renumbered.map Prod.snd),
      member.1 < building.tokens.length := by
    rintro ⟨key, rule⟩ isIn
    obtain ⟨entry, here, isKey⟩ := (mem_byToken key rule).mp isIn
    obtain ⟨_, _, at_rule⟩ := exists_right ranked_each (List.mem_of_getElem? here)
    exact count ▸ keysAt_valid at_rule key isKey
  have segment : (packedLookup building).tokenRules.segment at_rank =
      Buckets.valuesOf (rulesByToken (Offsets.Packed.pack (renumbered.map Prod.fst)) (renumbered.map Prod.snd)) at_rank := by
    rw [← tokenRules_segment within (count ▸ inside), ← ruleTokens, ← sources]
    rfl
  rw [SynonymLookup.found, segment, ruleTokens, List.mem_flatMap]
  constructor
  · rintro ⟨rule, isRule, isIn⟩
    obtain ⟨entry, here, isKey⟩ := (mem_byToken at_rank rule).mp (Buckets.mem_valuesOf.mp isRule)
    rw [Offsets.Packed.segment_pack _ (by rw [List.getElem?_map, here]; rfl : (renumbered.map Prod.fst)[rule]? = some entry.1)] at isIn
    obtain ⟨isIn, differs⟩ := List.mem_filter.mp isIn
    exact ⟨of_decide_eq_true differs, entry, List.mem_of_getElem? here, isKey, isIn⟩
  · rintro ⟨differs, entry, isEntry, isKey, isIn⟩
    obtain ⟨rule, here⟩ := List.mem_iff_getElem?.mp isEntry
    refine ⟨rule, Buckets.mem_valuesOf.mpr ((mem_byToken at_rank rule).mpr ⟨entry, here, isKey⟩), ?_⟩
    rw [Offsets.Packed.segment_pack _ (by rw [List.getElem?_map, here]; rfl : (renumbered.map Prod.fst)[rule]? = some entry.1)]
    exact List.mem_filter.mpr ⟨isIn, decide_eq_true differs⟩

end Packing

/-! ### Answers -/

theorem searchBetween_found {compareAt : Nat → Int} {place : Nat} (equal : compareAt place = 0)
    (below : ∀ i < place, compareAt i < 0) (fuel : Nat) {low above : Nat} (after : low ≤ place) (before : place < above)
    (beyond : ∀ i, place < i → i < above → 0 < compareAt i) (enough : above - low < fuel) :
    searchBetween compareAt fuel low above = some place := by
  induction fuel generalizing low above with
  | zero => omega
  | succ fuel ih =>
    rw [searchBetween, if_pos (by omega)]
    dsimp only
    rcases Nat.lt_trichotomy ((low + (above - 1)) / 2) place with lower | same | higher
    · have less := below _ lower
      rw [if_neg (by omega), if_pos less]
      exact ih (by omega) before beyond (by omega)
    · rw [same, if_pos equal]
    · have more := beyond _ higher (by omega)
      rw [if_neg (by omega), if_neg (by omega)]
      exact ih after (by omega) (fun i past inside => beyond i past (by omega)) (by omega)

theorem searchBetween_none {compareAt : Nat → Int} (fuel : Nat) {low above : Nat}
    (differs : ∀ i < above, compareAt i ≠ 0) : searchBetween compareAt fuel low above = none := by
  induction fuel generalizing low above with
  | zero => rfl
  | succ fuel ih =>
    rw [searchBetween]
    split
    · dsimp only
      rw [if_neg (differs _ (by omega))]
      split
      · exact ih differs
      · exact ih fun i inside => differs i (by omega)
    · rfl

section Search
variable {analysis : SynonymAnalysis} {rules : List SynonymRule} {lookup : SynonymLookup} {strings : List JsString}
  {entries : List (List Nat × Option Nat)} (packs : Packs analysis rules lookup strings entries)
include packs

theorem Packs.rankOf_eq {token : JsString} (wellFormed : WellFormed token) :
    match lookup.rankOf token with
    | none => token ∉ strings
    | some rank => strings[rank]? = some token := by
  let compareAt : Nat → Int := fun middle => compareBytes lookup.strings.blob (lookup.strings.offsets.getD middle 0)
    (lookup.strings.offsets.getD (middle + 1) 0) (encodeUtf8 token)
  have bytes_at {rank : Nat} {value : JsString} (here : strings[rank]? = some value) :
      bytesAt lookup.strings.blob (lookup.strings.offsets.getD rank 0) (lookup.strings.offsets.getD (rank + 1) 0) =
        encodeUtf8 value := packs.stores.rows rank value here
  have lower {rank : Nat} {value : JsString} (here : strings[rank]? = some value) :
      compareAt rank < 0 ↔ compareCodePoints value token = .lt := by
    show compareBytes _ _ _ _ < 0 ↔ _
    rw [compareBytes, bytes_at here, compareAlong_lt,
      compare_encoded (packs.ranked.wellFormed value (List.mem_of_getElem? here)) wellFormed]
  have same {rank : Nat} {value : JsString} (here : strings[rank]? = some value) : compareAt rank = 0 ↔ value = token := by
    show compareBytes _ _ _ _ = 0 ↔ _
    rw [compareBytes, bytes_at here, compareAlong_eq_zero,
      encodeUtf8_inj (packs.ranked.wellFormed value (List.mem_of_getElem? here)) wellFormed]
  have searched : lookup.rankOf token = searchBetween compareAt (strings.length + 1) 0 strings.length := by
    rw [SynonymLookup.rankOf, encodeLookupKey_eq, packs.stores.length]
    rfl
  rw [searched]
  by_cases isIn : token ∈ strings
  · obtain ⟨place, here⟩ := List.mem_iff_getElem?.mp isIn
    obtain ⟨inside, at_place⟩ := List.getElem?_eq_some_iff.mp here
    have ordered := List.pairwise_iff_getElem.mp packs.ranked.ascending
    have below : ∀ i < place, compareAt i < 0 := fun i before =>
      (lower (List.getElem?_eq_getElem (by omega))).mpr (at_place ▸ ordered i place (by omega) inside before)
    have beyond : ∀ i, place < i → i < strings.length → 0 < compareAt i := by
      intro i after bound
      have here_i := List.getElem?_eq_getElem bound
      have above : compareCodePoints token strings[i] = .lt := at_place ▸ ordered place i inside bound after
      have not_same : compareAt i ≠ 0 := fun equal => by
        rw [(same here_i).mp equal, compareCodePoints_self] at above
        cases above
      have not_lower : ¬ compareAt i < 0 := fun less => by
        rw [@Std.OrientedCmp.eq_swap _ compareCodePoints, (lower here_i).mp less] at above
        cases above
      omega
    rw [searchBetween_found ((same here).mpr rfl) below _ (Nat.zero_le _) inside beyond (by omega)]
    exact here
  · rw [searchBetween_none _ fun i inside equal => isIn ?_]
    · exact isIn
    · rw [← (same (List.getElem?_eq_getElem inside)).mp equal]
      exact List.getElem_mem inside

theorem Packs.found_iff {rank other : Nat} {token value : JsString} (here : strings[rank]? = some token)
    (there : strings[other]? = some value) :
    other ∈ lookup.found rank ↔ value ≠ token ∧ ∃ rule ∈ rules, value ∈ synonymsByRule analysis token rule := by
  have distinct : strings.Nodup := packs.ranked.ascending.imp fun below same => by
    rw [same, compareCodePoints_self] at below
    cases below
  have at_iff {i j : Nat} {first second : JsString} (at_i : strings[i]? = some first) (at_j : strings[j]? = some second) :
      i = j ↔ first = second := by
    constructor
    · rintro rfl
      exact Option.some.inj (at_i.symm.trans at_j)
    · rintro rfl
      obtain ⟨inside, at_i⟩ := List.getElem?_eq_some_iff.mp at_i
      obtain ⟨inside', at_j⟩ := List.getElem?_eq_some_iff.mp at_j
      exact (distinct.getElem_inj_iff).mp (at_i.trans at_j.symm)
  have by_rule {entry : List Nat × Option Nat} {rule : SynonymRule} (at_rule : RuleAt strings entry (resolve analysis rule)) :
      (rank ∈ keysAt entry ∧ other ∈ entry.1) ↔ value ∈ synonymsByRule analysis token rule := by
    have mem_iff {i : Nat} {first : JsString} (at_i : strings[i]? = some first) :
        i ∈ entry.1 ↔ first ∈ (resolve analysis rule).2 := by
      rw [at_rule.targets]
      refine ⟨fun isIn => ⟨i, isIn, at_i⟩, ?_⟩
      rintro ⟨j, isIn, at_j⟩
      exact (at_iff at_i at_j).mpr rfl ▸ isIn
    rw [mem_iff there, keysAt]
    cases rule with
    | twoWay words =>
      rcases at_rule.source with ⟨none_left, _⟩ | ⟨_, _, _, meant, _⟩
      · rw [none_left, Option.elim_none, mem_iff here, synonymsByRule, resolve]
        dsimp only
        split
        · next isIn => simp [isIn]
        · next missing => simp [missing]
      · cases meant
    | oneWay word synonyms =>
      rw [synonymsByRule]
      rw [resolve] at at_rule ⊢
      cases single : singleToken analysis word with
      | none => simp
      | some source =>
        rw [single] at at_rule
        rcases at_rule.source with ⟨_, none_meant⟩ | ⟨id, found, isId, meant, at_id⟩
        · cases none_meant
        · cases meant
          rw [isId, Option.elim_some, List.mem_singleton, at_iff here at_id]
          by_cases same : token = source
          · simp [same]
          · simp [same, Ne.symm same]
  rw [packs.found rank other (List.getElem?_eq_some_iff.mp here).1, Ne, at_iff there here]
  refine and_congr_right fun _ => ?_
  constructor
  · rintro ⟨entry, isIn, both⟩
    obtain ⟨rule, isRule, at_rule⟩ := exists_right packs.each isIn
    exact ⟨rule, isRule, (by_rule at_rule).mp both⟩
  · rintro ⟨rule, isRule, isIn⟩
    obtain ⟨entry, isEntry, at_rule⟩ := exists_right packs.each.flip isRule
    exact ⟨entry, isEntry, (by_rule at_rule).mpr isIn⟩

theorem Packs.found_valid {rank other : Nat} (inside : rank < strings.length) (isIn : other ∈ lookup.found rank) :
    other < strings.length := by
  obtain ⟨_, entry, isEntry, _, isOther⟩ := (packs.found rank other inside).mp isIn
  obtain ⟨rule, _, at_rule⟩ := exists_right packs.each isEntry
  exact at_rule.valid other isOther

theorem Packs.both_packed {token value : JsString} {rule : SynonymRule} (isRule : rule ∈ rules)
    (isIn : value ∈ synonymsByRule analysis token rule) : token ∈ strings ∧ value ∈ strings := by
  obtain ⟨entry, _, at_rule⟩ := exists_right packs.each.flip isRule
  have packed_of {token : JsString} (isTarget : token ∈ (resolve analysis rule).2) : token ∈ strings := by
    obtain ⟨id, _, at_id⟩ := (at_rule.targets token).mp isTarget
    exact List.mem_of_getElem? at_id
  cases rule with
  | twoWay words =>
    rw [synonymsByRule] at isIn
    split at isIn
    · next own => exact ⟨packed_of own, packed_of isIn⟩
    · cases isIn
  | oneWay word synonyms =>
    rw [synonymsByRule] at isIn
    split at isIn
    · next source =>
      have resolved : resolve analysis (.oneWay word synonyms) =
          (some token, synonyms.filterMap (singleToken analysis)) := by rw [resolve, source]
      rw [resolved] at at_rule packed_of
      refine ⟨?_, packed_of isIn⟩
      rcases at_rule.source with ⟨_, none_meant⟩ | ⟨id, found, _, meant, at_id⟩
      · cases none_meant
      · cases meant
        exact List.mem_of_getElem? at_id
    · cases isIn

end Search

/-- Each of the ids once. -/
def distinctFrom (previous : Option Nat) : List Nat → List Nat
  | [] => []
  | id :: found => if some id = previous then distinctFrom previous found else id :: distinctFrom (some id) found

theorem firstDistinct_eq (previous : Option Nat) (room : Nat) (found : List Nat) :
    firstDistinct previous room found = (distinctFrom previous found).take room := by
  induction found generalizing previous room with
  | nil => rw [firstDistinct, distinctFrom, List.take_nil]
  | cons id found ih =>
    rw [firstDistinct, distinctFrom]
    cases room with
    | zero => rw [if_pos rfl, List.take_zero]
    | succ room =>
      rw [if_neg (Nat.succ_ne_zero room)]
      split
      · exact ih previous (room + 1)
      · rw [List.take_succ_cons, Nat.add_sub_cancel, ih]

theorem distinctFrom_spec {previous : Option Nat} {found : List Nat} (sorted : found.Pairwise (· ≤ ·))
    (after : ∀ earlier ∈ previous, ∀ id ∈ found, earlier ≤ id) :
    (distinctFrom previous found).Pairwise (· < ·) ∧ ∀ id, id ∈ distinctFrom previous found ↔ id ∈ found ∧ some id ≠ previous := by
  induction found generalizing previous with
  | nil => exact ⟨List.Pairwise.nil, fun id => by simp [distinctFrom]⟩
  | cons first found ih =>
    obtain ⟨lowest, sorted⟩ := List.pairwise_cons.mp sorted
    rw [distinctFrom]
    split
    · next same =>
      obtain ⟨ascending, members⟩ := ih sorted fun earlier isIn id isId => after earlier isIn id (List.mem_cons_of_mem _ isId)
      refine ⟨ascending, fun id => ?_⟩
      rw [members, List.mem_cons]
      refine ⟨fun ⟨isIn, differs⟩ => ⟨.inr isIn, differs⟩, fun ⟨isIn, differs⟩ => ⟨isIn.resolve_left ?_, differs⟩⟩
      rintro rfl
      exact differs same
    · next differs =>
      obtain ⟨ascending, members⟩ := ih sorted fun earlier isIn id isId =>
        (Option.mem_some_iff.mp isIn) ▸ lowest id isId
      have above : ∀ id ∈ distinctFrom (some first) found, first < id := by
        intro id isIn
        obtain ⟨isId, other⟩ := (members id).mp isIn
        exact Nat.lt_of_le_of_ne (lowest id isId) fun same => other (congrArg some same.symm)
      refine ⟨List.pairwise_cons.mpr ⟨above, ascending⟩, fun id => ?_⟩
      rw [List.mem_cons, members, List.mem_cons]
      constructor
      · rintro (rfl | ⟨isIn, other⟩)
        · exact ⟨.inl rfl, differs⟩
        · refine ⟨.inr isIn, fun same => other ?_⟩
          have := after id (Option.mem_def.mpr same.symm) first List.mem_cons_self
          exact congrArg some (Nat.le_antisymm this (lowest id isIn))
      · rintro ⟨rfl | isIn, other⟩
        · exact .inl rfl
        · by_cases same : id = first
          · exact .inl same
          · exact .inr ⟨isIn, fun equal => same (Option.some.inj equal)⟩

def gathered (found : List Nat) : List Nat := distinctFrom none (found.mergeSort fun a b => a ≤ b)

theorem gathered_spec (found : List Nat) :
    (gathered found).Pairwise (· < ·) ∧ ∀ id, id ∈ gathered found ↔ id ∈ found := by
  have sorted : (found.mergeSort fun a b => a ≤ b).Pairwise (· ≤ ·) :=
    (List.pairwise_mergeSort (fun a b c first second => by simp at *; omega) (fun a b => by simp; omega) _).imp
      fun below => of_decide_eq_true below
  obtain ⟨ascending, members⟩ := @distinctFrom_spec none _ sorted nofun
  refine ⟨ascending, fun id => ?_⟩
  rw [gathered, members, List.mem_mergeSort]
  exact and_iff_left nofun

/-! ### Lookups -/

/-- A decoder leaves out a byte order mark in front. -/
def withoutMark (token : JsString) : JsString := if token.head? = some BYTE_ORDER_MARK then token.drop 1 else token

theorem withoutMark_eq {token : JsString} : withoutMark token = token ↔ token.head? ≠ some BYTE_ORDER_MARK := by
  rw [withoutMark]
  split
  · next marked =>
    refine iff_of_false (fun same => ?_) (not_not_intro marked)
    cases token with
    | nil => cases marked
    | cons unit rest =>
      have shorter := congrArg List.length same
      rw [List.drop_succ_cons, List.drop_zero, List.length_cons] at shorter
      omega
  · next plain => exact iff_of_true rfl plain

section Answer
variable {analysis : SynonymAnalysis} {rules : List SynonymRule} {lookup : SynonymLookup} {strings : List JsString}
  {entries : List (List Nat × Option Nat)} (packs : Packs analysis rules lookup strings entries)
include packs

theorem Packs.gathered_eq {rank : Nat} {token : JsString} (here : strings[rank]? = some token) :
    (gathered (lookup.found rank)).map (fun id => strings.getD id []) =
      ((rules.flatMap (synonymsByRule analysis token)).filter fun other => other ≠ token).dedup.mergeSort
        fun a b => (compareCodePoints a b).isLE := by
  have inside := (List.getElem?_eq_some_iff.mp here).1
  obtain ⟨ascending, members⟩ := gathered_spec (lookup.found rank)
  have shown_at {id : Nat} (isIn : id < strings.length) : strings[id]? = some (strings.getD id []) := by
    rw [List.getD_eq_getElem?_getD, List.getElem?_eq_getElem isIn]
    rfl
  have valid {id : Nat} (isIn : id ∈ gathered (lookup.found rank)) : id < strings.length :=
    packs.found_valid inside ((members id).mp isIn)
  have lower : ((gathered (lookup.found rank)).map fun id => strings.getD id []).Pairwise
      fun earlier later => compareCodePoints earlier later = .lt := by
    refine List.pairwise_map.mpr (ascending.imp_of_mem fun {first later} isFirst isLater below => ?_)
    have ordered := List.pairwise_iff_getElem.mp packs.ranked.ascending first later (valid isFirst) (valid isLater) below
    rw [List.getD_eq_getElem?_getD, List.getD_eq_getElem?_getD, List.getElem?_eq_getElem (valid isFirst),
      List.getElem?_eq_getElem (valid isLater)]
    exact ordered
  have distinct : ((gathered (lookup.found rank)).map fun id => strings.getD id []).Nodup := lower.imp fun below same => by
    rw [same, compareCodePoints_self] at below
    cases below
  refine @List.Perm.eq_of_pairwise _ (fun a b => (compareCodePoints a b).isLE = true) _ _ ?_
    (lower.imp fun below => by rw [below]; rfl)
    (@List.pairwise_mergeSort _ (fun a b => (compareCodePoints a b).isLE)
      (fun _ _ _ => @Std.TransCmp.isLE_trans _ compareCodePoints _ _ _ _) total_le _)
    ((List.perm_ext_iff_of_nodup distinct ((List.mergeSort_perm _ _).nodup_iff.mpr (List.nodup_dedup _))).mpr fun value => ?_)
  · intro a b _ _ first second
    refine Std.LawfulEqCmp.eq_of_compare (?_ : compareCodePoints a b = .eq)
    rw [@Std.OrientedCmp.eq_swap _ compareCodePoints _ b a] at second
    cases compared : compareCodePoints a b with
    | eq => rfl
    | lt =>
      rw [compared] at second
      cases second
    | gt =>
      rw [compared] at first
      cases first
  · rw [List.mem_mergeSort, List.mem_dedup, List.mem_filter, List.mem_flatMap, List.mem_map, decide_eq_true_eq]
    constructor
    · rintro ⟨id, isIn, rfl⟩
      exact ((packs.found_iff here (shown_at (valid isIn))).mp ((members id).mp isIn)).symm
    · rintro ⟨⟨rule, isRule, isIn⟩, differs⟩
      obtain ⟨id, there⟩ := List.mem_iff_getElem?.mp (packs.both_packed isRule isIn).2
      refine ⟨id, (members id).mpr ((packs.found_iff here there).mpr ⟨differs, rule, isRule, isIn⟩), ?_⟩
      rw [List.getD_eq_getElem?_getD, there]
      rfl

theorem Packs.answer_eq {token : JsString} (wellFormed : WellFormed token) :
    lookup.answer token = (expectedSynonyms analysis rules token).map withoutMark := by
  have ranked := packs.rankOf_eq wellFormed
  rw [SynonymLookup.answer]
  cases is_rank : lookup.rankOf token with
  | none =>
    rw [is_rank] at ranked
    have none_meant : rules.flatMap (synonymsByRule analysis token) = [] :=
      List.flatMap_eq_nil_iff.mpr fun rule isRule =>
        List.eq_nil_iff_forall_not_mem.mpr fun value isIn => ranked (packs.both_packed isRule isIn).1
    rw [expectedSynonyms, none_meant]
    show [] = (List.take _ (List.mergeSort [] _)).map withoutMark
    rw [List.mergeSort_nil, List.take_nil, List.map_nil]
  | some rank =>
    rw [is_rank] at ranked
    dsimp only at ranked ⊢
    rw [SynonymLookup.collect, expectedSynonyms, ← packs.gathered_eq ranked, firstDistinct_eq, ← List.map_take, List.map_map]
    refine List.map_congr_left fun id isIn => ?_
    have isFound := ((gathered_spec (lookup.found rank)).2 id).mp (List.mem_of_mem_take isIn)
    have inside := packs.found_valid (List.getElem?_eq_some_iff.mp ranked).1 isFound
    rw [Function.comp, List.getD_eq_getElem?_getD, List.getElem?_eq_getElem inside, Option.getD_some,
      packs.stores.rows id _ (List.getElem?_eq_getElem inside),
      decodeText_encoded (packs.ranked.wellFormed _ (List.getElem_mem inside))]
    rfl

end Answer

/-- What a cache keeps is what was answered without it. -/
def CachesAnswers (lookup : SynonymLookup) (cache : List (JsString × List JsString)) : Prop :=
  ∀ entry ∈ cache, entry.2 = lookup.answer entry.1

section Cache
variable {lookup : SynonymLookup} {cache : List (JsString × List JsString)} (caches : CachesAnswers lookup cache)
include caches

theorem CachesAnswers.set (token : JsString) : CachesAnswers lookup (Assoc.set cache token (lookup.answer token)) := by
  intro entry isIn
  rcases Assoc.mem_set isIn with rfl | isIn
  · rfl
  · exact caches entry isIn

theorem CachesAnswers.step (token : JsString) : (lookup.synonymsOf cache token).1 = lookup.answer token ∧
    CachesAnswers lookup (lookup.synonymsOf cache token).2 := by
  rw [SynonymLookup.synonymsOf]
  cases known : Assoc.lookup cache token with
  | some cached =>
    have same : cached = lookup.answer token := caches (token, cached) (Assoc.mem_of_lookup known)
    have erased : CachesAnswers lookup (Assoc.erase cache token) := fun entry isIn =>
      caches entry (Assoc.mem_erase.mp isIn).1
    exact ⟨same, same ▸ erased.set token⟩
  | none =>
    cases is_rank : lookup.rankOf token with
    | none =>
      refine ⟨?_, caches⟩
      rw [SynonymLookup.answer, is_rank]
    | some rank =>
      have same : lookup.collect rank = lookup.answer token := by rw [SynonymLookup.answer, is_rank]
      dsimp only
      rw [same]
      refine ⟨rfl, ?_⟩
      split
      · have kept : CachesAnswers lookup (cache.drop 1) := fun entry isIn => caches entry (List.mem_of_mem_drop isIn)
        exact kept.set token
      · exact caches.set token

end Cache

theorem cacheAfter_caches (lookup : SynonymLookup) (asked : List JsString) : CachesAnswers lookup (lookup.cacheAfter asked) := by
  suffices run : ∀ cache, CachesAnswers lookup cache →
      CachesAnswers lookup (asked.foldl (fun cache token => (lookup.synonymsOf cache token).2) cache) from run [] nofun
  induction asked with
  | nil => exact fun _ caches => caches
  | cons token asked ih => exact fun cache caches => ih _ (caches.step token).2

theorem built_packs {analysis : SynonymAnalysis} {strictWords : Bool} {rules : List SynonymRule} {lookup : SynonymLookup}
    (built : buildSynonymLookup analysis strictWords rules = .ok (some lookup)) :
    ∃ strings entries, Packs analysis rules lookup strings entries := by
  rw [buildSynonymLookup] at built
  cases added : addRules analysis strictWords 0 rules ⟨[], Offsets.Packed.empty, []⟩ with
  | error problem =>
    rw [added] at built
    cases built
  | ok building =>
    rw [added] at built
    have none_built : Built analysis ⟨[], Offsets.Packed.empty, []⟩ [] := ⟨⟨List.nodup_nil, nofun⟩, [], rfl, rfl, .nil⟩
    have all_built := addRules_built none_built added
    have packed : (if building.rules.values.length = 0 then none else some (packedLookup building)) = some lookup :=
      Except.ok.inj built
    split at packed
    · cases packed
    · cases packed
      obtain ⟨entries, packs⟩ := packedLookup_packs all_built
      exact ⟨_, entries, packs⟩

theorem synonymsOf_eq {analysis : SynonymAnalysis} {strictWords : Bool} {rules : List SynonymRule} {lookup : SynonymLookup}
    (built : buildSynonymLookup analysis strictWords rules = .ok (some lookup)) (asked : List JsString) {token : JsString}
    (wellFormed : WellFormed token) : (lookup.synonymsOf (lookup.cacheAfter asked) token).1 =
      (expectedSynonyms analysis rules token).map withoutMark := by
  obtain ⟨_, _, packs⟩ := built_packs built
  rw [((cacheAfter_caches lookup asked).step token).1, packs.answer_eq wellFormed]

/-- A lookup answers the synonyms that are meant just when none of them begins with a byte order mark. -/
theorem synonymsOf_follows {analysis : SynonymAnalysis} {strictWords : Bool} {rules : List SynonymRule}
    {lookup : SynonymLookup} (built : buildSynonymLookup analysis strictWords rules = .ok (some lookup))
    (asked : List JsString) {token : JsString} (wellFormed : WellFormed token) :
    (lookup.synonymsOf (lookup.cacheAfter asked) token).1 = expectedSynonyms analysis rules token ↔
      ∀ synonym ∈ expectedSynonyms analysis rules token, synonym.head? ≠ some BYTE_ORDER_MARK := by
  rw [synonymsOf_eq built asked wellFormed]
  refine ⟨fun same synonym isIn => ?_, fun plain => ?_⟩
  · have each := List.map_inj_left.mp (same.trans (List.map_id _).symm) synonym isIn
    exact withoutMark_eq.mp each
  · exact (List.map_congr_left fun synonym isIn => withoutMark_eq.mpr (plain synonym isIn)).trans (List.map_id _)

/-- An analysis that takes each word as its token. -/
def wholeWords : SynonymAnalysis where
  tokenize word := [withUnpairedSurrogatesReplaced word]
  wellFormed word _ isIn := List.mem_singleton.mp isIn ▸ replaced_wellFormed word

/-- One rule of the words "a" and "b", the second with a byte order mark in front. -/
def markedRule : SynonymRule := .twoWay [[0x61], [BYTE_ORDER_MARK, 0x62]]

theorem synonymsOf_follows_marked : ∃ lookup, buildSynonymLookup wholeWords false [markedRule] = .ok (some lookup) ∧
    ((lookup.synonymsOf (lookup.cacheAfter []) [0x61]).1 = expectedSynonyms wholeWords [markedRule] [0x61] ↔
      ∀ synonym ∈ expectedSynonyms wholeWords [markedRule] [0x61], synonym.head? ≠ some BYTE_ORDER_MARK) :=
  ⟨_, rfl, @synonymsOf_follows wholeWords false [markedRule] _ rfl [] _ (by decide)⟩

/-- The synonym loses its mark. -/
theorem markedRule_loses_mark : ∃ lookup, buildSynonymLookup wholeWords false [markedRule] = .ok (some lookup) ∧
    expectedSynonyms wholeWords [markedRule] [0x61] = [[BYTE_ORDER_MARK, 0x62]] ∧
      (lookup.synonymsOf [] [0x61]).1 = [[0x62]] := by
  have meant : expectedSynonyms wholeWords [markedRule] [0x61] = [[BYTE_ORDER_MARK, 0x62]] := by decide +kernel
  refine ⟨_, rfl, meant, ?_⟩
  rw [← show [([BYTE_ORDER_MARK, 0x62] : JsString)].map withoutMark = [[0x62]] by decide, ← meant]
  exact @synonymsOf_eq wholeWords false [markedRule] _ rfl [] _ (by decide)

end Narsil.Synonyms
