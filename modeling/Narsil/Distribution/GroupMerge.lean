import Narsil.Distribution.Grouping

/-!
# Merging the groups of several nodes

A group of the whole ranking holds its hits in rank order, and so does the part of it that a
node makes. Only the first hits of a part can be among the first hits of the group, so the
merge of the cut parts is the cut of the merge.
-/
namespace Narsil.Distribution
open Narsil.Ordering Narsil.Ranking

section Groups
variable {D V A : Type} (stringify : List (Option V) → JsString) (documents : GroupedDocuments D V)
  (fields : List JsString)

/-- The key of a hit. -/
def hitKey (hit : RankedHit) : JsString := stringify (groupValues documents fields hit)

/-- The hits of a group. -/
def hitsOf (hits : List RankedHit) (key : JsString) : List RankedHit :=
  hits.filter fun hit => hitKey stringify documents fields hit = key

theorem lookup_groupMap (hits : List RankedHit) (key : JsString) :
    Assoc.lookup (groupMap stringify documents fields hits) key =
      match hitsOf stringify documents fields hits key with
      | [] => none
      | first :: rest => some ⟨valuesRecord documents fields first, first :: rest⟩ := by
  have grows : ∀ (rest front : List RankedHit) (values : List (JsString × Option V)),
      rest.foldl (fun (group : OpenGroup V) hit => { group with hits := group.hits ++ [hit] }) ⟨values, front⟩ =
        ⟨values, front ++ rest⟩ := by
    intro rest
    induction rest with
    | nil => simp
    | cons hit rest ih =>
      intro front values
      rw [List.foldl_cons, ih, List.append_assoc]
      rfl
  rw [groupMap, Assoc.lookup_collect]
  show Assoc.collected _ _ (hitsOf stringify documents fields hits key) = _
  cases hitsOf stringify documents fields hits key with
  | nil => rfl
  | cons first rest =>
    rw [Assoc.collected, grows]
    rfl

theorem groupMap_distinct (hits : List RankedHit) :
    ((groupMap stringify documents fields hits).map Prod.fst).Nodup :=
  Assoc.collect_distinct _ _ _ hits

theorem mem_groupMap {hits : List RankedHit} {entry : JsString × OpenGroup V}
    (member : entry ∈ groupMap stringify documents fields hits) :
    entry.2.hits = hitsOf stringify documents fields hits entry.1 ∧ entry.2.hits ≠ [] ∧
      recordKey stringify fields entry.2.values = entry.1 := by
  have found := Assoc.lookup_of_mem (groupMap_distinct stringify documents fields hits) member
  rw [lookup_groupMap] at found
  cases there : hitsOf stringify documents fields hits entry.1 with
  | nil => simp [there] at found
  | cons first rest =>
    rw [there] at found
    have same := Option.some.inj found
    have first_key : hitKey stringify documents fields first = entry.1 := by
      have among : first ∈ hitsOf stringify documents fields hits entry.1 := there ▸ List.mem_cons_self
      simpa using (List.mem_filter.mp among).2
    rw [← same]
    exact ⟨rfl, List.cons_ne_nil first rest, (recordKey_valuesRecord stringify documents fields first).trans first_key⟩

end Groups

section Views
variable {D V A : Type} {stringify : List (Option V) → JsString} {documents : GroupedDocuments D V}
  {fields : List JsString}

/-- A group as its key and its entries. -/
abbrev View := JsString × List ScoredEntry

def View.lead (view : View) : ℚ × JsString :=
  match view.2.head? with
  | none => (0, [])
  | some entry => (entry.score.getD 0, entry.docId)

def compareViews (a b : View) : Ordering := compareLeads (View.lead a) (View.lead b)

def wireView (stringify : List (Option V) → JsString) (fields : List JsString) (group : WireGroupEntry V) : View :=
  (recordKey stringify fields group.values, group.scored)

def resultView (stringify : List (Option V) → JsString) (fields : List JsString)
    (sortValuesOf : Option (JsString → List RawValue)) (group : GroupResult V A) : View :=
  (recordKey stringify fields group.values, group.hits.map (wireEntry sortValuesOf))

theorem lead_resultView (sortValuesOf : Option (JsString → List RawValue)) (group : GroupResult V A) :
    View.lead (resultView stringify fields sortValuesOf group) = group.lead := by
  rw [View.lead, resultView, GroupResult.lead]
  cases group.hits <;> rfl

instance : Std.TransCmp compareLeads := by
  have byScore : Std.TransCmp fun a b : ℚ × JsString => compare b.1 a.1 := by
    have turned : Std.TransCmp fun a b : ℚ => compare b a := by
      constructor
      · intro a b c before later
        exact Std.TransCmp.isLE_trans later before
    exact transCmp_on (fun a b : ℚ => compare b a) Prod.fst
  have byId : Std.TransCmp fun a b : ℚ × JsString => compareCodePoints a.2 b.2 :=
    transCmp_on compareCodePoints Prod.snd
  exact inferInstanceAs (Std.TransCmp (compareLex _ _))

instance : Std.TransCmp compareViews := transCmp_on compareLeads View.lead

theorem sorted_map {α β : Type} {f : α → β} {cmp : α → α → Ordering} {cmp' : β → β → Ordering}
    (same : ∀ a b, cmp' (f a) (f b) = cmp a b) (xs : List α) : (sorted cmp xs).map f = sorted cmp' (xs.map f) := by
  rw [sorted, sorted]
  apply List.map_mergeSort
  intro a _ b _
  rw [same]

/-- The groups of a ranking under their keys, each with its first entries. -/
def rankingViews (stringify : List (Option V) → JsString) (documents : GroupedDocuments D V) (fields : List JsString)
    (sortValuesOf : Option (JsString → List RawValue)) (kept : Nat) (hits : List RankedHit) : List View :=
  (groupMap stringify documents fields hits).map fun entry =>
    (entry.1, (entry.2.hits.take kept).map (wireEntry sortValuesOf))

theorem applyGrouping_views (sortValuesOf : Option (JsString → List RawValue)) (hits : List RankedHit)
    {group : GroupConfig D A} (some_field : group.fields ≠ []) (no_limit : group.limit = none) :
    (applyGrouping stringify hits group documents).map (resultView stringify group.fields sortValuesOf) =
      sorted compareViews (rankingViews stringify documents group.fields sortValuesOf
        (hitsKeptPerGroup group.maxPerGroup) hits) := by
  rw [applyGrouping, if_neg some_field]
  simp only [no_limit]
  rw [@sorted_map _ _ _ _ compareViews, rankingViews, List.map_map]
  · congr 1
    apply List.map_congr_left
    intro entry member
    have key := (mem_groupMap stringify documents group.fields member).2.2
    simp only [Function.comp_apply, resultView, key]
  · intro a b
    rw [compareViews, compareGroups, lead_resultView, lead_resultView]

theorem rankingViews_distinct (sortValuesOf : Option (JsString → List RawValue)) (kept : Nat) (hits : List RankedHit) :
    ((rankingViews stringify documents fields sortValuesOf kept hits).map Prod.fst).Nodup := by
  rw [rankingViews, List.map_map]
  exact groupMap_distinct stringify documents fields hits

theorem lookup_rankingViews (sortValuesOf : Option (JsString → List RawValue)) (kept : Nat) (hits : List RankedHit)
    (key : JsString) :
    Assoc.lookup (rankingViews stringify documents fields sortValuesOf kept hits) key =
      if hitsOf stringify documents fields hits key = [] then none
      else some (((hitsOf stringify documents fields hits key).take kept).map (wireEntry sortValuesOf)) := by
  rw [rankingViews, Assoc.lookup_map_values fun group : OpenGroup V => (group.hits.take kept).map (wireEntry sortValuesOf),
    lookup_groupMap]
  cases hitsOf stringify documents fields hits key with
  | nil => rfl
  | cons first rest => rfl

theorem rankingViews_separate (sortValuesOf : Option (JsString → List RawValue)) {kept : Nat} (some_kept : 0 < kept)
    {hits : List RankedHit} (once : (hits.map RankedHit.id).Nodup) :
    Distinct compareViews (rankingViews stringify documents fields sortValuesOf kept hits) := by
  have keys := List.pairwise_map.mp (@rankingViews_distinct D V stringify documents fields sortValuesOf kept hits)
  apply List.Pairwise.imp_of_mem _ keys
  intro a b a_member b_member different equal
  -- The groups begin with hits of their own, and no two hits have one id.
  have lead : ∀ view ∈ rankingViews stringify documents fields sortValuesOf kept hits,
      ∃ hit ∈ hits, hitKey stringify documents fields hit = view.1 ∧ (View.lead view).2 = hit.id := by
    intro view member
    obtain ⟨entry, listed, rfl⟩ := List.mem_map.mp member
    obtain ⟨mine, some_hit, _⟩ := mem_groupMap stringify documents fields listed
    obtain ⟨first, rest, there⟩ := List.exists_cons_of_ne_nil some_hit
    have among : first ∈ hitsOf stringify documents fields hits entry.1 := by
      rw [← mine, there]
      exact List.mem_cons_self
    obtain ⟨inside, key⟩ := List.mem_filter.mp among
    refine ⟨first, inside, of_decide_eq_true key, ?_⟩
    obtain ⟨more, rfl⟩ := Nat.exists_eq_succ_of_ne_zero (Nat.pos_iff_ne_zero.mp some_kept)
    rw [View.lead, there]
    rfl
  obtain ⟨first, first_member, first_key, first_id⟩ := lead a a_member
  obtain ⟨second, second_member, second_key, second_id⟩ := lead b b_member
  have same_id : first.id = second.id := by
    rw [← first_id, ← second_id]
    exact Std.LawfulEqCmp.eq_of_compare (Ordering.then_eq_eq.mp equal).2
  have same := List.inj_on_of_nodup_map once first_member second_member same_id
  exact different (first_key.symm.trans (same ▸ second_key))

theorem node_scored (sortValuesOf : Option (JsString → List RawValue)) (node : List RankedHit)
    {group : GroupConfig D A} (some_field : group.fields ≠ []) (no_limit : group.limit = none) (key : JsString) :
    ((convertLocalGroupsToWire sortValuesOf (applyGrouping stringify node group documents)).filter fun sent =>
        recordKey stringify group.fields sent.values = key).map WireGroupEntry.scored =
      (Assoc.lookup (rankingViews stringify documents group.fields sortValuesOf
        (hitsKeptPerGroup group.maxPerGroup) node) key).toList := by
  have views : (convertLocalGroupsToWire sortValuesOf (applyGrouping stringify node group documents)).map
      (wireView stringify group.fields) = sorted compareViews (rankingViews stringify documents group.fields
        sortValuesOf (hitsKeptPerGroup group.maxPerGroup) node) := by
    rw [← applyGrouping_views sortValuesOf node some_field no_limit, convertLocalGroupsToWire, List.map_map]
    rfl
  have distinct := @rankingViews_distinct D V stringify documents group.fields sortValuesOf
    (hitsKeptPerGroup group.maxPerGroup) node
  have kept := (@sorted_perm _ compareViews (rankingViews stringify documents group.fields sortValuesOf
    (hitsKeptPerGroup group.maxPerGroup) node)).filter fun view => decide (view.1 = key)
  rw [← views, List.filter_map, Assoc.filter_key distinct] at kept
  have scored := kept.map Prod.snd
  rw [List.map_map, List.map_map] at scored
  have same : ∀ {xs : List (List ScoredEntry)} {found : Option (List ScoredEntry)},
      xs.Perm (found.toList.map (Prod.snd ∘ Prod.mk key)) → xs = found.toList := by
    intro xs found perm
    cases found with
    | none => exact List.Perm.eq_nil perm
    | some only => exact List.perm_singleton.mp perm
  exact same scored

theorem lookup_groupsByKey (perNode : List (List (WireGroupEntry V))) (key : JsString) :
    (Assoc.lookup (groupsByKey stringify perNode fields) key).map KeyedLists.lists =
        (if perNode.flatten.filter (fun sent => recordKey stringify fields sent.values = key) = [] then none
        else some ((perNode.flatten.filter fun sent => recordKey stringify fields sent.values = key).map
          WireGroupEntry.scored)) ∧
      ∀ entry, Assoc.lookup (groupsByKey stringify perNode fields) key = some entry →
        recordKey stringify fields entry.values = key := by
  have grows : ∀ (rest : List (WireGroupEntry V)) (values : List (JsString × Option V)) (front : List (List ScoredEntry)),
      rest.foldl (fun (existing : KeyedLists V) group => { existing with lists := existing.lists ++ [group.scored] })
        ⟨values, front⟩ = ⟨values, front ++ rest.map WireGroupEntry.scored⟩ := by
    intro rest
    induction rest with
    | nil => simp
    | cons sent rest ih =>
      intro values front
      rw [List.foldl_cons, ih, List.map_cons, List.append_assoc]
      rfl
  rw [groupsByKey, ← List.foldl_flatten, Assoc.lookup_collect]
  cases mine : perNode.flatten.filter fun sent => recordKey stringify fields sent.values = key with
  | nil => exact ⟨rfl, fun entry found => by cases found⟩
  | cons first rest =>
    rw [Assoc.collected, grows]
    refine ⟨rfl, fun entry found => ?_⟩
    have among : first ∈ perNode.flatten.filter fun sent => recordKey stringify fields sent.values = key :=
      mine ▸ List.mem_cons_self
    rw [← Option.some.inj found]
    simpa using (List.mem_filter.mp among).2

/-- The merged groups under their keys. -/
def mergedViews (table : FoldTable) (stringify : List (Option V) → JsString) (fields : List JsString)
    (sortDirections : Option (List SortDirection)) (kept : Nat) (perNode : List (List (WireGroupEntry V))) : List View :=
  (groupsByKey stringify perNode fields).map fun entry =>
    (entry.1, mergeAndTruncate (entryOrder table sortDirections) entry.2.lists kept)

theorem groupsByKey_distinct (perNode : List (List (WireGroupEntry V))) :
    ((groupsByKey stringify perNode fields).map Prod.fst).Nodup := by
  rw [groupsByKey, ← List.foldl_flatten]
  exact Assoc.collect_distinct _ _ _ _

theorem mergeDistributedGroups_views (table : FoldTable) (perNode : List (List (WireGroupEntry V))) (kept : Nat)
    (sortDirections : Option (List SortDirection)) :
    (mergeDistributedGroups table stringify perNode fields kept none sortDirections).map (wireView stringify fields) =
      sorted compareViews (mergedViews table stringify fields sortDirections kept perNode) := by
  rw [mergeDistributedGroups]
  rw [@sorted_map _ _ _ _ compareViews, mergedViews, List.map_map]
  · congr 1
    apply List.map_congr_left
    intro entry member
    have found := Assoc.lookup_of_mem (@groupsByKey_distinct V stringify fields perNode) member
    have key := (lookup_groupsByKey perNode entry.1).2 entry.2 found
    simp only [Function.comp_apply, wireView, key]
    cases sortDirections <;> rfl
  · intro a b
    rfl

theorem lookup_mergedViews (table : FoldTable) (sort : Option (List SortDirection × (JsString → List RawValue)))
    {group : GroupConfig D A} (some_field : group.fields ≠ []) (no_limit : group.limit = none)
    {hits : List RankedHit}
    (ranked : Ranked (entryOrder table (sort.map Prod.fst)) (hits.map (wireEntry (sort.map Prod.snd))))
    {nodes : List (List RankedHit)} (split : nodes.flatten.Perm hits) (in_order : ∀ node ∈ nodes, node.Sublist hits)
    (key : JsString) :
    Assoc.lookup (mergedViews table stringify group.fields (sort.map Prod.fst) (hitsKeptPerGroup group.maxPerGroup)
        (nodes.map fun node => convertLocalGroupsToWire (sort.map Prod.snd)
          (applyGrouping stringify node (wireGroup group) documents))) key =
      Assoc.lookup (rankingViews stringify documents group.fields (sort.map Prod.snd)
        (hitsKeptPerGroup group.maxPerGroup) hits) key := by
  let kept := hitsKeptPerGroup group.maxPerGroup
  let cmp := entryOrder table (sort.map Prod.fst)
  let entry := wireEntry (sort.map Prod.snd)
  have trans : Std.TransCmp cmp := by
    simp only [cmp, entryOrder]
    split <;> infer_instance
  let perNode := nodes.map fun node => convertLocalGroupsToWire (sort.map Prod.snd)
    (applyGrouping stringify node (wireGroup group) documents)
  let parts := nodes.map fun node => (hitsOf stringify documents group.fields node key).map entry
  -- The lists of a key are the cut parts of the nodes that have hits of it.
  have lists : (perNode.flatten.filter fun sent => recordKey stringify group.fields sent.values = key).map
      WireGroupEntry.scored = (parts.filter fun part => part ≠ []).map fun part => part.take kept := by
    simp only [perNode, parts]
    clear split in_order ranked
    induction nodes with
    | nil => rfl
    | cons node rest ih =>
      have sent := @node_scored D V A stringify documents (sort.map Prod.snd) node (wireGroup group) some_field
        no_limit key
      rw [lookup_rankingViews, hitsKeptPerGroup_wireGroup] at sent
      rw [List.map_cons, List.flatten_cons, List.filter_append, List.map_append, ih, List.map_cons]
      refine (congrArg (· ++ _) sent).trans ?_
      show (if hitsOf stringify documents group.fields node key = [] then none else _).toList ++ _ = _
      by_cases none_here : hitsOf stringify documents group.fields node key = []
      · simp [none_here]
      · rw [if_neg none_here, List.filter_cons_of_pos (by simpa using none_here), List.map_cons, List.map_take]
        rfl
  have whole : parts.flatten.Perm ((hitsOf stringify documents group.fields hits key).map entry) := by
    have hits_split : (nodes.map fun node => hitsOf stringify documents group.fields node key).flatten.Perm
        (hitsOf stringify documents group.fields hits key) := by
      have filtered := split.filter fun hit => decide (hitKey stringify documents group.fields hit = key)
      rw [List.filter_flatten] at filtered
      exact filtered
    have mapped := hits_split.map entry
    rw [List.map_flatten, List.map_map] at mapped
    exact mapped
  have key_ranked : Ranked cmp ((hitsOf stringify documents group.fields hits key).map entry) :=
    ranked.sublist (List.filter_sublist.map entry)
  have part_ranked : ∀ part ∈ parts, Ranked cmp part := by
    intro part member
    obtain ⟨node, among, rfl⟩ := List.mem_map.mp member
    exact ranked.sublist ((List.filter_sublist.trans (in_order node among)).map entry)
  have parts_distinct : Distinct cmp parts.flatten := key_ranked.distinct.of_perm whole.symm
  have none_dropped : ∀ lists : List (List ScoredEntry),
      ((lists.filter fun part => part ≠ []).map fun part => part.take kept).flatten =
        (lists.map fun part => part.take kept).flatten := by
    intro lists
    induction lists with
    | nil => rfl
    | cons part rest ih => cases part <;> simp_all
  have cut : mergeAndTruncate cmp ((parts.filter fun part => part ≠ []).map fun part => part.take kept) kept =
      ((hitsOf stringify documents group.fields hits key).take kept).map entry := by
    have sorted_parts : (parts.map fun part => (sorted cmp part).take kept) = parts.map fun part => part.take kept :=
      List.map_congr_left fun part member => by rw [(part_ranked part member).sorted_eq]
    have fewer : (parts.map fun part => part.take kept).flatten.Subperm parts.flatten := by
      have sublist : ∀ lists : List (List ScoredEntry),
          (lists.map fun part => part.take kept).flatten.Sublist lists.flatten := by
        intro lists
        induction lists with
        | nil => exact .refl _
        | cons part rest ih => exact (List.take_sublist kept part).append ih
      exact (sublist parts).subperm
    have firsts := @take_sorted_parts _ cmp trans kept [] parts (by rwa [List.nil_append])
    rw [sorted_parts, List.nil_append, List.nil_append] at firsts
    rw [mergeAndTruncate_ranked]
    · rw [none_dropped, firsts, sorted_congr parts_distinct whole, key_ranked.sorted_eq, List.map_take]
    · rw [none_dropped]
      exact parts_distinct.of_subperm fewer
    · intro list member
      obtain ⟨part, among, rfl⟩ := List.mem_map.mp member
      exact (part_ranked part (List.mem_filter.mp among).1).sublist (List.take_sublist _ _)
  have no_hits : (parts.filter fun part => part ≠ []) = [] ↔
      hitsOf stringify documents group.fields hits key = [] := by
    rw [List.filter_eq_nil_iff, ← List.map_eq_nil_iff (f := entry), ← List.length_eq_zero_iff,
      ← whole.length_eq, List.length_eq_zero_iff, List.flatten_eq_nil_iff]
    simp
  have mapped : Assoc.lookup (mergedViews table stringify group.fields (sort.map Prod.fst) kept perNode) key =
      ((Assoc.lookup (groupsByKey stringify perNode group.fields) key).map KeyedLists.lists).map
        fun lists => mergeAndTruncate cmp lists kept := by
    rw [mergedViews, Assoc.lookup_map_values fun merged : KeyedLists V => mergeAndTruncate cmp merged.lists kept,
      Option.map_map]
    rfl
  refine mapped.trans ?_
  rw [(lookup_groupsByKey perNode key).1, lookup_rankingViews, lists]
  have nothing : perNode.flatten.filter (fun sent => recordKey stringify group.fields sent.values = key) = [] ↔
      hitsOf stringify documents group.fields hits key = [] := by
    rw [← no_hits, ← List.map_eq_nil_iff (f := WireGroupEntry.scored), lists, List.map_eq_nil_iff]
  by_cases none_here : hitsOf stringify documents group.fields hits key = []
  · rw [if_pos (nothing.mpr none_here), if_pos none_here]
    rfl
  · rw [if_neg fun empty => none_here (nothing.mp empty), if_neg none_here, Option.map_some, cut]

end Views

/--
However a ranking is split over nodes, their groups merge to the groups of the ranking: the
same keys in the same order, each with the same hits in the same order.
-/
theorem mergeDistributedGroups_whole {D V A : Type} (table : FoldTable) (stringify : List (Option V) → JsString)
    (documents : GroupedDocuments D V) (fields : List JsString) (some_field : fields ≠ [])
    (maxPerGroup : Option JsNumber) (sort : Option (List SortDirection × (JsString → List RawValue)))
    (hits : List RankedHit) (once : (hits.map RankedHit.id).Nodup)
    (ranked : Ranked (entryOrder table (sort.map Prod.fst)) (hits.map (wireEntry (sort.map Prod.snd))))
    (nodes : List (List RankedHit)) (split : nodes.flatten.Perm hits) (in_order : ∀ node ∈ nodes, node.Sublist hits) :
    let group : GroupConfig D A := ⟨fields, maxPerGroup, none, none⟩
    let perNode := nodes.map fun node => convertLocalGroupsToWire (sort.map Prod.snd)
      (applyGrouping stringify node (wireGroup group) documents)
    (mergeDistributedGroups table stringify perNode fields (hitsKeptPerGroup maxPerGroup) none
        (sort.map Prod.fst)).map (fun merged => (recordKey stringify fields merged.values, merged.scored)) =
      (applyGrouping stringify hits group documents).map fun whole =>
        (recordKey stringify fields whole.values, whole.hits.map (wireEntry (sort.map Prod.snd))) := by
  intro group perNode
  have merged := @mergeDistributedGroups_views V stringify fields table perNode (hitsKeptPerGroup maxPerGroup)
    (sort.map Prod.fst)
  have whole := @applyGrouping_views D V A stringify documents (sort.map Prod.snd) hits group some_field rfl
  refine merged.trans (Eq.trans ?_ whole.symm)
  have separate := @rankingViews_separate D V stringify documents fields (sort.map Prod.snd)
    (hitsKeptPerGroup maxPerGroup) (hitsKeptPerGroup_pos maxPerGroup) hits once
  have same : (rankingViews stringify documents fields (sort.map Prod.snd) (hitsKeptPerGroup maxPerGroup) hits).Perm
      (mergedViews table stringify fields (sort.map Prod.fst) (hitsKeptPerGroup maxPerGroup) perNode) := by
    apply Assoc.perm_of_lookup (rankingViews_distinct _ _ _)
    · rw [mergedViews, List.map_map]
      exact groupsByKey_distinct perNode
    · intro key
      exact (@lookup_mergedViews D V A stringify documents table sort group some_field rfl hits ranked nodes split
        in_order key).symm
  exact (sorted_congr separate same).symm

/-- The JSON text of a list of digits, with `null` for what is missing. -/
def digitsText (values : List (Option Nat)) : JsString :=
  let items := values.map fun value => value.elim [110, 117, 108, 108] fun digit => [UInt16.ofNat (48 + digit)]
  [91] ++ (items.intersperse [44]).flatten ++ [93]

def threeHits : List RankedHit := [⟨[97], some 3⟩, ⟨[98], some 2⟩, ⟨[99], some 1⟩]

/-- The first and the third hit have the value 1, the second has none. -/
def oneOrMissing : GroupedDocuments Nat Nat where
  document docId := if docId = [98] then none else some 1
  getNestedValue document _ := some document

theorem mergeDistributedGroups_whole_three :
    (mergeDistributedGroups (V := Nat) ⟨fun _ => none, fun _ => none⟩ digitsText
        ([[⟨[97], some 3⟩, ⟨[98], some 2⟩], [⟨[99], some 1⟩]].map fun node => convertLocalGroupsToWire none
          (applyGrouping digitsText node (wireGroup (⟨[[102]], some (.finite 2), none, none⟩ : GroupConfig Nat Nat))
            oneOrMissing)) [[102]] 2 none none).map (fun merged => (recordKey digitsText [[102]] merged.values,
              merged.scored)) =
      (applyGrouping digitsText threeHits (⟨[[102]], some (.finite 2), none, none⟩ : GroupConfig Nat Nat)
        oneOrMissing).map fun whole =>
          (recordKey digitsText [[102]] whole.values, whole.hits.map (wireEntry none)) :=
  mergeDistributedGroups_whole ⟨fun _ => none, fun _ => none⟩ digitsText oneOrMissing [[102]] (by decide) (some (.finite 2)) none
    threeHits (by decide) (by unfold Ranked; decide) [[⟨[97], some 3⟩, ⟨[98], some 2⟩], [⟨[99], some 1⟩]]
    (.refl _) (by decide)

end Narsil.Distribution
