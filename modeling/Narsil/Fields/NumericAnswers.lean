import Narsil.Fields.NumericContents

/-!
# The answers of a numeric index

Whatever is inserted and removed, each query answers from the multiset of the entries: an
insertion puts one in, and a removal takes one equal entry out of those in it at the time.
-/
namespace Narsil.Fields

open Bits Search

variable {V : Type} [LinearOrder V]

/-- The values a query asks for. -/
def Query.asks : Query V → V → Prop
  | eq value, other => other = value
  | gt value, other => value < other
  | gte value, other => value ≤ other
  | lt value, other => other < value
  | lte value, other => other ≤ value
  | between min max, other => min ≤ other ∧ other ≤ max
  | all, _ => True

instance (asked : Query V) (value : V) : Decidable (asked.asks value) := by
  cases asked <;> (unfold Query.asks; infer_instance)

variable {entries : List (NumericIndexEntry V)}

theorem Query.mem_bounds (sorted : Sorted entries) (asked : Query V) (entry : NumericIndexEntry V) :
    entry ∈ (entries.take (asked.bounds entries).2).drop (asked.bounds entries).1 ↔
      entry ∈ entries ∧ asked.asks entry.value := by
  cases asked with
  | eq value =>
    refine (mem_between (sorted.leading_lt value) (sorted.leading_le value)).trans ?_
    rw [decide_eq_false_iff_not, decide_eq_true_eq, not_lt]
    exact and_congr_right fun _ => ⟨fun both => le_antisymm both.2 both.1, fun same => ⟨same.ge, same.le⟩⟩
  | gt value =>
    refine (mem_from (sorted.leading_le value)).trans ?_
    rw [decide_eq_false_iff_not, not_le]
    rfl
  | gte value =>
    refine (mem_from (sorted.leading_lt value)).trans ?_
    rw [decide_eq_false_iff_not, not_lt]
    rfl
  | lt value =>
    refine (mem_until (sorted.leading_lt value)).trans ?_
    rw [decide_eq_true_eq]
    rfl
  | lte value =>
    refine (mem_until (sorted.leading_le value)).trans ?_
    rw [decide_eq_true_eq]
    rfl
  | between min max =>
    refine (mem_between (sorted.leading_lt min) (sorted.leading_le max)).trans ?_
    rw [decide_eq_false_iff_not, decide_eq_true_eq, not_lt]
    rfl
  | all =>
    show entry ∈ (entries.take entries.length).drop 0 ↔ _
    rw [List.take_length, List.drop_zero]
    exact (iff_of_eq (and_true _)).symm

theorem mem_query (sorted : Sorted entries) (asked : Query V) (docId : Nat) :
    docId ∈ query entries asked ↔ ∃ entry ∈ entries, asked.asks entry.value ∧ entry.docId = docId := by
  rw [query, collectDocIds, List.mem_map]
  constructor
  · rintro ⟨entry, member, rfl⟩
    obtain ⟨held, asks⟩ := (Query.mem_bounds sorted asked entry).mp member
    exact ⟨entry, held, asks, rfl⟩
  · rintro ⟨entry, held, asks, rfl⟩
    exact ⟨entry, (Query.mem_bounds sorted asked entry).mpr ⟨held, asks⟩, rfl⟩

theorem mem_queryNe (sorted : Sorted entries) (value : V) (docId : Nat) :
    docId ∈ queryNe entries value ↔ (∃ entry ∈ entries, entry.docId = docId) ∧
      ∀ entry ∈ entries, entry.docId = docId → entry.value ≠ value := by
  rw [queryNe, List.mem_filter, List.mem_map, decide_eq_true_eq, mem_query sorted]
  refine and_congr_right fun _ => ⟨fun excluded entry held same equal => ?_, fun differs => ?_⟩
  · exact excluded ⟨entry, held, equal, same⟩
  · rintro ⟨entry, held, equal, same⟩
    exact differs entry held same equal

/-- The documents of the entries of a value, in their order. -/
def documentsOf (entries : List (NumericIndexEntry V)) (value : V) : List Nat :=
  (entries.filter fun entry => entry.value = value).map NumericIndexEntry.docId

theorem valueRuns_head (entry : NumericIndexEntry V) (rest : List (NumericIndexEntry V)) :
    ∃ docIds runs, valueRuns (entry :: rest) = (entry.value, docIds) :: runs := by
  rw [valueRuns]
  cases valueRuns rest with
  | nil => exact ⟨_, _, rfl⟩
  | cons run runs =>
    by_cases same : entry.value = run.1
    · rw [same]
      exact ⟨_, _, if_pos rfl⟩
    · exact ⟨_, _, if_neg same⟩

theorem valueRuns_eq (sorted : Sorted entries) : valueRuns entries =
    (entries.map NumericIndexEntry.value).dedup.map fun value => (value, documentsOf entries value) := by
  induction entries with
  | nil => rfl
  | cons entry rest ih =>
    obtain ⟨least, rest_sorted⟩ := List.pairwise_cons.mp sorted
    have others : ∀ value, value ≠ entry.value → documentsOf (entry :: rest) value = documentsOf rest value := by
      intro value different
      rw [documentsOf, List.filter_cons_of_neg (by simpa using different.symm)]
      rfl
    have own : documentsOf (entry :: rest) entry.value = entry.docId :: documentsOf rest entry.value := by
      rw [documentsOf, List.filter_cons_of_pos (by simp)]
      rfl
    specialize ih rest_sorted
    rw [List.map_cons]
    by_cases known : entry.value ∈ rest.map NumericIndexEntry.value
    · rw [List.dedup_cons_of_mem known]
      cases rest with
      | nil => exact absurd known List.not_mem_nil
      | cons next more =>
        -- The entries are sorted, so the next one has the value too.
        have same : entry.value = next.value := by
          obtain ⟨other, member, equal⟩ := List.mem_map.mp known
          refine le_antisymm (least next (List.mem_cons_self ..)) ?_
          rw [← equal]
          rcases List.mem_cons.mp member with rfl | later
          · exact le_refl _
          · exact (List.pairwise_cons.mp rest_sorted).1 other later
        obtain ⟨docIds, runs, made⟩ := valueRuns_head next more
        rw [valueRuns, made]
        rw [made] at ih
        have distinct := List.nodup_dedup ((next :: more).map NumericIndexEntry.value)
        generalize ((next :: more).map NumericIndexEntry.value).dedup = values at ih distinct ⊢
        cases values with
        | nil => exact absurd ih (List.cons_ne_nil _ _)
        | cons value values =>
          obtain ⟨run_eq, runs_eq⟩ := List.cons.inj ih
          obtain ⟨value_eq, docIds_eq⟩ := Prod.mk.inj run_eq
          subst docIds_eq runs_eq
          rw [← value_eq, ← same] at distinct ⊢
          show (if entry.value = entry.value then _ else _) = _
          rw [if_pos rfl, List.map_cons, own]
          congr 1
          apply List.map_congr_left
          intro other member
          have different : other ≠ entry.value := by
            rintro rfl
            exact (List.nodup_cons.mp distinct).1 member
          rw [others other different]
    · rw [List.dedup_cons_of_notMem known, List.map_cons, own]
      have none_later : documentsOf rest entry.value = [] := by
        rw [documentsOf, List.filter_eq_nil_iff.mpr, List.map_nil]
        intro other member
        rw [decide_eq_true_eq]
        exact fun equal => known (List.mem_map.mpr ⟨other, member, equal⟩)
      have alone : valueRuns (entry :: rest) = (entry.value, [entry.docId]) :: valueRuns rest := by
        rw [valueRuns]
        cases rest with
        | nil => rfl
        | cons next more =>
          obtain ⟨docIds, runs, made⟩ := valueRuns_head next more
          rw [made]
          have different : ¬ entry.value = next.value := fun equal => known (by simp [equal])
          exact if_neg different
      rw [alone, none_later, ih]
      congr 1
      apply List.map_congr_left
      intro other member
      have different : other ≠ entry.value := by
        rintro rfl
        exact known (List.mem_dedup.mp member)
      rw [others other different]

theorem countRun_eq (matched : Bitset) (docIds : List Nat) :
    countRun matched docIds = (docIds.filter matched.has).toFinset.card := by
  match docIds with
  | [] => rfl
  | [docId] =>
    rw [countRun]
    cases holds : matched.has docId with
    | true => simp [holds]
    | false => simp [holds]
  | _ :: _ :: _ => rfl

theorem mem_facetValueCounts (sorted : Sorted entries) (matched : Bitset) (value : V) (count : Nat) :
    (value, count) ∈ facetValueCounts entries matched ↔
      0 < count ∧ count = ((documentsOf entries value).filter matched.has).toFinset.card := by
  rw [facetValueCounts, List.mem_filterMap, valueRuns_eq sorted]
  constructor
  · rintro ⟨run, member, counted⟩
    obtain ⟨other, _, rfl⟩ := List.mem_map.mp member
    dsimp only at counted
    split at counted
    · next some_matched =>
      obtain ⟨rfl, rfl⟩ := Prod.mk.inj (Option.some.inj counted)
      exact ⟨some_matched, countRun_eq _ _⟩
    · exact absurd counted (by simp)
  · rintro ⟨positive, rfl⟩
    refine ⟨(value, documentsOf entries value), List.mem_map.mpr ⟨value, ?_, rfl⟩, ?_⟩
    · obtain ⟨docId, counted⟩ := Finset.card_pos.mp positive
      obtain ⟨entry, member, _⟩ := List.mem_map.mp (List.mem_filter.mp (List.mem_toFinset.mp counted)).1
      obtain ⟨held, equal⟩ := List.mem_filter.mp member
      rw [List.mem_dedup]
      exact List.mem_map.mpr ⟨entry, held, by simpa using equal⟩
    · dsimp only
      rw [countRun_eq, if_pos positive]

inductive Call (V : Type)
  | insert (docId : Nat) (value : V)
  | remove (docId : Nat) (value : V)
  | query (asked : Query V)
  | queryNe (value : V)
  | queryBitset (asked : Query V) (capacity : Nat)
  | facetValueCounts (matched : Bitset)
  | facetRangeCount (start finish : V) (matched : Bitset)
  | count

inductive Answer (V : Type)
  | nothing
  | documents (docIds : Finset Nat)
  /-- Which bits of the answer are set, and how many words it has. -/
  | bits (words : Nat) (has : Nat → Bool)
  | counts (ofValues : Finset (V × Nat))
  | total (count : Nat)

/-- What a call answers, and the index after it. -/
def NumericIndex.call (index : NumericIndex V) : Call V → Answer V × NumericIndex V
  | .insert docId value => (.nothing, index.insert docId value)
  | .remove docId value => (.nothing, index.remove docId value)
  | .query asked => (.documents (Fields.query index.ensureSorted.entries asked).toFinset, index.ensureSorted)
  | .queryNe value => (.documents (Fields.queryNe index.ensureSorted.entries value).toFinset, index.ensureSorted)
  | .queryBitset asked capacity =>
    let bits := Fields.queryBitset index.ensureSorted.entries asked capacity
    (.bits bits.length bits.has, index.ensureSorted)
  | .facetValueCounts matched =>
    (.counts (Fields.facetValueCounts index.ensureSorted.entries matched).toFinset, index.ensureSorted)
  | .facetRangeCount start finish matched =>
    (.total (Fields.facetRangeCount index.ensureSorted.entries start finish matched), index.ensureSorted)
  | .count => (.total index.ensureSorted.entries.length, index.ensureSorted)

def NumericIndex.answers (index : NumericIndex V) : List (Call V) → List (Answer V)
  | [] => []
  | call :: calls => (index.call call).1 :: (index.call call).2.answers calls

section Multisets

/-- The documents of the entries that pass. -/
def documentsWhere (contents : Multiset (NumericIndexEntry V)) (passes : NumericIndexEntry V → Bool) : Finset Nat :=
  ((contents.filter fun entry => passes entry = true).map NumericIndexEntry.docId).toFinset

def valueCounts (contents : Multiset (NumericIndexEntry V)) (matched : Bitset) : Finset (V × Nat) :=
  ((contents.map NumericIndexEntry.value).toFinset.image fun value =>
    (value, (documentsWhere contents fun entry => decide (entry.value = value) && matched.has entry.docId).card)).filter
      fun count => 0 < count.2

/-- What a call answers of a multiset of entries, and the multiset after it. -/
def callOf (contents : Multiset (NumericIndexEntry V)) :
    Call V → Answer V × Multiset (NumericIndexEntry V)
  | .insert docId value => (.nothing, ⟨value, docId⟩ ::ₘ contents)
  | .remove docId value => (.nothing, contents.erase ⟨value, docId⟩)
  | .query asked => (.documents (documentsWhere contents fun entry => asked.asks entry.value), contents)
  | .queryNe value =>
    (.documents (documentsWhere contents (fun _ => true) \
      documentsWhere contents fun entry => decide (entry.value = value)), contents)
  | .queryBitset asked capacity =>
    let words := (Bitset.createBitSet capacity).length
    let asked_for := documentsWhere contents fun entry => asked.asks entry.value
    (.bits words fun docId => decide (docId / 32 < words ∧ docId ∈ asked_for), contents)
  | .facetValueCounts matched => (.counts (valueCounts contents matched), contents)
  | .facetRangeCount start finish matched =>
    (.total (documentsWhere contents fun entry =>
      decide (start ≤ entry.value ∧ entry.value < finish) && matched.has entry.docId).card, contents)
  | .count => (.total contents.card, contents)

def answersOf (contents : Multiset (NumericIndexEntry V)) : List (Call V) → List (Answer V)
  | [] => []
  | call :: calls => (callOf contents call).1 :: answersOf (callOf contents call).2 calls

omit [LinearOrder V] in
theorem mem_documentsWhere {passes : NumericIndexEntry V → Bool} {docId : Nat} :
    docId ∈ documentsWhere (entries : Multiset (NumericIndexEntry V)) passes ↔
      ∃ entry ∈ entries, passes entry = true ∧ entry.docId = docId := by
  rw [documentsWhere, Multiset.mem_toFinset, Multiset.mem_map]
  simp only [Multiset.mem_filter, Multiset.mem_coe, and_assoc]

theorem query_eq (sorted : Sorted entries) (asked : Query V) : (query entries asked).toFinset =
    documentsWhere (entries : Multiset (NumericIndexEntry V)) fun entry => asked.asks entry.value := by
  ext docId
  rw [List.mem_toFinset, mem_query sorted, mem_documentsWhere]
  simp only [decide_eq_true_eq]

theorem queryNe_eq (sorted : Sorted entries) (value : V) : (queryNe entries value).toFinset =
    documentsWhere (entries : Multiset (NumericIndexEntry V)) (fun _ => true) \
      documentsWhere (entries : Multiset (NumericIndexEntry V)) fun entry => decide (entry.value = value) := by
  ext docId
  rw [List.mem_toFinset, mem_queryNe sorted, Finset.mem_sdiff, mem_documentsWhere, mem_documentsWhere]
  simp only [decide_eq_true_eq, true_and]
  refine and_congr_right fun _ => ⟨?_, fun none entry held same equal => none ⟨entry, held, equal, same⟩⟩
  rintro differs ⟨entry, held, equal, same⟩
  exact differs entry held same equal

theorem documentsOf_eq (matched : Bitset) (value : V) : ((documentsOf entries value).filter matched.has).toFinset =
    documentsWhere (entries : Multiset (NumericIndexEntry V)) fun entry =>
      decide (entry.value = value) && matched.has entry.docId := by
  ext docId
  rw [List.mem_toFinset, List.mem_filter, documentsOf, List.mem_map, mem_documentsWhere]
  simp only [List.mem_filter, decide_eq_true_eq, Bool.and_eq_true]
  constructor
  · rintro ⟨⟨entry, ⟨held, equal⟩, rfl⟩, has⟩
    exact ⟨entry, held, ⟨equal, has⟩, rfl⟩
  · rintro ⟨entry, held, ⟨equal, has⟩, rfl⟩
    exact ⟨⟨entry, ⟨held, equal⟩, rfl⟩, has⟩

theorem facetValueCounts_eq (sorted : Sorted entries) (matched : Bitset) :
    (facetValueCounts entries matched).toFinset = valueCounts (entries : Multiset (NumericIndexEntry V)) matched := by
  ext ⟨value, count⟩
  rw [List.mem_toFinset, mem_facetValueCounts sorted, documentsOf_eq, valueCounts, Finset.mem_filter,
    Finset.mem_image]
  constructor
  · rintro ⟨positive, rfl⟩
    refine ⟨⟨value, ?_, rfl⟩, positive⟩
    obtain ⟨docId, counted⟩ := Finset.card_pos.mp positive
    obtain ⟨entry, held, passes, _⟩ := mem_documentsWhere.mp counted
    rw [Bool.and_eq_true, decide_eq_true_eq] at passes
    rw [Multiset.mem_toFinset, Multiset.mem_map]
    exact ⟨entry, held, passes.1⟩
  · rintro ⟨⟨other, _, made⟩, positive⟩
    obtain ⟨rfl, rfl⟩ := Prod.mk.inj made
    exact ⟨positive, rfl⟩

theorem facetRangeCount_eq (sorted : Sorted entries) (start finish : V) (matched : Bitset) :
    facetRangeCount entries start finish matched =
      (documentsWhere (entries : Multiset (NumericIndexEntry V)) fun entry =>
        decide (start ≤ entry.value ∧ entry.value < finish) && matched.has entry.docId).card := by
  rw [facetRangeCount]
  congr 1
  ext docId
  rw [List.mem_toFinset, List.mem_filter, collectDocIds, List.mem_map, mem_documentsWhere]
  simp only [lowerBound, mem_between (sorted.leading_lt start) (sorted.leading_lt finish), Bool.and_eq_true,
    decide_eq_true_eq, decide_eq_false_iff_not, not_lt]
  constructor
  · rintro ⟨⟨entry, ⟨held, within⟩, rfl⟩, has⟩
    exact ⟨entry, held, ⟨within, has⟩, rfl⟩
  · rintro ⟨entry, held, ⟨within, has⟩, rfl⟩
    exact ⟨⟨entry, ⟨held, within⟩, rfl⟩, has⟩

end Multisets

theorem call_spec {index : NumericIndex V} {contents : Multiset (NumericIndexEntry V)} (holds : index.Holds contents)
    (call : Call V) : (index.call call).1 = (callOf contents call).1 ∧
      (index.call call).2.Holds (callOf contents call).2 := by
  obtain ⟨sorted, rfl, settled⟩ := holds.settled
  cases call with
  | insert docId value => exact ⟨rfl, holds.insert docId value⟩
  | remove docId value => exact ⟨rfl, holds.remove docId value⟩
  | query asked => exact ⟨congrArg Answer.documents (query_eq sorted asked), settled⟩
  | queryNe value => exact ⟨congrArg Answer.documents (queryNe_eq sorted value), settled⟩
  | queryBitset asked capacity =>
    refine ⟨?_, settled⟩
    rw [NumericIndex.call, callOf]
    dsimp only
    rw [← query_eq sorted, queryBitset, collectDocIdsBitset]
    congr 1
    · rw [Bitset.ofList, (Bitset.setAll_spec _ _).1]
    · funext docId
      rw [Bool.eq_iff_iff, Bitset.has_ofList, decide_eq_true_eq, List.mem_toFinset]
      rfl
  | facetValueCounts matched => exact ⟨congrArg Answer.counts (facetValueCounts_eq sorted matched), settled⟩
  | facetRangeCount start finish matched =>
    exact ⟨congrArg Answer.total (facetRangeCount_eq sorted start finish matched), settled⟩
  | count => exact ⟨rfl, settled⟩

theorem answers_spec {index : NumericIndex V} {contents : Multiset (NumericIndexEntry V)} (holds : index.Holds contents)
    (calls : List (Call V)) : index.answers calls = answersOf contents calls := by
  induction calls generalizing index contents with
  | nil => rfl
  | cons call calls ih =>
    obtain ⟨same, later⟩ := call_spec holds call
    rw [NumericIndex.answers, answersOf, same, ih later]

/-- A numeric index answers as a multiset of its entries. -/
theorem createNumericIndex_answers (calls : List (Call V)) :
    (createNumericIndex : NumericIndex V).answers calls = answersOf 0 calls :=
  answers_spec NumericIndex.Holds.create calls

end Narsil.Fields
