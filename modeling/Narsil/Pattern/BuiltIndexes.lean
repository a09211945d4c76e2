import Narsil.Pattern.GrowingIndex

/-!
# Indexes built over documents

An index over documents is grown call by call, or it is arrays: written of a growing
index, written again for other ordinals, or merged.
-/
namespace Narsil.Pattern

/-- The documents for the ordinals a table gives them. -/
def Documents.remapped (documents : Documents) (remap : Option (List Int)) : Documents :=
  fun ordinal value => ∃ position, Pattern.remapped remap position = some ordinal ∧ documents position value

/-- No two documents are given one ordinal. -/
def Documents.Apart (documents : Documents) (remap : Option (List Int)) : Prop :=
  ∀ position other value value' ordinal, documents position value → documents other value' →
    Pattern.remapped remap position = some ordinal → Pattern.remapped remap other = some ordinal →
    position = other

/-- Arrays an index is frozen in, and the documents they are of. -/
inductive Frozen (host : PatternHost) : Documents → PatternIndexArrays → Prop
  | written (calls : List IndexCall) (kept : Indexing)
      (disciplined : Transition.AllSteps (Indexing.next host) (Indexing.Allowed host) Indexing.start calls)
      (reached : Transition.run (Indexing.next host) Indexing.start calls = some kept)
      (remap : Option (List Int)) (apart : kept.documents.Apart remap) :
      Frozen host (kept.documents.remapped remap) (kept.index.toArrays remap).2
  | rewritten {documents : Documents} {arrays : PatternIndexArrays} (frozen : Frozen host documents arrays)
      (remap : Option (List Int)) (apart : documents.Apart remap) :
      Frozen host (documents.remapped remap) (arrays.toArrays remap)
  | merged (sources : List (Documents × PatternMergeInput))
      (frozen : ∀ source ∈ sources, Frozen host source.1 source.2.arrays)
      (apart : ∀ source ∈ sources, source.1.Apart (some source.2.remap))
      (disjoint : sources.Pairwise fun source other => ∀ ordinal value value',
        source.1.remapped (some source.2.remap) ordinal value →
          ¬ other.1.remapped (some other.2.remap) ordinal value') :
      Frozen host (fun ordinal value => ∃ source ∈ sources,
          source.1.remapped (some source.2.remap) ordinal value)
        (mergePatternArrays (sources.map Prod.snd))

/-- An index, and the documents it is built over. -/
inductive BuiltIndex (host : PatternHost) : Documents → PatternIndexReader → Prop
  | growing (calls : List IndexCall) (kept : Indexing)
      (disciplined : Transition.AllSteps (Indexing.next host) (Indexing.Allowed host) Indexing.start calls)
      (reached : Transition.run (Indexing.next host) Indexing.start calls = some kept) :
      BuiltIndex host kept.documents kept.index.reader
  | frozen {documents : Documents} {arrays : PatternIndexArrays} (frozen : Frozen host documents arrays) :
      BuiltIndex host documents (readPatternArrays arrays)

section Built
variable {host : PatternHost} {documents : Documents}

theorem filterMap_nodup {ordinals : List Nat} {remap : Option (List Int)} (distinct : ordinals.Nodup)
    (live : ∀ ordinal ∈ ordinals, ∃ value, documents ordinal value) (apart : documents.Apart remap) :
    (ordinals.filterMap (remapped remap)).Nodup := by
  induction ordinals with
  | nil => exact List.nodup_nil
  | cons position rest ih =>
    obtain ⟨fresh, rest_distinct⟩ := List.nodup_cons.mp distinct
    have later := ih rest_distinct fun ordinal member => live ordinal (by simp [member])
    rw [List.filterMap_cons]
    cases here : remapped remap position with
    | none => exact later
    | some ordinal =>
      refine List.nodup_cons.mpr ⟨?_, later⟩
      intro member
      obtain ⟨other, listed, there⟩ := List.mem_filterMap.mp member
      obtain ⟨value, is_live⟩ := live position (by simp)
      obtain ⟨value', is_live'⟩ := live other (by simp [listed])
      obtain rfl := apart position other value value' ordinal is_live is_live' here there
      exact fresh listed

theorem Remaps.indexes {reader later : PatternIndexReader} {remap : Option (List Int)}
    (remaps : Remaps reader later remap) (indexes : Indexes host documents reader)
    (apart : documents.Apart remap) : Indexes host (documents.remapped remap) later := by
  have posted_live : ∀ run, ∀ ordinal ∈ reader.postings run, ∃ value, documents ordinal value := by
    intro run ordinal member
    obtain ⟨value, live, _⟩ := (indexes.postings_exact run ordinal).mp member
    exact ⟨value, live⟩
  constructor
  · rw [remaps.1]
    exact Ascending.sort_strict (filterMap_nodup indexes.documents_strict.nodup
      (fun ordinal => (indexes.documents_exact ordinal).mp) apart)
  · intro ordinal
    rw [remaps.1, Ascending.mem_sort, List.mem_filterMap]
    constructor
    · rintro ⟨position, member, there⟩
      obtain ⟨value, live⟩ := (indexes.documents_exact position).mp member
      exact ⟨value, position, there, live⟩
    · rintro ⟨value, position, there, live⟩
      exact ⟨position, (indexes.documents_exact position).mpr ⟨value, live⟩, there⟩
  · intro run
    rw [remaps.2 run]
    exact Ascending.sort_strict
      (filterMap_nodup (indexes.postings_strict run).nodup (posted_live run) apart)
  · intro run ordinal
    rw [remaps.2 run, Ascending.mem_sort, List.mem_filterMap]
    constructor
    · rintro ⟨position, member, there⟩
      obtain ⟨value, live, holds⟩ := (indexes.postings_exact run position).mp member
      exact ⟨value, ⟨position, there, live⟩, holds⟩
    · rintro ⟨value, ⟨position, there, live⟩, holds⟩
      exact ⟨position, (indexes.postings_exact run position).mpr ⟨value, live, holds⟩, there⟩

theorem flatMap_nodup {sources : List (Documents × PatternMergeInput)}
    {part : PatternMergeInput → List Nat}
    (distinct : ∀ source ∈ sources, (part source.2).Nodup)
    (held : ∀ source ∈ sources, ∀ ordinal ∈ part source.2, ∃ value,
      source.1.remapped (some source.2.remap) ordinal value)
    (disjoint : sources.Pairwise fun source other => ∀ ordinal value value',
      source.1.remapped (some source.2.remap) ordinal value →
        ¬ other.1.remapped (some other.2.remap) ordinal value') :
    ((sources.map Prod.snd).flatMap part).Nodup := by
  induction sources with
  | nil => exact List.nodup_nil
  | cons source rest ih =>
    obtain ⟨first, later⟩ := List.pairwise_cons.mp disjoint
    rw [List.map_cons, List.flatMap_cons, List.nodup_append]
    refine ⟨distinct source (by simp), ?_, ?_⟩
    · exact ih (fun other member => distinct other (by simp [member]))
        (fun other member => held other (by simp [member])) later
    · rintro ordinal member other is_other rfl
      obtain ⟨input, listed, there⟩ := List.mem_flatMap.mp is_other
      obtain ⟨owner, is_owner, rfl⟩ := List.mem_map.mp listed
      obtain ⟨value, own⟩ := held source (by simp) ordinal member
      obtain ⟨value', theirs⟩ := held owner (by simp [is_owner]) ordinal there
      exact first owner is_owner ordinal value value' own theirs

theorem Frozen.indexes {arrays : PatternIndexArrays} (frozen : Frozen host documents arrays) :
    arrays.Valid ∧ Indexes host documents (readPatternArrays arrays) := by
  induction frozen with
  | written calls kept disciplined reached remap apart =>
    have inv := Indexing.reached_inv disciplined reached
    obtain ⟨valid, remaps⟩ := inv.frozen remap
    exact ⟨valid, remaps.indexes inv.indexes apart⟩
  | rewritten frozen remap apart ih =>
    obtain ⟨valid, remaps⟩ := toArrays_spec ih.1 remap
    exact ⟨valid, remaps.indexes ih.2 apart⟩
  | merged sources frozen apart disjoint ih =>
    have inputs_valid : ∀ input ∈ sources.map Prod.snd, input.arrays.Valid := by
      intro input member
      obtain ⟨source, listed, rfl⟩ := List.mem_map.mp member
      exact (ih source listed).1
    -- each source alone, for its own ordinals
    have each : ∀ source ∈ sources, Indexes host (source.1.remapped (some source.2.remap))
        ⟨Ascending.sort ((readPatternArrays source.2.arrays).documents.filterMap
            (remapped (some source.2.remap))),
          fun run => Ascending.sort (((readPatternArrays source.2.arrays).postings run).filterMap
            (remapped (some source.2.remap)))⟩ := fun source listed =>
      Remaps.indexes ⟨rfl, fun _ => rfl⟩ (ih source listed).2 (apart source listed)
    obtain ⟨valid, docs, posts⟩ := mergePatternArrays_spec inputs_valid
    refine ⟨valid, ?_⟩
    constructor
    · rw [docs]
      apply Ascending.sort_strict
      apply flatMap_nodup _ _ disjoint
      · intro source listed
        have strict := (each source listed).documents_strict
        exact (Ascending.sort_perm _).nodup_iff.mp strict.nodup
      · intro source listed ordinal member
        exact ((each source listed).documents_exact ordinal).mp (Ascending.mem_sort.mpr member)
    · intro ordinal
      rw [docs, Ascending.mem_sort, List.mem_flatMap]
      constructor
      · rintro ⟨input, member, there⟩
        obtain ⟨source, listed, rfl⟩ := List.mem_map.mp member
        obtain ⟨value, own⟩ := ((each source listed).documents_exact ordinal).mp
          (Ascending.mem_sort.mpr there)
        exact ⟨value, source, listed, own⟩
      · rintro ⟨value, source, listed, own⟩
        have there := ((each source listed).documents_exact ordinal).mpr ⟨value, own⟩
        exact ⟨source.2, List.mem_map_of_mem listed, Ascending.mem_sort.mp there⟩
    · intro run
      rw [posts run]
      apply Ascending.sort_strict
      apply flatMap_nodup _ _ disjoint
      · intro source listed
        have strict := (each source listed).postings_strict run
        exact (Ascending.sort_perm _).nodup_iff.mp strict.nodup
      · intro source listed ordinal member
        obtain ⟨value, own, _⟩ := ((each source listed).postings_exact run ordinal).mp
          (Ascending.mem_sort.mpr member)
        exact ⟨value, own⟩
    · intro run ordinal
      rw [posts run, Ascending.mem_sort, List.mem_flatMap]
      constructor
      · rintro ⟨input, member, there⟩
        obtain ⟨source, listed, rfl⟩ := List.mem_map.mp member
        obtain ⟨value, own, holds⟩ := ((each source listed).postings_exact run ordinal).mp
          (Ascending.mem_sort.mpr there)
        exact ⟨value, ⟨source, listed, own⟩, holds⟩
      · rintro ⟨value, ⟨source, listed, own⟩, holds⟩
        have there := ((each source listed).postings_exact run ordinal).mpr ⟨value, own, holds⟩
        exact ⟨source.2, List.mem_map_of_mem listed, Ascending.mem_sort.mp there⟩

theorem BuiltIndex.indexes {reader : PatternIndexReader} (built : BuiltIndex host documents reader) :
    Indexes host documents reader := by
  cases built with
  | growing calls kept disciplined reached => exact (Indexing.reached_inv disciplined reached).indexes
  | frozen frozen => exact frozen.indexes.2

end Built

end Narsil.Pattern
