import Narsil.Restore.RestoreKeys

/-!
# What recovery is to make of a storage

A plan says for each index what it is to hold, and where a pending restore is
staged. A storage is recoverable for a plan when each index either holds its
files already, or has a journal and each of its files lies in staging or in
place.
-/
namespace Narsil.Restore

open Assoc Crash

structure Plan where
  /-- The files that an index is to hold. -/
  contents : Key → Key → Option Bytes
  /-- The staging directory of an index whose restore is committed. -/
  staging : Key → Option Key

/-- The keys that a staged manifest with these files lists. -/
def listedOf (indexName : Key) (fileKeys : List Key) : List Key :=
  metaName :: manifestName :: fileKeys.map fun key => key.drop (indexName.length + 1)

/-- The files are those that their manifest lists. -/
def Lists (host : Host) (indexName : Key) (contents : Key → Option Bytes) : Prop :=
  ∃ bytes fileKeys, contents manifestName = some bytes ∧
    host.decodeSegmentManifest bytes indexName = some (.current fileKeys) ∧
    ∀ key, contents key ≠ none ↔ key ∈ listedOf indexName fileKeys

structure Plan.Sound (host : Host) (plan : Plan) : Prop where
  named : ∀ i d, plan.staging i = some d → isIndexName i = true ∧ IsStagingDir d
  apart : ∀ i j d, plan.staging i = some d → plan.staging j = some d → i = j
  digests : ∀ i j d d', plan.staging i = some d → plan.staging j = some d' →
    journalKey host i = journalKey host j → i = j
  lists : ∀ i d, plan.staging i = some d → Lists host i (plan.contents i)

variable {host : Host} {plan : Plan} {trees : Bool} {files files' : Files} {i j d key : Key}

def Idle (plan : Plan) (i : Key) (files : Files) : Prop :=
  ∀ key, lookup files (under i key) = plan.contents i key

def Staged (plan : Plan) (i d : Key) (files : Files) : Prop :=
  ∀ key, plan.contents i key ≠ none → lookup files (under d key) = plan.contents i key

def InPlace (plan : Plan) (i : Key) (files : Files) : Prop :=
  ∀ key, plan.contents i key ≠ none → lookup files (under i key) = plan.contents i key

/-- A directory is moved as a whole; an adapter moves one key after the other. -/
def Halfway (trees : Bool) (plan : Plan) (i d : Key) (files : Files) : Prop :=
  if trees then
    Staged plan i d files ∨ ((∀ key, lookup files (under d key) = none) ∧ InPlace plan i files)
  else
    ∀ key, plan.contents i key ≠ none →
      lookup files (under d key) = plan.contents i key ∨
        (lookup files (under d key) = none ∧ lookup files (under i key) = plan.contents i key)

structure Pending (host : Host) (trees : Bool) (plan : Plan) (i d : Key) (files : Files) : Prop where
  journal : lookup files (journalKey host i) = some (encodeJournal host i (d ++ ['/']))
  halfway : Halfway trees plan i d files

structure Recoverable (host : Host) (trees : Bool) (plan : Plan) (files : Files) : Prop where
  idle : ∀ i, isIndexName i = true → plan.staging i = none → Idle plan i files
  pending : ∀ i d, plan.staging i = some d →
    Pending host trees plan i d files ∨ (Idle plan i files ∧ lookup files (journalKey host i) = none)
  journals : ∀ key bytes, lookup files key = some bytes → isTopLevelJournal key = true →
    readJournal host key bytes = .ok .leftover ∨ ∃ i d, plan.staging i = some d ∧ key = journalKey host i

theorem not_retired_of_isIndexName (valid : isIndexName i = true) : ¬ retiredStart <+: i := by
  rintro ⟨rest, rfl⟩
  exact isIndexName_head valid _ rfl

theorem IsStagingDir.not_retired (h : IsStagingDir d) : ¬ retiredStart <+: d := by
  obtain ⟨rest, rfl⟩ := h.start
  rintro ⟨rest', same⟩
  simp [retiredStart, stagingStart] at same

theorem IsStagingDir.flat (h : IsStagingDir d) : '/' ∉ d := isStagingPrefix_flat h.valid

theorem IsStagingDir.ne_index (h : IsStagingDir d) (valid : isIndexName i = true) : d ≠ i := by
  rintro rfl
  obtain ⟨rest, rfl⟩ := h.start
  exact isIndexName_head valid _ rfl

theorem dirOf_flat (flat : '/' ∉ key) : dirOf key = none := if_neg flat

theorem isTopLevelJournal_flat (h : isTopLevelJournal key = true) : dirOf key = none := by
  rw [isTopLevelJournal, Bool.and_eq_true, decide_eq_true_eq, decide_eq_true_eq] at h
  exact dirOf_flat h.2

/-- The storages agree outside an index, its staging and what is retired. -/
def Agree (i d : Key) (files files' : Files) : Prop :=
  ∀ key, dirOf key ≠ some i → dirOf key ≠ some d →
    (∀ r, dirOf key = some r → ¬ retiredStart <+: r) → lookup files' key = lookup files key

theorem Agree.refl (i d : Key) (files : Files) : Agree i d files files := fun _ _ _ _ => rfl

theorem Agree.trans {files'' : Files} (h : Agree i d files files') (h' : Agree i d files' files'') :
    Agree i d files files'' :=
  fun key notIndex notStaging notRetired =>
    (h' key notIndex notStaging notRetired).trans (h key notIndex notStaging notRetired)

theorem Agree.top (h : Agree i d files files') (flat : dirOf key = none) :
    lookup files' key = lookup files key :=
  h key (by simp [flat]) (by simp [flat]) (by simp [flat])

theorem Agree.under {dir : Key} (h : Agree i d files files') (flat : '/' ∉ dir) (notIndex : dir ≠ i)
    (notStaging : dir ≠ d) (notRetired : ¬ retiredStart <+: dir) (key : Key) :
    lookup files' (under dir key) = lookup files (under dir key) := by
  have lies := dirOf_under flat key
  refine h _ ?_ ?_ ?_
  · rw [lies]
    exact fun same => notIndex (Option.some.inj same)
  · rw [lies]
    exact fun same => notStaging (Option.some.inj same)
  · intro r same
    rw [lies] at same
    cases same
    exact notRetired

theorem Idle.congr (h : Idle plan i files)
    (same : ∀ key, lookup files' (under i key) = lookup files (under i key)) : Idle plan i files' :=
  fun key => (same key).trans (h key)

theorem Halfway.congr (h : Halfway trees plan i d files)
    (index : ∀ key, lookup files' (under i key) = lookup files (under i key))
    (staging : ∀ key, lookup files' (under d key) = lookup files (under d key)) :
    Halfway trees plan i d files' := by
  unfold Halfway Staged InPlace at h ⊢
  simpa only [index, staging] using h

theorem Pending.congr (h : Pending host trees plan i d files)
    (journal : lookup files' (journalKey host i) = lookup files (journalKey host i))
    (index : ∀ key, lookup files' (under i key) = lookup files (under i key))
    (staging : ∀ key, lookup files' (under d key) = lookup files (under d key)) :
    Pending host trees plan i d files' :=
  ⟨journal.trans h.journal, h.halfway.congr index staging⟩

theorem dirOf_journalKey : dirOf (journalKey host i) = none := dirOf_flat journalKey_flat

theorem Recoverable.frame (sound : plan.Sound host) (h : Recoverable host trees plan files)
    (staged : plan.staging i = some d) (agree : Agree i d files files')
    (own : Pending host trees plan i d files') : Recoverable host trees plan files' := by
  obtain ⟨valid, dir⟩ := sound.named i d staged
  constructor
  · intro j validJ none
    have other : j ≠ i := by
      rintro rfl
      rw [staged] at none
      cases none
    exact (h.idle j validJ none).congr (agree.under (isIndexName_flat validJ) other
      (dir.ne_index validJ).symm (not_retired_of_isIndexName validJ))
  · intro j d' staged'
    by_cases same : j = i
    · subst same
      rw [staged] at staged'
      cases staged'
      exact Or.inl own
    · obtain ⟨validJ, dirJ⟩ := sound.named j d' staged'
      have index := agree.under (isIndexName_flat validJ) same (dir.ne_index validJ).symm
        (not_retired_of_isIndexName validJ)
      have journal := agree.top (dirOf_journalKey : dirOf (journalKey host j) = none)
      rcases h.pending j d' staged' with pending | ⟨idle, gone⟩
      · have apart : d' ≠ d := fun same' => same (sound.apart j i d (same' ▸ staged') staged)
        exact Or.inl (pending.congr journal index
          (agree.under dirJ.flat (dirJ.ne_index valid) apart dirJ.not_retired))
      · exact Or.inr ⟨idle.congr index, journal.trans gone⟩
  · intro key bytes held top
    rw [agree.top (isTopLevelJournal_flat top)] at held
    exact h.journals key bytes held top

theorem Recoverable.congr (sound : plan.Sound host) (h : Recoverable host trees plan files)
    (top : ∀ key, dirOf key = none → lookup files' key = lookup files key)
    (index : ∀ i key, isIndexName i = true → lookup files' (under i key) = lookup files (under i key))
    (staging : ∀ d key, IsStagingDir d → lookup files' (under d key) = lookup files (under d key)) :
    Recoverable host trees plan files' := by
  constructor
  · exact fun i valid none => (h.idle i valid none).congr fun key => index i key valid
  · intro i d staged
    obtain ⟨valid, dir⟩ := sound.named i d staged
    rcases h.pending i d staged with pending | ⟨idle, gone⟩
    · exact Or.inl (pending.congr (top _ dirOf_journalKey) (fun key => index i key valid)
        fun key => staging d key dir)
    · exact Or.inr ⟨idle.congr fun key => index i key valid, (top _ dirOf_journalKey).trans gone⟩
  · intro key bytes held isTop
    rw [top key (isTopLevelJournal_flat isTop)] at held
    exact h.journals key bytes held isTop

theorem Halfway.found (h : Halfway trees plan i d files) (listed : plan.contents i key ≠ none) :
    (lookup files (under d key)).or (lookup files (under i key)) = plan.contents i key := by
  obtain ⟨bytes, same⟩ := Option.ne_none_iff_exists'.mp listed
  cases trees with
  | true =>
    rcases h with staged | ⟨gone, inPlace⟩
    · rw [staged key listed, same]
      rfl
    · rw [gone key, inPlace key listed]
      rfl
  | false =>
    rcases h key listed with staged | ⟨gone, inPlace⟩
    · rw [staged, same]
      rfl
    · rw [gone, inPlace]
      rfl

theorem Recoverable.removeJournal (sound : plan.Sound host) (h : Recoverable host trees plan files)
    (staged : plan.staging i = some d) (idle : Idle plan i files) :
    Recoverable host trees plan (erase files (journalKey host i)) := by
  have keep : ∀ key, key ≠ journalKey host i →
      lookup (erase files (journalKey host i)) key = lookup files key := fun key other => by
    rw [lookup_erase, if_neg other]
  have keepUnder : ∀ {dir}, '/' ∉ dir → ∀ key,
      lookup (erase files (journalKey host i)) (under dir key) = lookup files (under dir key) := by
    intro dir flat key
    refine keep _ fun same => ?_
    have lies := dirOf_under flat key
    rw [same, dirOf_journalKey] at lies
    cases lies
  constructor
  · exact fun j valid none => (h.idle j valid none).congr (keepUnder (isIndexName_flat valid))
  · intro j d' staged'
    obtain ⟨valid, dir⟩ := sound.named j d' staged'
    by_cases same : j = i
    · subst same
      refine Or.inr ⟨idle.congr (keepUnder (isIndexName_flat valid)), ?_⟩
      rw [lookup_erase, if_pos rfl]
    · have other : journalKey host j ≠ journalKey host i :=
        fun equal => same (sound.digests j i d' d staged' staged equal)
      rcases h.pending j d' staged' with pending | ⟨idle', gone⟩
      · exact Or.inl (pending.congr (keep _ other) (keepUnder (isIndexName_flat valid))
          (keepUnder dir.flat))
      · exact Or.inr ⟨idle'.congr (keepUnder (isIndexName_flat valid)), (keep _ other).trans gone⟩
  · intro key bytes held top
    rw [lookup_erase] at held
    split at held
    · cases held
    · exact h.journals key bytes held top

theorem Recoverable.removeLeftover (sound : plan.Sound host) (h : Recoverable host trees plan files)
    {bytes : Bytes} (held : lookup files key = some bytes) (top : isTopLevelJournal key = true)
    (leftover : readJournal host key bytes = .ok .leftover) :
    Recoverable host trees plan (erase files key) := by
  have keepUnder : ∀ {dir}, '/' ∉ dir → ∀ other,
      lookup (erase files key) (under dir other) = lookup files (under dir other) := by
    intro dir flat other
    rw [lookup_erase, if_neg]
    intro same
    have lies := dirOf_under flat other
    rw [same, isTopLevelJournal_flat top] at lies
    cases lies
  constructor
  · exact fun j valid none => (h.idle j valid none).congr (keepUnder (isIndexName_flat valid))
  · intro j d' staged'
    obtain ⟨valid, dir⟩ := sound.named j d' staged'
    rcases h.pending j d' staged' with pending | ⟨idle, gone⟩
    · have other : journalKey host j ≠ key := by
        rintro rfl
        rw [pending.journal] at held
        cases held
        rw [readJournal_encodeJournal valid dir] at leftover
        cases leftover
      refine Or.inl (pending.congr ?_ (keepUnder (isIndexName_flat valid)) (keepUnder dir.flat))
      rw [lookup_erase, if_neg other]
    · refine Or.inr ⟨idle.congr (keepUnder (isIndexName_flat valid)), ?_⟩
      rw [lookup_erase]
      split
      · rfl
      · exact gone
  · intro key' bytes' held' top'
    rw [lookup_erase] at held'
    split at held'
    · cases held'
    · exact h.journals key' bytes' held' top'

end Narsil.Restore
