import Narsil.Restore.RestoreSteps

/-!
# Restore is all or nothing

Recovery finishes every journal that is left and removes what no index holds.
Each of its crash states is one that it recovers from, so the number of crashes
does not matter; and a restore leaves a storage that is recoverable for the old
files before its journal is written, for the new files from then on.
-/
namespace Narsil.Restore

open Assoc Crash

variable {host : Host} {plan : Plan} {trees : Bool} {i d : Key} {files files' : Files}
  {rest fileKeys : List Key}

/-- Every index holds its files and no journal is left. -/
structure Settled (plan : Plan) (files : Files) : Prop where
  idle : ∀ i, isIndexName i = true → Idle plan i files
  journals : ∀ key, isTopLevelJournal key = true → lookup files key = none

/-- And no staging or retired prefix is left either. -/
structure Restored (plan : Plan) (files : Files) : Prop where
  settled : Settled plan files
  cleared : ∀ dir key, isStagingPrefix (dir ++ ['/']) = true → lookup files (under dir key) = none

theorem Settled.recoverable (sound : plan.Sound host) (h : Settled plan files) :
    Recoverable host trees plan files where
  idle := fun i valid _ => h.idle i valid
  pending := fun i d staged => Or.inr ⟨h.idle i (sound.named i d staged).1,
    h.journals _ isTopLevelJournal_journalKey⟩
  journals := by
    intro key bytes held top
    rw [h.journals key top] at held
    cases held

theorem Recoverable.settled (h : Recoverable host trees plan files)
    (journals : ∀ key, isTopLevelJournal key = true → lookup files key = none) :
    Settled plan files where
  idle := by
    intro i valid
    cases staged : plan.staging i with
    | none => exact h.idle i valid staged
    | some d =>
      rcases h.pending i d staged with pending | ⟨idle, -⟩
      · have journal := pending.journal
        rw [journals _ isTopLevelJournal_journalKey] at journal
        cases journal
      · exact idle
  journals := journals

theorem removePrefix_eq (start : Key) :
    removePrefix host (storageOf host trees) start = (do (← list host start).forM remove) := by
  cases trees <;> rfl

theorem removePrefix_spec (host : Host) (trees : Bool) {inv : Files → Prop} {dir : Key} (flat : '/' ∉ dir)
    (keeps : ∀ s key, inv s → inv (erase s (under dir key))) :
    Triple inv (removePrefix host (storageOf host trees) (dir ++ ['/']))
      (fun _ s => inv s ∧ ∀ key, lookup s (under dir key) = none) inv := by
  rw [removePrefix_eq]
  refine Triple.reads_bind fun s start => ?_
  have known : ∀ key ∈ host.arrange (keysBelow s (dir ++ ['/'])), ∃ k, key = under dir k := by
    intro key member
    obtain ⟨-, k, rfl⟩ := mem_keysBelow.mp ((host.mem_arrange _ _).mp member)
    exact ⟨k, start_append dir k⟩
  have first : ∀ key, lookup s (under dir key) ≠ none →
      under dir key ∈ host.arrange (keysBelow s (dir ++ ['/'])) := fun key present =>
    (host.mem_arrange _ _).mpr (mem_keysBelow.mpr ⟨present, (start_le_iff flat).mpr (dirOf_under flat key)⟩)
  generalize host.arrange (keysBelow s (dir ++ ['/'])) = keys at known first
  have loop : Triple (fun s => inv s ∧ (∀ key ∈ keys, ∃ k, key = under dir k) ∧
        ∀ key, lookup s (under dir key) ≠ none → under dir key ∈ keys) (keys.forM remove)
      (fun _ s => inv s ∧ (∀ key ∈ ([] : List Key), ∃ k, key = under dir k) ∧
        ∀ key, lookup s (under dir key) ≠ none → under dir key ∈ ([] : List Key)) inv := by
    refine Triple.forM (fun rest s => inv s ∧ (∀ key ∈ rest, ∃ k, key = under dir k) ∧
      ∀ key, lookup s (under dir key) ≠ none → under dir key ∈ rest) ?_ keys
    intro key rest
    refine Triple.step ?_ fun s h => h.1
    rintro s ⟨holds, known, toCome⟩
    obtain ⟨k, rfl⟩ := known key (by simp)
    refine ⟨keeps s k holds, fun other member => known other (List.mem_cons_of_mem _ member), ?_⟩
    intro other present
    rw [lookup_erase] at present
    split at present
    · exact absurd rfl present
    next differs => exact (List.mem_cons.mp (toCome other present)).resolve_left differs
  refine loop.consequence ?_ ?_ fun _ => id
  · rintro s' rfl
    exact ⟨start, known, first⟩
  · rintro _ s' ⟨holds, -, toCome⟩
    exact ⟨holds, fun key => by_contra fun present => List.not_mem_nil (toCome key present)⟩

private theorem erase_under_top {dir key other : Key} (flat : '/' ∉ dir) (top : dirOf other = none) :
    lookup (erase files (under dir key)) other = lookup files other := by
  rw [lookup_erase, if_neg]
  rintro rfl
  rw [dirOf_under flat] at top
  cases top

private theorem erase_under_other {dir dir' key other : Key} (flat : '/' ∉ dir) (flat' : '/' ∉ dir')
    (apart : dir' ≠ dir) :
    lookup (erase files (under dir key)) (under dir' other) = lookup files (under dir' other) := by
  rw [lookup_erase, if_neg]
  intro same
  have lies := dirOf_under flat' other
  rw [same, dirOf_under flat] at lies
  exact apart (Option.some.inj lies).symm

/-- The staging prefixes that are still to be removed. -/
structure Sweeping (plan : Plan) (rest : List Key) (files : Files) : Prop where
  settled : Settled plan files
  rest : ∀ dir key, isStagingPrefix (dir ++ ['/']) = true → lookup files (under dir key) ≠ none →
    dir ++ ['/'] ∈ rest

theorem Settled.eraseStaged {dir : Key} (h : Settled plan files)
    (staging : isStagingPrefix (dir ++ ['/']) = true) (key : Key) :
    Settled plan (erase files (under dir key)) where
  idle := by
    intro i valid
    refine (h.idle i valid).congr fun other =>
      erase_under_other (isStagingPrefix_flat staging) (isIndexName_flat valid) ?_
    obtain ⟨-, rest, rfl⟩ := isStagingPrefix_chars staging
    exact isIndexName_head valid rest
  journals := by
    intro other top
    rw [erase_under_top (isStagingPrefix_flat staging) (isTopLevelJournal_flat top)]
    exact h.journals other top

theorem Sweeping.erase {dir : Key} (h : Sweeping plan rest files)
    (staging : isStagingPrefix (dir ++ ['/']) = true) (key : Key) :
    Sweeping plan rest (erase files (under dir key)) where
  settled := h.settled.eraseStaged staging key
  rest := by
    intro dir' other staging' present
    rw [lookup_erase] at present
    split at present
    · exact absurd rfl present
    · exact h.rest dir' other staging' present

private theorem topPrefix_under {dir : Key} (flat : '/' ∉ dir) (key : Key) :
    topPrefix (under dir key) = dir ++ ['/'] := by
  have slash : '/' ∈ under dir key := by simp [under]
  have lies := dirOf_under flat key
  rw [dirOf, if_pos slash] at lies
  rw [topPrefix, Option.some.inj lies]

theorem removeStagingPrefixes_spec :
    Triple (Settled plan) (removeStagingPrefixes host (storageOf host trees))
      (fun _ => Restored plan) (Settled plan) := by
  refine Triple.reads_bind fun s settled => ?_
  dsimp only
  have named : ∀ p ∈ ((((host.arrange (keysBelow s ['.'])).filter fun key => '/' ∈ key).map
      topPrefix).filter fun p => isStagingPrefix p).dedup,
      ∃ dir, p = dir ++ ['/'] ∧ isStagingPrefix (dir ++ ['/']) = true := by
    intro p member
    obtain ⟨inMap, staging⟩ := List.mem_filter.mp (List.mem_dedup.mp member)
    obtain ⟨key, -, rfl⟩ := List.mem_map.mp inMap
    exact ⟨_, rfl, staging⟩
  have first : Sweeping plan ((((host.arrange (keysBelow s ['.'])).filter fun key => '/' ∈ key).map
      topPrefix).filter fun p => isStagingPrefix p).dedup s := by
    refine ⟨settled, fun dir key staging present => ?_⟩
    obtain ⟨-, later, dot⟩ := isStagingPrefix_chars staging
    refine List.mem_dedup.mpr (List.mem_filter.mpr ⟨List.mem_map.mpr ⟨under dir key, ?_,
      topPrefix_under (isStagingPrefix_flat staging) key⟩, staging⟩)
    refine List.mem_filter.mpr ⟨(host.mem_arrange _ _).mpr (mem_keysBelow.mpr ⟨present, ?_⟩), ?_⟩
    · rw [dot]
      exact ⟨later ++ '/' :: key, rfl⟩
    · simp [under]
  generalize ((((host.arrange (keysBelow s ['.'])).filter fun key => '/' ∈ key).map
      topPrefix).filter fun p => isStagingPrefix p).dedup = prefixes at named first
  have loop : Triple (fun s => (∀ p ∈ prefixes, ∃ dir, p = dir ++ ['/'] ∧
        isStagingPrefix (dir ++ ['/']) = true) ∧ Sweeping plan prefixes s)
      (prefixes.forM (removePrefix host (storageOf host trees)))
      (fun _ s => (∀ p ∈ ([] : List Key), ∃ dir, p = dir ++ ['/'] ∧
        isStagingPrefix (dir ++ ['/']) = true) ∧ Sweeping plan [] s) (Settled plan) := by
    refine Triple.forM (fun rest s => (∀ p ∈ rest, ∃ dir, p = dir ++ ['/'] ∧
      isStagingPrefix (dir ++ ['/']) = true) ∧ Sweeping plan rest s) ?_ prefixes
    intro p rest
    refine Triple.of_states fun s both => ?_
    obtain ⟨dir, rfl, staging⟩ := both.1 p (by simp)
    have swept := removePrefix_spec host trees (isStagingPrefix_flat staging)
      fun s key (h : Sweeping plan ((dir ++ ['/']) :: rest) s) => h.erase staging key
    refine swept.consequence ?_ ?_ fun s h => h.settled
    · rintro s' rfl
      exact both.2
    · rintro _ s' ⟨sweeping, gone⟩
      refine ⟨fun p member => both.1 p (List.mem_cons_of_mem _ member), sweeping.settled, ?_⟩
      intro dir' key staging' present
      rcases List.mem_cons.mp (sweeping.rest dir' key staging' present) with same | later
      · rw [List.append_cancel_right same, gone key] at present
        exact absurd rfl present
      · exact later
  refine loop.consequence ?_ ?_ fun _ => id
  · rintro s' rfl
    exact ⟨named, first⟩
  · rintro _ s' ⟨-, swept⟩
    exact ⟨swept.settled, fun dir key staging =>
      by_contra fun present => List.not_mem_nil (swept.rest dir key staging present)⟩

/-- The journals that recovery has yet to come to. -/
structure Recovering (host : Host) (trees : Bool) (plan : Plan) (rest : List Key) (files : Files) :
    Prop where
  recoverable : Recoverable host trees plan files
  rest : ∀ key, isTopLevelJournal key = true → lookup files key ≠ none → key ∈ rest

theorem Recovering.skip {key : Key} (h : Recovering host trees plan (key :: rest) files)
    (absent : isTopLevelJournal key = true → lookup files key = none) :
    Recovering host trees plan rest files where
  recoverable := h.recoverable
  rest := by
    intro other top present
    rcases List.mem_cons.mp (h.rest other top present) with rfl | later
    · exact absurd (absent top) present
    · exact later

theorem recoverJournal_spec (sound : plan.Sound host) (key : Key) (rest : List Key) :
    Triple (Recovering host trees plan (key :: rest))
      (recoverJournal host (storageOf host trees) key)
      (fun _ => Recovering host trees plan rest) (Recoverable host trees plan) := by
  unfold recoverJournal
  split
  next top =>
    refine Triple.reads_bind fun s h => ?_
    cases held : lookup s key with
    | none =>
      refine Triple.pure ?_
      rintro s' rfl
      exact h.skip fun _ => held
    | some bytes =>
      simp only
      rcases h.recoverable.journals key bytes held top with leftover | ⟨i, d, staging, rfl⟩
      · rw [leftover]
        refine Triple.step ?_ ?_
        · rintro s' rfl
          refine ⟨h.recoverable.removeLeftover sound held top leftover, fun other isTop present => ?_⟩
          rw [lookup_erase] at present
          split at present
          · exact absurd rfl present
          next differs => exact (List.mem_cons.mp (h.rest other isTop present)).resolve_left differs
        · rintro s' rfl
          exact h.recoverable
      · obtain ⟨valid, dir⟩ := sound.named i d staging
        -- The journal is there, so its restore is not finished.
        have pending : Pending host trees plan i d s := by
          rcases h.recoverable.pending i d staging with pending | ⟨-, gone⟩
          · exact pending
          · rw [gone] at held
            cases held
        rw [pending.journal] at held
        cases held
        rw [readJournal_encodeJournal valid dir]
        refine Triple.bind _ (finishJournal_spec sound staging h.recoverable pending) fun _ => ?_
        refine Triple.pure fun s' finished => ⟨finished.1.1, fun other isTop present => ?_⟩
        obtain ⟨before, differs⟩ := finished.1.2 other isTop present
        exact (List.mem_cons.mp (h.rest other isTop before)).resolve_left differs
  next notTop =>
    refine Triple.pure fun s h => h.skip fun top => ?_
    exact absurd top notTop

theorem recoverRestoreJournals_spec (sound : plan.Sound host) :
    Triple (Recoverable host trees plan) (recoverRestoreJournals host (storageOf host trees))
      (fun _ => Restored plan) (Recoverable host trees plan) := by
  refine Triple.reads_bind fun s recoverable => ?_
  have first : Recovering host trees plan (host.arrange (keysBelow s journalPrefix)) s := by
    refine ⟨recoverable, fun key top present => ?_⟩
    rw [isTopLevelJournal, Bool.and_eq_true, decide_eq_true_eq, decide_eq_true_eq] at top
    exact (host.mem_arrange _ _).mpr (mem_keysBelow.mpr ⟨present, top.1⟩)
  generalize host.arrange (keysBelow s journalPrefix) = keys at first
  have loop : Triple (Recovering host trees plan keys)
      (keys.forM (recoverJournal host (storageOf host trees)))
      (fun _ => Recovering host trees plan []) (Recoverable host trees plan) :=
    Triple.forM (Recovering host trees plan) (recoverJournal_spec sound) keys
  refine Triple.bind _ (loop.weaken ?_) fun _ => ?_
  · rintro s' rfl
    exact first
  · refine removeStagingPrefixes_spec.consequence ?_ (fun _ _ => id) fun _ h => h.recoverable sound
    exact fun s' h => h.recoverable.settled fun key top =>
      by_contra fun present => List.not_mem_nil (h.rest key top present)

/-- A restore's files lie in staging, and nothing else of it is known to the plan. -/
structure Ready (host : Host) (plan : Plan) (i d : Key) (fileKeys : List Key) (files : Files) :
    Prop where
  index : isIndexName i = true
  dir : IsStagingDir d
  none : plan.staging i = Option.none
  apart : ∀ j, plan.staging j ≠ some d
  digests : ∀ j d', plan.staging j = some d' → journalKey host j ≠ journalKey host i
  manifest : ∃ bytes, lookup files (under d manifestName) = some bytes ∧
    host.decodeSegmentManifest bytes i = some (.current fileKeys)
  staged : ∀ key ∈ listedOf i fileKeys, lookup files (under d key) ≠ Option.none

/-- The plan once the restore's journal is written: the index is to hold exactly
the listed files, as staged. -/
def Plan.commit (plan : Plan) (i d : Key) (fileKeys : List Key) (staged : Key → Option Bytes) : Plan where
  contents j key :=
    if j = i then if key ∈ listedOf i fileKeys then staged key else none else plan.contents j key
  staging j := if j = i then some d else plan.staging j

variable {staged : Key → Option Bytes}

theorem commit_sound (sound : plan.Sound host) (ready : Ready host plan i d fileKeys files) :
    (plan.commit i d fileKeys fun key => lookup files (under d key)).Sound host where
  named := by
    intro j d' same
    unfold Plan.commit at same
    dsimp only at same
    split at same
    next here =>
      cases same
      exact here ▸ ⟨ready.index, ready.dir⟩
    next => exact sound.named j d' same
  apart := by
    intro j j' d' same same'
    unfold Plan.commit at same same'
    dsimp only at same same'
    split at same <;> split at same'
    next here here' => exact here.trans here'.symm
    next =>
      cases same
      exact absurd same' (ready.apart j')
    next =>
      cases same'
      exact absurd same (ready.apart j)
    next => exact sound.apart j j' d' same same'
  digests := by
    intro j j' d' d'' same same' digest
    unfold Plan.commit at same same'
    dsimp only at same same'
    split at same <;> split at same'
    next here here' => exact here.trans here'.symm
    next here _ =>
      subst here
      exact absurd digest.symm (ready.digests j' d'' same')
    next here' =>
      subst here'
      exact absurd digest (ready.digests j d' same)
    next => exact sound.digests j j' d' d'' same same' digest
  lists := by
    intro j d' same
    by_cases here : j = i
    · subst here
      obtain ⟨bytes, held, decoded⟩ := ready.manifest
      refine ⟨bytes, fileKeys, ?_, decoded, fun key => ?_⟩
      · have listed : manifestName ∈ listedOf j fileKeys := by simp [listedOf]
        simp [Plan.commit, listed, held]
      · constructor
        · intro holds
          by_contra unlisted
          exact holds (by simp [Plan.commit, unlisted])
        · intro listed
          simpa [Plan.commit, listed] using ready.staged key listed
    · have old : plan.staging j = some d' := by simpa [Plan.commit, here] using same
      have lists := sound.lists j d' old
      simpa [Plan.commit, here] using lists

theorem Recoverable.commit (h : Recoverable host trees plan files)
    (ready : Ready host plan i d fileKeys files) (sound : plan.Sound host)
    (found : ∀ key, lookup files (under d key) = staged key)
    (below : ∀ dir key, '/' ∉ dir → lookup files' (under dir key) = lookup files (under dir key))
    (journal : lookup files' (journalKey host i) = some (encodeJournal host i (d ++ ['/'])))
    (others : ∀ j d', plan.staging j = some d' →
      lookup files' (journalKey host j) = lookup files (journalKey host j))
    (old : ∀ key bytes, key ≠ journalKey host i → lookup files' key = some bytes →
      isTopLevelJournal key = true → lookup files key = some bytes) :
    Recoverable host trees (plan.commit i d fileKeys staged) files' ∧
      Pending host trees (plan.commit i d fileKeys staged) i d files' := by
  have halfway : Staged (plan.commit i d fileKeys staged) i d files' := by
    intro key listed
    rw [below d key ready.dir.flat, found key]
    by_cases member : key ∈ listedOf i fileKeys
    · simp [Plan.commit, member]
    · exact absurd (by simp [Plan.commit, member]) listed
  have pending : Pending host trees (plan.commit i d fileKeys staged) i d files' := by
    refine ⟨journal, ?_⟩
    cases trees with
    | true => exact Or.inl halfway
    | false => exact fun key listed => Or.inl (halfway key listed)
  have idle : ∀ j, j ≠ i → isIndexName j = true → Idle plan j files →
      Idle (plan.commit i d fileKeys staged) j files' := by
    intro j other valid held key
    rw [below j key (isIndexName_flat valid), held key]
    simp [Plan.commit, other]
  refine ⟨⟨?_, ?_, ?_⟩, pending⟩
  · intro j valid none
    by_cases here : j = i
    · simp [Plan.commit, here] at none
    · exact idle j here valid (h.idle j valid (by simpa [Plan.commit, here] using none))
  · intro j d' same
    by_cases here : j = i
    · subst here
      have same : d = d' := by simpa [Plan.commit] using same
      exact Or.inl (same ▸ pending)
    · have same : plan.staging j = some d' := by simpa [Plan.commit, here] using same
      obtain ⟨valid, dir⟩ := sound.named j d' same
      rcases h.pending j d' same with pending' | ⟨held, gone⟩
      · have moved := pending'.congr (others j d' same)
          (fun key => below j key (isIndexName_flat valid)) fun key => below d' key dir.flat
        refine Or.inl ⟨moved.journal, ?_⟩
        have contents : (plan.commit i d fileKeys staged).contents j = plan.contents j := by
          funext key
          simp [Plan.commit, here]
        unfold Halfway Staged InPlace
        rw [contents]
        exact moved.halfway
      · exact Or.inr ⟨idle j here valid held, (others j d' same).trans gone⟩
  · intro key bytes held top
    by_cases here : key = journalKey host i
    · exact Or.inr ⟨i, d, by simp [Plan.commit], here⟩
    · rcases h.journals key bytes (old key bytes here held top) top with leftover | ⟨j, d', same, rfl⟩
      · exact Or.inl leftover
      · refine Or.inr ⟨j, d', ?_, rfl⟩
        have other : j ≠ i := fun equal => here (by rw [equal])
        simpa [Plan.commit, other] using same

private theorem tempName_ne_journalKey : tempName host (journalKey host i) ≠ journalKey host j := by
  intro same
  have dot : '.' ∈ (tempName host (journalKey host i)).drop journalPrefix.length := by
    rw [tempName, journalKey, List.append_assoc, List.append_assoc, List.drop_left]
    simp
  rw [same, journalKey, List.drop_left] at dot
  exact (digestOf_plain dot).1 rfl

private theorem under_ne_top {dir key other : Key} (flat : '/' ∉ dir) (top : dirOf other = none) :
    under dir key ≠ other := by
  rintro rfl
  rw [dirOf_under flat] at top
  cases top

theorem Recoverable.temp (h : Recoverable host trees plan files) (sound : plan.Sound host)
    (bytes : Bytes) :
    Recoverable host trees plan (insert files (tempName host (journalKey host i)) bytes) := by
  have keepUnder : ∀ {dir}, '/' ∉ dir → ∀ key,
      lookup (insert files (tempName host (journalKey host i)) bytes) (under dir key)
        = lookup files (under dir key) := fun flat key => by
    rw [lookup_insert, if_neg (under_ne_top flat (isTopLevelJournal_flat isTopLevelJournal_tempName))]
  have journal : ∀ j, lookup (insert files (tempName host (journalKey host i)) bytes)
      (journalKey host j) = lookup files (journalKey host j) := fun j => by
    rw [lookup_insert, if_neg tempName_ne_journalKey.symm]
  constructor
  · exact fun j valid none => (h.idle j valid none).congr (keepUnder (isIndexName_flat valid))
  · intro j d' same
    obtain ⟨valid, dir⟩ := sound.named j d' same
    rcases h.pending j d' same with pending | ⟨idle, gone⟩
    · exact Or.inl (pending.congr (journal j) (keepUnder (isIndexName_flat valid)) (keepUnder dir.flat))
    · exact Or.inr ⟨idle.congr (keepUnder (isIndexName_flat valid)), (journal j).trans gone⟩
  · intro key held found top
    rw [lookup_insert] at found
    split at found
    next same =>
      subst same
      exact Or.inl (readJournal_tempName i held)
    next => exact h.journals key held found top

theorem commitJournal_spec (sound : plan.Sound host) (h : Recoverable host trees plan files)
    (ready : Ready host plan i d fileKeys files) :
    Triple (fun s => s = files) (commitJournal host (storageOf host trees) i (d ++ ['/']))
      (fun _ s => Recoverable host trees (plan.commit i d fileKeys fun key => lookup files (under d key)) s ∧
        Pending host trees (plan.commit i d fileKeys fun key => lookup files (under d key)) i d s)
      (Recoverable host trees plan) := by
  cases trees with
  | false =>
    have writes : commitJournal host (storageOf host false) i (d ++ ['/'])
        = Program.step fun files => insert files (journalKey host i) (encodeJournal host i (d ++ ['/'])) := rfl
    rw [writes]
    refine Triple.step ?_ ?_
    · rintro s rfl
      refine h.commit ready sound (fun _ => rfl) ?_ ?_ ?_ ?_
      · intro dir key flat
        rw [lookup_insert, if_neg (under_ne_top flat dirOf_journalKey)]
      · rw [lookup_insert, if_pos rfl]
      · intro j d' same
        rw [lookup_insert, if_neg (ready.digests j d' same)]
      · intro key bytes other held _
        rwa [lookup_insert, if_neg other] at held
    · rintro s rfl
      exact h
  | true =>
    -- The temporary file first, the rename after it.
    refine Triple.bind (fun _ s => s = insert files (tempName host (journalKey host i))
      (host.tempBytes (encodeJournal host i (d ++ ['/'])))) ?_ fun _ => ?_
    · refine Triple.step ?_ ?_
      · rintro s rfl
        rfl
      · rintro s rfl
        exact h
    · refine Triple.step ?_ ?_
      · rintro s rfl
        refine h.commit ready sound (fun _ => rfl) ?_ ?_ ?_ ?_
        · intro dir key flat
          rw [lookup_insert, if_neg (under_ne_top flat dirOf_journalKey), lookup_erase,
            if_neg (under_ne_top flat (isTopLevelJournal_flat isTopLevelJournal_tempName)),
            lookup_insert,
            if_neg (under_ne_top flat (isTopLevelJournal_flat isTopLevelJournal_tempName))]
        · rw [lookup_insert, if_pos rfl]
        · intro j d' same
          rw [lookup_insert, if_neg (ready.digests j d' same), lookup_erase,
            if_neg tempName_ne_journalKey.symm, lookup_insert, if_neg tempName_ne_journalKey.symm]
        · intro key bytes other held _
          rw [lookup_insert, if_neg other, lookup_erase] at held
          split at held
          · cases held
          next differs => rwa [lookup_insert, if_neg differs] at held
      · rintro s rfl
        exact h.temp sound _

theorem Recoverable.eraseRetired {r : Key} (sound : plan.Sound host)
    (h : Recoverable host trees plan files) (retired : IsRetiredDir r) (key : Key) :
    Recoverable host trees plan (erase files (under r key)) := by
  refine h.congr sound ?_ ?_ ?_
  · exact fun other top => erase_under_top retired.2 top
  · intro j other valid
    refine erase_under_other retired.2 (isIndexName_flat valid) ?_
    rintro rfl
    exact not_retired_of_isIndexName valid retired.1
  · intro d' other dir
    refine erase_under_other retired.2 dir.flat ?_
    rintro rfl
    exact dir.not_retired retired.1

theorem restoreCommitted_spec (sound : plan.Sound host) (staging : plan.staging i = some d) :
    Triple (fun s => Recoverable host trees plan s ∧ Pending host trees plan i d s)
      (do match ← finishJournal host (storageOf host trees) i (d ++ ['/']) with
        | none => pure ()
        | some retiredPrefix => removePrefix host (storageOf host trees) retiredPrefix)
      (fun _ => Recoverable host trees plan) (Recoverable host trees plan) := by
  refine Triple.of_states fun s both => ?_
  refine Triple.bind _ (finishJournal_spec sound staging both.1 both.2) fun retired => ?_
  cases retired with
  | none => exact Triple.pure fun s' finished => finished.1.1
  | some p =>
    refine Triple.of_states fun s' finished => ?_
    obtain ⟨r, rfl, dir⟩ := finished.2 p rfl
    have keeps : ∀ s key, Recoverable host trees plan s →
        Recoverable host trees plan (erase s (under r key)) :=
      fun s key h => h.eraseRetired sound dir key
    refine (removePrefix_spec host trees dir.2 keeps).consequence ?_ (fun _ _ h => h.1) fun _ => id
    rintro _ rfl
    exact finished.1.1

/-- The journal is durable where the commit came to its end. -/
def commitEnds (host : Host) (trees : Bool) (i d : Key) (files : Files) (stepsLeft : Option Nat) : Bool :=
  match commitJournal host (storageOf host trees) i (d ++ ['/']) ⟨files, stepsLeft⟩ with
  | .done _ _ => true
  | _ => false

/-- Wherever a restore crashes, and however often its recovery does, recovery ends
with every index holding its old files, or with the index holding exactly the
listed staged files once its journal was durable; no journal, staging prefix or
retired prefix is left. -/
theorem restore_all_or_nothing (host : Host) (trees : Bool) (plan : Plan) (sound : plan.Sound host)
    (i d : Key) (fileKeys : List Key) (files : Files) (h : Recoverable host trees plan files)
    (ready : Ready host plan i d fileKeys files) (stepsLeft : Option Nat) (crashes : List Nat) :
    ∃ stopped recovered,
      (restore host (storageOf host trees) i (d ++ ['/'])).haltedState stepsLeft files = some stopped ∧
      (recoverRestoreJournals host (storageOf host trees)).reboot crashes stopped = some recovered ∧
      Restored (if commitEnds host trees i d files stepsLeft
        then plan.commit i d fileKeys fun key => lookup files (under d key) else plan) recovered := by
  have committed := commitJournal_spec sound h ready ⟨files, stepsLeft⟩ rfl
  have unfolded : restore host (storageOf host trees) i (d ++ ['/'])
      = Program.bind (commitJournal host (storageOf host trees) i (d ++ ['/'])) fun _ =>
          (do match ← finishJournal host (storageOf host trees) i (d ++ ['/']) with
            | none => pure ()
            | some retiredPrefix => removePrefix host (storageOf host trees) retiredPrefix) := rfl
  rw [unfolded, commitEnds]
  unfold Program.haltedState Program.bind
  cases ran : commitJournal host (storageOf host trees) i (d ++ ['/']) ⟨files, stepsLeft⟩ with
  | done a w =>
    rw [ran] at committed
    have sound' := commit_sound sound ready
    have staging : (plan.commit i d fileKeys fun key => lookup files (under d key)).staging i = some d := by
      simp [Plan.commit]
    obtain ⟨stopped, halted, left⟩ :=
      (restoreCommitted_spec sound' staging).haltedState committed.1 w.stepsLeft
    have recoverable : Recoverable host trees
        (plan.commit i d fileKeys fun key => lookup files (under d key)) stopped := by
      rcases left with ⟨-, ended⟩ | torn
      · exact ended
      · exact torn
    obtain ⟨recovered, rebooted, restored⟩ := (recoverRestoreJournals_spec sound').reboot
      (fun s done => done.settled.recoverable sound') crashes recoverable
    exact ⟨stopped, recovered, halted, rebooted, restored⟩
  | crashed s =>
    rw [ran] at committed
    obtain ⟨recovered, rebooted, restored⟩ := (recoverRestoreJournals_spec sound).reboot
      (fun s done => done.settled.recoverable sound) crashes committed.1
    exact ⟨s, recovered, rfl, rebooted, restored⟩
  | failed e =>
    rw [ran] at committed
    exact committed.elim

/-- Without a journal, recovery is to leave every index as it is. -/
def Plan.atRest (files : Files) : Plan where
  contents i key := lookup files (under i key)
  staging _ := none

theorem Plan.atRest_sound (files : Files) : (Plan.atRest files).Sound host where
  named := by simp [Plan.atRest]
  apart := by simp [Plan.atRest]
  digests := by simp [Plan.atRest]
  lists := by simp [Plan.atRest]

theorem Recoverable.atRest (none : ∀ key, isTopLevelJournal key = true → lookup files key = none) :
    Recoverable host trees (Plan.atRest files) files where
  idle := fun _ _ _ _ => rfl
  pending := by simp [Plan.atRest]
  journals := by
    intro key bytes held top
    rw [none key top] at held
    cases held

/-- The digest of the name `a`. -/
def sampleDigest : Bytes :=
  [0xca, 0x97, 0x81, 0x12, 0xca, 0x1b, 0xbd, 0xca, 0xfa, 0xc2, 0x31, 0xb3, 0x9a, 0x23, 0xdc, 0x4d,
    0xa7, 0x86, 0xef, 0xf8, 0x14, 0x7c, 0x4e, 0x72, 0xb9, 0x80, 0x77, 0x85, 0xaf, 0xee, 0x48, 0xbb]

/-- A random suffix longer than every key. -/
def sampleSuffix (files : Files) : List Char :=
  List.replicate ((files.map fun e => e.1.length).sum + 1) 'r'

private theorem length_le_sum (files : Files) (e : Key × Bytes) (member : e ∈ files) :
    e.1.length ≤ (files.map fun e => e.1.length).sum := by
  induction files with
  | nil => cases member
  | cons first rest ih =>
    rw [List.map_cons, List.sum_cons]
    rcases List.mem_cons.mp member with rfl | later
    · omega
    · have := ih later
      omega

private theorem ascii_round_trip (text : List Char) (ascii : ∀ c ∈ text, c.toNat < 128) :
    (text.map fun c => UInt8.ofNat c.toNat).map (fun b => Char.ofNat b.toNat) = text := by
  rw [List.map_map]
  refine (List.map_congr_left fun c member => ?_).trans (List.map_id' text)
  have bound := ascii c member
  simp only [Function.comp, UInt8.toNat_ofNat']
  rw [Nat.mod_eq_of_lt (by omega), Char.ofNat_toNat]

def sampleHost : Host where
  encodeText text := text.map fun c => UInt8.ofNat c.toNat
  decodeText bytes := bytes.map fun b => Char.ofNat b.toNat
  decode_ascii := ascii_round_trip
  sha256 _ := sampleDigest
  decodeSegmentManifest bytes _ := if bytes = [1] then some (.current []) else none
  fileKeys_below := by
    intro bytes indexName keys decoded key member
    split at decoded
    · cases decoded
      cases member
    · cases decoded
  arrange keys := keys
  mem_arrange _ _ := Iff.rfl
  randomSuffix := sampleSuffix
  randomSuffix_chars := by
    intro files c member
    rw [List.eq_of_mem_replicate member]
    exact Or.inl rfl
  randomSuffix_fresh := by
    intro files e member below
    have longer := below.length_le
    have bound := length_le_sum files e member
    simp only [sampleSuffix, List.length_append, List.length_replicate] at longer
    omega
  tempBytes bytes := bytes.take 1
  tempSuffix := ['1']
  tempSuffix_flat := by decide

def sampleDir : Key := ['.', 'r', 'e', 's', 't', 'o', 'r', 'e', '-', 'x']

def sampleFiles : Files :=
  [(under ['a'] metaName, [7]), (under ['a'] manifestName, [8]),
    (under sampleDir metaName, [9]), (under sampleDir manifestName, [1])]

/-- The restore crashes after its fourth step, recovery after its first. -/
theorem restore_all_or_nothing_sample :
    ∃ stopped recovered,
      (restore sampleHost (storageOf sampleHost true) ['a'] (sampleDir ++ ['/'])).haltedState (some 4)
        sampleFiles = some stopped ∧
      (recoverRestoreJournals sampleHost (storageOf sampleHost true)).reboot [1] stopped
        = some recovered ∧
      Restored (if commitEnds sampleHost true ['a'] sampleDir sampleFiles (some 4)
        then (Plan.atRest sampleFiles).commit ['a'] sampleDir []
          fun key => lookup sampleFiles (under sampleDir key)
        else Plan.atRest sampleFiles) recovered :=
  restore_all_or_nothing sampleHost true (Plan.atRest sampleFiles) (Plan.atRest_sound sampleFiles)
    ['a'] sampleDir [] sampleFiles
    (Recoverable.atRest fun key top => by
      refine lookup_eq_none.mpr fun member => ?_
      have known : ∀ key ∈ sampleFiles.map Prod.fst, isTopLevelJournal key = false := by decide
      rw [known key member] at top
      cases top)
    { index := by decide
      dir := ⟨by decide, ['x'], rfl⟩
      none := rfl
      apart := fun _ h => by cases h
      digests := fun _ _ h => by cases h
      manifest := ⟨[1], by decide, rfl⟩
      staged := by decide }
    (some 4) [1]

end Narsil.Restore
