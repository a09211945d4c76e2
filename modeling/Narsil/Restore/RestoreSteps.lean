import Narsil.Restore.RestoreInvariant

/-!
# Finishing a journal

Each step of `finishJournal` leaves the storage recoverable, from whatever
half-done state it starts in, and at its end the index holds its files and the
journal is gone.
-/
namespace Narsil.Restore

open Assoc Crash

variable {host : Host} {plan : Plan} {trees : Bool} {i d : Key} {files files' start : Files}
  {listed staged rest : List Key}

def storageOf (host : Host) (trees : Bool) : RestoreStorage :=
  if trees then directoryRestoreStorage host else adapterRestoreStorage

/-- A restore that is being finished, seen from the storage it started with. -/
structure Underway (host : Host) (trees : Bool) (plan : Plan) (i d : Key) (start files : Files) :
    Prop where
  recoverable : Recoverable host trees plan files
  pending : Pending host trees plan i d files
  agree : Agree i d start files

theorem Underway.step (sound : plan.Sound host) (staging : plan.staging i = some d)
    (h : Underway host trees plan i d start files) (agree : Agree i d files files')
    (halfway : Halfway trees plan i d files') : Underway host trees plan i d start files' := by
  have pending : Pending host trees plan i d files' :=
    ⟨(agree.top dirOf_journalKey).trans h.pending.journal, halfway⟩
  exact ⟨h.recoverable.frame sound staging agree pending, pending, h.agree.trans agree⟩

theorem listedKeys_spec (sound : plan.Sound host) (staging : plan.staging i = some d)
    (h : Underway host trees plan i d start files) (torn : Files → Prop) :
    Triple (fun s => s = files) (listedKeys host i (d ++ ['/']))
      (fun listed s => s = files ∧ ∀ key, plan.contents i key ≠ none ↔ key ∈ listed) torn := by
  obtain ⟨bytes, fileKeys, manifest, decoded, lists⟩ := sound.lists i d staging
  have found : (lookup files (under d manifestName)).or (lookup files (under i manifestName))
      = plan.contents i manifestName :=
    h.pending.halfway.found (by rw [manifest]; exact Option.some_ne_none _)
  unfold listedKeys
  refine Triple.reads_bind ?_
  rintro s rfl
  refine Triple.reads_bind ?_
  rintro s rfl
  rw [start_append, show i ++ '/' :: manifestName = under i manifestName from rfl, found, manifest]
  simp only [decoded]
  exact Triple.pure fun s same => ⟨same, lists⟩

/-- The loop over the listed keys: what is not yet in place is still to come. -/
structure Moving (host : Host) (trees : Bool) (plan : Plan) (i d : Key) (start : Files)
    (staged rest : List Key) (files : Files) : Prop where
  underway : Underway host trees plan i d start files
  known : ∀ key, lookup files (under d key) ≠ none → under d key ∈ staged
  listed : ∀ key ∈ rest, plan.contents i key ≠ none
  placed : ∀ key, plan.contents i key ≠ none →
    key ∈ rest ∨ lookup files (under i key) = plan.contents i key

theorem Moving.skip {key : Key} (h : Moving host trees plan i d start staged (key :: rest) files)
    (placed : lookup files (under i key) = plan.contents i key) :
    Moving host trees plan i d start staged rest files where
  underway := h.underway
  known := h.known
  listed := fun other member => h.listed other (List.mem_cons_of_mem _ member)
  placed := by
    intro other listed
    rcases h.placed other listed with toCome | done
    · rcases List.mem_cons.mp toCome with rfl | later
      · exact Or.inr placed
      · exact Or.inl later
    · exact Or.inr done

private theorem agree_insert (valid : isIndexName i = true) (key : Key) (bytes : Bytes) :
    Agree i d files (insert files (under i key) bytes) := by
  intro other notIndex _ _
  rw [lookup_insert, if_neg]
  rintro rfl
  exact notIndex (dirOf_under (isIndexName_flat valid) key)

private theorem agree_erase_staged (dir : IsStagingDir d) (key : Key) :
    Agree i d files (erase files (under d key)) := by
  intro other _ notStaging _
  rw [lookup_erase, if_neg]
  rintro rfl
  exact notStaging (dirOf_under dir.flat key)

private theorem agree_erase_index (valid : isIndexName i = true) (key : Key) :
    Agree i d files (erase files (under i key)) := by
  intro other notIndex _ _
  rw [lookup_erase, if_neg]
  rintro rfl
  exact notIndex (dirOf_under (isIndexName_flat valid) key)

private theorem under_ne (flat : '/' ∉ i) (flat' : '/' ∉ d) (apart : d ≠ i) (key other : Key) :
    under d key ≠ under i other := by
  intro same
  have lies := dirOf_under flat' key
  rw [same, dirOf_under flat] at lies
  exact apart (Option.some.inj lies).symm

theorem Moving.copied {key : Key} {bytes : Bytes} (sound : plan.Sound host)
    (staging : plan.staging i = some d)
    (h : Moving host false plan i d start staged (key :: rest) files)
    (held : lookup files (under d key) = some bytes) :
    Moving host false plan i d start staged rest (insert files (under i key) bytes) ∧
      lookup (insert files (under i key) bytes) (under i key) = plan.contents i key := by
  obtain ⟨valid, dir⟩ := sound.named i d staging
  have contents : plan.contents i key = some bytes := by
    rcases h.underway.pending.halfway key (h.listed key (by simp)) with stagedKey | ⟨gone, -⟩
    · rw [← stagedKey, held]
    · rw [gone] at held
      cases held
  have inStaging : ∀ other, lookup (insert files (under i key) bytes) (under d other)
      = lookup files (under d other) := fun other => by
    rw [lookup_insert, if_neg (under_ne (isIndexName_flat valid) dir.flat (dir.ne_index valid) other key)]
  have inIndex : ∀ other, lookup (insert files (under i key) bytes) (under i other)
      = if other = key then some bytes else lookup files (under i other) := fun other => by
    rw [lookup_insert]
    by_cases same : other = key
    · rw [if_pos (by rw [same]), if_pos same]
    · rw [if_neg fun equal => same (under_inj equal), if_neg same]
  have here : lookup (insert files (under i key) bytes) (under i key) = plan.contents i key := by
    rw [inIndex, if_pos rfl, contents]
  have halfway : Halfway false plan i d (insert files (under i key) bytes) := by
    intro other listed
    rw [inStaging, inIndex]
    rcases h.underway.pending.halfway other listed with stagedKey | ⟨gone, placed⟩
    · exact Or.inl stagedKey
    · refine Or.inr ⟨gone, ?_⟩
      split
      next same => rw [same, contents]
      next => exact placed
  have moving : Moving host false plan i d start staged (key :: rest)
      (insert files (under i key) bytes) := by
    refine ⟨h.underway.step sound staging (agree_insert valid key bytes) halfway, ?_, h.listed, ?_⟩
    · intro other present
      rw [inStaging] at present
      exact h.known other present
    · intro other listed
      rcases h.placed other listed with toCome | done
      · exact Or.inl toCome
      · refine Or.inr ?_
        rw [inIndex]
        split
        next same => rw [same, contents]
        next => exact done
  exact ⟨moving.skip here, here⟩

theorem Moving.removed {key : Key} (sound : plan.Sound host) (staging : plan.staging i = some d)
    (h : Moving host false plan i d start staged rest files)
    (placed : lookup files (under i key) = plan.contents i key) :
    Moving host false plan i d start staged rest (erase files (under d key)) := by
  obtain ⟨valid, dir⟩ := sound.named i d staging
  have inIndex : ∀ other, lookup (erase files (under d key)) (under i other)
      = lookup files (under i other) := fun other => by
    rw [lookup_erase, if_neg (under_ne (isIndexName_flat valid) dir.flat (dir.ne_index valid) key other).symm]
  have inStaging : ∀ other, lookup (erase files (under d key)) (under d other)
      = if other = key then none else lookup files (under d other) := fun other => by
    rw [lookup_erase]
    by_cases same : other = key
    · rw [if_pos (by rw [same]), if_pos same]
    · rw [if_neg fun equal => same (under_inj equal), if_neg same]
  have halfway : Halfway false plan i d (erase files (under d key)) := by
    intro other listed
    rw [inStaging, inIndex]
    split
    next same =>
      subst same
      exact Or.inr ⟨rfl, placed⟩
    next => exact h.underway.pending.halfway other listed
  refine ⟨h.underway.step sound staging (agree_erase_staged dir key) halfway, ?_, h.listed, ?_⟩
  · intro other present
    rw [inStaging] at present
    split at present
    · exact absurd rfl present
    · exact h.known other present
  · intro other listed
    rw [inIndex]
    exact h.placed other listed

theorem moveKey_adapter {key : Key} (sound : plan.Sound host) (staging : plan.staging i = some d) :
    Triple (Moving host false plan i d start staged (key :: rest))
      (adapterRestoreStorage.moveKey (under d key) (under i key))
      (fun _ => Moving host false plan i d start staged rest) (Recoverable host false plan) := by
  change Triple _ (read (under d key) >>= _) _ _
  refine Triple.reads_bind fun files moving => ?_
  cases held : lookup files (under d key) with
  | none =>
    refine Triple.pure ?_
    rintro s rfl
    rcases moving.underway.pending.halfway key (moving.listed key (by simp)) with stagedKey | ⟨-, placed⟩
    · exact absurd (stagedKey.symm.trans held) (moving.listed key (by simp))
    · exact moving.skip placed
  | some bytes =>
    refine Triple.bind (fun _ s => Moving host false plan i d start staged rest s ∧
      lookup s (under i key) = plan.contents i key) ?_ fun _ => ?_
    · refine Triple.step ?_ ?_
      · rintro s rfl
        exact moving.copied sound staging held
      · rintro s rfl
        exact moving.underway.recoverable
    · refine Triple.step ?_ ?_
      · exact fun s both => both.1.removed sound staging both.2
      · exact fun s both => both.1.underway.recoverable

theorem moveListed_adapter (sound : plan.Sound host) (staging : plan.staging i = some d)
    (lists : ∀ key, plan.contents i key ≠ none ↔ key ∈ listed)
    (stagedKeys : ∀ key, key ∈ staged ↔ lookup files key ≠ none ∧ d ++ ['/'] <+: key)
    (h : Underway host false plan i d start files) :
    Triple (fun s => s = files) (moveListed adapterRestoreStorage i (d ++ ['/']) listed staged)
      (fun _ s => Underway host false plan i d start s ∧ InPlace plan i s)
      (Recoverable host false plan) := by
  have loop : Triple (Moving host false plan i d start staged listed)
      (moveListed adapterRestoreStorage i (d ++ ['/']) listed staged)
      (fun _ => Moving host false plan i d start staged []) (Recoverable host false plan) := by
    refine Triple.forM (Moving host false plan i d start staged) ?_ listed
    intro key rest
    rw [start_append]
    split
    next => exact moveKey_adapter sound staging
    next absent =>
      refine Triple.pure fun s moving => moving.skip ?_
      rcases moving.underway.pending.halfway key (moving.listed key (by simp)) with stagedKey | ⟨-, placed⟩
      · refine absurd (moving.known key ?_) absent
        rw [stagedKey]
        exact moving.listed key (by simp)
      · exact placed
  refine loop.consequence ?_ ?_ fun _ => id
  · rintro s rfl
    refine ⟨h, ?_, fun key member => (lists key).mpr member, fun key listed => Or.inl ((lists key).mp listed)⟩
    intro key present
    exact (stagedKeys _).mpr ⟨present, key, start_append d key⟩
  · intro _ s moved
    exact ⟨moved.underway, fun key listed => (moved.placed key listed).resolve_left List.not_mem_nil⟩

theorem moveTree_directory {source target : Key} {moveTree : Key → Key → Action Unit}
    {torn : Files → Prop} (trees : (directoryRestoreStorage host).moveTree = some moveTree)
    (flat : '/' ∉ target) (free : ∀ e ∈ files, dirOf e.1 ≠ some target) (safe : torn files) :
    Triple (fun s => s = files) (moveTree source target)
      (fun _ s => s = renameTree files source target) torn := by
  cases trees
  refine Triple.reads_bind ?_
  rintro s rfl
  refine Triple.reads_bind ?_
  rintro s rfl
  have vacant : keysBelow s (target ++ ['/']) = [] := by
    refine List.eq_nil_iff_forall_not_mem.mpr fun key below => ?_
    obtain ⟨inList, below⟩ := List.mem_filter.mp below
    obtain ⟨e, he, rfl⟩ := List.mem_map.mp inList
    exact free e he ((start_le_iff flat).mp (by simpa using below))
  split
  next nothing =>
    -- No file lies below the source: renaming nothing changes nothing.
    refine Triple.pure ?_
    rintro s' rfl
    exact (renameTree_empty nothing target).symm
  next =>
    rw [if_neg (not_not.mpr vacant)]
    refine Triple.step ?_ ?_
    · rintro s' rfl
      rfl
    · rintro s' rfl
      exact safe

/-- The directory of a retired prefix. -/
def IsRetiredDir (r : Key) : Prop := retiredStart <+: r ∧ '/' ∉ r

private theorem retired_flat (host : Host) (files : Files) :
    IsRetiredDir (retiredStart ++ host.randomSuffix files) := by
  refine ⟨List.prefix_append _ _, fun slash => ?_⟩
  rcases List.mem_append.mp slash with inStart | inSuffix
  · exact absurd inStart (by decide)
  · rcases host.randomSuffix_chars files _ inSuffix with alphanumeric | dash
    · exact absurd alphanumeric (by decide)
    · exact absurd dash (by decide)

theorem moveTrees_spec {moveTree : Key → Key → Action Unit} (sound : plan.Sound host)
    (staging : plan.staging i = some d)
    (trees : (directoryRestoreStorage host).moveTree = some moveTree)
    (h : Underway host true plan i d start files) (staged : Staged plan i d files) {r : Key}
    (retired : IsRetiredDir r) (free : ∀ e ∈ files, dirOf e.1 ≠ some r) {rest : Action (Option Key)}
    {after : Option Key → Files → Prop}
    (continued : Triple (fun s => Underway host true plan i d start s ∧ InPlace plan i s) rest after
      (Recoverable host true plan)) :
    Triple (fun s => s = files) (do moveTree i r; moveTree d i; rest) after
      (Recoverable host true plan) := by
  obtain ⟨valid, dir⟩ := sound.named i d staging
  have flat := isIndexName_flat valid
  have apartI : i ≠ r := fun same => not_retired_of_isIndexName valid (same ▸ retired.1)
  have apartD : d ≠ r := fun same => dir.not_retired (same ▸ retired.1)
  have agree : Agree i d files (renameTree files i r) := by
    intro key notIndex _ notRetired
    exact lookup_renameTree_other flat retired.2 notIndex fun lies => notRetired r lies retired.1
  have staged' : Staged plan i d (renameTree files i r) := by
    intro key listed
    rw [lookup_renameTree_other flat retired.2]
    · exact staged key listed
    · rw [dirOf_under dir.flat]
      exact fun same => dir.ne_index valid (Option.some.inj same)
    · rw [dirOf_under dir.flat]
      exact fun same => apartD (Option.some.inj same)
  have underway' := h.step sound staging agree (Or.inl staged')
  have vacant : ∀ e ∈ renameTree files i r, dirOf e.1 ≠ some i := by
    intro e he lies
    obtain ⟨rest, split, -⟩ := under_of_dirOf lies
    have held := lookup_isSome.mpr (List.mem_map_of_mem he)
    rw [split, lookup_renameTree_source flat retired.2 apartI] at held
    cases held
  have inPlace : InPlace plan i (renameTree (renameTree files i r) d i) := by
    intro key listed
    rw [lookup_renameTree_target dir.flat flat vacant]
    exact staged' key listed
  have agree' : Agree i d (renameTree files i r) (renameTree (renameTree files i r) d i) := by
    intro key notIndex notStaging _
    exact lookup_renameTree_other dir.flat flat notStaging notIndex
  have gone : ∀ key, lookup (renameTree (renameTree files i r) d i) (under d key) = none :=
    lookup_renameTree_source dir.flat flat (dir.ne_index valid)
  have underway'' := underway'.step sound staging agree' (Or.inr ⟨gone, inPlace⟩)
  refine Triple.bind _ (moveTree_directory trees retired.2 free h.recoverable) fun _ => ?_
  refine Triple.bind _ (moveTree_directory trees flat vacant underway'.recoverable) fun _ => ?_
  refine continued.weaken ?_
  rintro s rfl
  exact ⟨underway'', inPlace⟩

theorem moveStaged_spec (sound : plan.Sound host) (staging : plan.staging i = some d)
    (lists : ∀ key, plan.contents i key ≠ none ↔ key ∈ listed)
    (stagedKeys : ∀ key, key ∈ staged ↔ lookup files key ≠ none ∧ d ++ ['/'] <+: key)
    (h : Underway host trees plan i d start files) :
    Triple (fun s => s = files)
      (moveStaged host (storageOf host trees) i (d ++ ['/']) listed staged)
      (fun retired s => (Underway host trees plan i d start s ∧ InPlace plan i s) ∧
        ∀ p, retired = some p → ∃ r, p = r ++ ['/'] ∧ IsRetiredDir r)
      (Recoverable host trees plan) := by
  cases trees with
  | false =>
    refine Triple.bind _ (moveListed_adapter sound staging lists stagedKeys h) fun _ => ?_
    exact Triple.pure fun s moved => ⟨moved, fun p none => by cases none⟩
  | true =>
    unfold moveStaged storageOf
    simp only [if_true]
    have trees : (directoryRestoreStorage host).moveTree
        = some ((directoryRestoreStorage host).moveTree.get rfl) := rfl
    rw [trees]
    simp only
    split
    next nothing =>
      -- The tree was moved before the crash: no listed key is staged any more.
      have inPlace : InPlace plan i files := by
        rcases h.pending.halfway with stagedAll | ⟨-, inPlace⟩
        · intro key listed
          have present := stagedAll key listed
          have member : under d key ∈ staged :=
            (stagedKeys _).mpr ⟨by rw [present]; exact listed, key, start_append d key⟩
          rw [nothing] at member
          cases member
        · exact inPlace
      have idle : Triple (fun s => s = files)
          (moveListed (directoryRestoreStorage host) i (d ++ ['/']) listed staged)
          (fun _ s => s = files) (Recoverable host true plan) := by
        refine Triple.forM (fun _ s => s = files) ?_ listed
        intro key rest
        rw [nothing, if_neg List.not_mem_nil]
        exact Triple.pure fun _ => id
      refine Triple.bind _ idle fun _ => ?_
      refine Triple.pure ?_
      rintro s rfl
      exact ⟨⟨h, inPlace⟩, fun p none => by cases none⟩
    next some =>
      have stagedAll : Staged plan i d files := by
        rcases h.pending.halfway with stagedAll | ⟨gone, -⟩
        · exact stagedAll
        · refine absurd (List.eq_nil_iff_forall_not_mem.mpr fun key member => ?_) some
          obtain ⟨held, rest, rfl⟩ := (stagedKeys key).mp member
          rw [start_append] at held
          exact held (gone rest)
      refine Triple.reads_bind ?_
      rintro s rfl
      have retired := retired_flat host s
      have free : ∀ e ∈ s, dirOf e.1 ≠ Option.some (retiredStart ++ host.randomSuffix s) :=
        fun e he lies => host.randomSuffix_fresh s e he ((start_le_iff retired.2).mpr lies)
      rw [withoutTrailingSlash, withoutTrailingSlash, List.dropLast_concat, List.dropLast_concat]
      refine moveTrees_spec sound staging trees h stagedAll retired free (Triple.pure fun s' moved => ?_)
      refine ⟨moved, fun p same => ?_⟩
      cases same
      exact ⟨_, rfl, retired⟩

structure Clearing (host : Host) (trees : Bool) (plan : Plan) (i d : Key) (start : Files)
    (rest : List Key) (files : Files) : Prop where
  underway : Underway host trees plan i d start files
  inPlace : InPlace plan i files
  rest : ∀ key, lookup files (under i key) ≠ none → plan.contents i key ≠ none ∨ under i key ∈ rest

theorem removeUnlisted_spec (sound : plan.Sound host) (staging : plan.staging i = some d)
    (lists : ∀ key, plan.contents i key ≠ none ↔ key ∈ listed)
    (h : Underway host trees plan i d start files) (inPlace : InPlace plan i files) :
    Triple (fun s => s = files) (removeUnlisted host i listed)
      (fun _ s => Underway host trees plan i d start s ∧ Idle plan i s)
      (Recoverable host trees plan) := by
  obtain ⟨valid, dir⟩ := sound.named i d staging
  have flat := isIndexName_flat valid
  refine Triple.reads_bind ?_
  rintro s rfl
  have listing : ∀ key, key ∈ host.arrange (keysBelow s (i ++ ['/'])) ↔
      lookup s key ≠ none ∧ i ++ ['/'] <+: key := fun key => by
    rw [host.mem_arrange, mem_keysBelow]
  have below : ∀ key ∈ host.arrange (keysBelow s (i ++ ['/'])), ∃ rest, key = under i rest := by
    intro key member
    obtain ⟨rest, rfl⟩ := ((listing key).mp member).2
    exact ⟨rest, start_append i rest⟩
  have first : Clearing host trees plan i d start (host.arrange (keysBelow s (i ++ ['/']))) s :=
    ⟨h, inPlace, fun key present => Or.inr ((listing _).mpr ⟨present, key, start_append i key⟩)⟩
  generalize host.arrange (keysBelow s (i ++ ['/'])) = kept at below first
  have loop : Triple (fun s => (∀ key ∈ kept, ∃ rest, key = under i rest) ∧
        Clearing host trees plan i d start kept s)
      (kept.forM fun key => if key.drop (i.length + 1) ∈ listed then pure () else remove key)
      (fun _ s => (∀ key ∈ ([] : List Key), ∃ rest, key = under i rest) ∧
        Clearing host trees plan i d start [] s) (Recoverable host trees plan) := by
    refine Triple.forM (fun rest s => (∀ key ∈ rest, ∃ k, key = under i k) ∧
      Clearing host trees plan i d start rest s) ?_ kept
    intro key rest
    split
    next known =>
      refine Triple.pure fun s both => ⟨fun k hk => both.1 k (List.mem_cons_of_mem _ hk), ?_⟩
      obtain ⟨k, rfl⟩ := both.1 key (by simp)
      refine ⟨both.2.underway, both.2.inPlace, fun other present => ?_⟩
      rcases both.2.rest other present with listed' | toCome
      · exact Or.inl listed'
      · rcases List.mem_cons.mp toCome with same | later
        · refine Or.inl ((lists other).mpr ?_)
          rw [under_inj same]
          simpa [under] using known
        · exact Or.inr later
    next unlisted =>
      refine Triple.step ?_ fun s both => both.2.underway.recoverable
      rintro s ⟨known, clearing⟩
      obtain ⟨k, rfl⟩ := known key (by simp)
      have absent : plan.contents i k = none := by
        by_contra listed'
        exact unlisted (by simpa [under] using (lists k).mp listed')
      have inIndex : ∀ other, lookup (erase s (under i k)) (under i other)
          = if other = k then none else lookup s (under i other) := fun other => by
        rw [lookup_erase]
        by_cases same : other = k
        · rw [if_pos (by rw [same]), if_pos same]
        · rw [if_neg fun equal => same (under_inj equal), if_neg same]
      have inStaging : ∀ other, lookup (erase s (under i k)) (under d other)
          = lookup s (under d other) := fun other => by
        rw [lookup_erase, if_neg (under_ne flat dir.flat (dir.ne_index valid) other k)]
      have listedIndex : ∀ other, plan.contents i other ≠ none →
          lookup (erase s (under i k)) (under i other) = lookup s (under i other) := by
        intro other listed'
        rw [inIndex, if_neg]
        rintro rfl
        exact listed' absent
      have halfway : Halfway trees plan i d (erase s (under i k)) := by
        have before := clearing.underway.pending.halfway
        cases trees with
        | true =>
          rcases before with stagedAll | ⟨gone, inPlace⟩
          · exact Or.inl fun other listed' => (inStaging other).trans (stagedAll other listed')
          · exact Or.inr ⟨fun other => (inStaging other).trans (gone other), fun other listed' =>
              (listedIndex other listed').trans (inPlace other listed')⟩
        | false =>
          intro other listed'
          rw [inStaging, listedIndex other listed']
          exact before other listed'
      refine ⟨fun other member => known other (List.mem_cons_of_mem _ member),
        clearing.underway.step sound staging (agree_erase_index valid k) halfway,
        fun other listed' => (listedIndex other listed').trans (clearing.inPlace other listed'), ?_⟩
      intro other present
      rw [inIndex] at present
      split at present
      · exact absurd rfl present
      next differs =>
        rcases clearing.rest other present with listed' | toCome
        · exact Or.inl listed'
        · rcases List.mem_cons.mp toCome with same | later
          · exact absurd (under_inj same) differs
          · exact Or.inr later
  refine loop.consequence ?_ ?_ fun _ => id
  · rintro s rfl
    exact ⟨below, first⟩
  · rintro _ s ⟨-, cleared⟩
    refine ⟨cleared.underway, fun key => ?_⟩
    by_cases listed' : plan.contents i key = none
    · rw [listed']
      by_contra present
      exact (cleared.rest key present).elim (fun known => known listed') List.not_mem_nil
    · exact cleared.inPlace key listed'

/-- The journal is gone, and no other has come. -/
def OneLess (host : Host) (i : Key) (start files : Files) : Prop :=
  ∀ key, isTopLevelJournal key = true → lookup files key ≠ none →
    lookup start key ≠ none ∧ key ≠ journalKey host i

theorem finishJournal_spec (sound : plan.Sound host) (staging : plan.staging i = some d)
    (recoverable : Recoverable host trees plan files) (pending : Pending host trees plan i d files) :
    Triple (fun s => s = files) (finishJournal host (storageOf host trees) i (d ++ ['/']))
      (fun retired s => (Recoverable host trees plan s ∧ OneLess host i files s) ∧
        ∀ p, retired = some p → ∃ r, p = r ++ ['/'] ∧ IsRetiredDir r)
      (Recoverable host trees plan) := by
  have h : Underway host trees plan i d files files := ⟨recoverable, pending, Agree.refl i d files⟩
  unfold finishJournal
  refine Triple.bind _ (listedKeys_spec sound staging h _) fun listed => ?_
  refine Triple.reads_bind ?_
  rintro s ⟨rfl, lists⟩
  have stagedKeys : ∀ key, key ∈ host.arrange (keysBelow s (d ++ ['/'])) ↔
      lookup s key ≠ none ∧ d ++ ['/'] <+: key := fun key => by
    rw [host.mem_arrange, mem_keysBelow]
  refine Triple.bind _ (moveStaged_spec sound staging lists stagedKeys h) fun retired => ?_
  have cleared : Triple (fun s' => (Underway host trees plan i d s s' ∧ InPlace plan i s') ∧
        ∀ p, retired = some p → ∃ r, p = r ++ ['/'] ∧ IsRetiredDir r)
      (removeUnlisted host i listed)
      (fun _ s' => (Underway host trees plan i d s s' ∧ Idle plan i s') ∧
        ∀ p, retired = some p → ∃ r, p = r ++ ['/'] ∧ IsRetiredDir r)
      (Recoverable host trees plan) := by
    refine Triple.of_states fun s' moved => ?_
    refine (removeUnlisted_spec sound staging lists moved.1.1 moved.1.2).consequence (fun _ => id) ?_
      fun _ => id
    exact fun _ s'' done => ⟨done, moved.2⟩
  refine Triple.bind _ cleared fun _ => ?_
  refine Triple.bind (fun _ s' => (Recoverable host trees plan s' ∧ OneLess host i s s') ∧
    ∀ p, retired = some p → ∃ r, p = r ++ ['/'] ∧ IsRetiredDir r) ?_ fun _ => Triple.pure fun _ => id
  refine Triple.step ?_ fun s' done => done.1.1.recoverable
  rintro s' ⟨⟨underway, idle⟩, retiredDir⟩
  refine ⟨⟨underway.recoverable.removeJournal sound staging idle, ?_⟩, retiredDir⟩
  intro key top present
  rw [lookup_erase] at present
  split at present
  · exact absurd rfl present
  next other =>
    rw [underway.agree.top (isTopLevelJournal_flat top)] at present
    exact ⟨present, other⟩

end Narsil.Restore
