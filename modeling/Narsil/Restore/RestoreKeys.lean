import Narsil.Restore.RestoreJournal
import Mathlib.Data.List.TakeWhile

/-!
# Where a key lies

A key lies in the directory that its first part names, or at the top. Index
files, staged files, retired files and journals never share a directory.
-/
namespace Narsil.Restore

open Assoc Crash

variable {host : Host} {dir other key start : Key} {files : Files} {indexName : Key} {bytes : Bytes}

/-- The directory that a key lies in; `none` at the top. -/
def dirOf (key : Key) : Option Key :=
  if '/' ∈ key then some (key.takeWhile fun c => c ≠ '/') else none

def under (dir key : Key) : Key := dir ++ '/' :: key

theorem start_append (dir key : Key) : dir ++ ['/'] ++ key = under dir key := by
  simp [under]

private theorem takeWhile_slash (flat : '/' ∉ dir) (key : Key) :
    (dir ++ '/' :: key).takeWhile (fun c => c ≠ '/') = dir := by
  induction dir with
  | nil => simp
  | cons c rest ih =>
    have other : c ≠ '/' := fun same => flat (by simp [same])
    have later : '/' ∉ rest := fun inRest => flat (List.mem_cons_of_mem _ inRest)
    simpa [other] using ih later

theorem dirOf_under (flat : '/' ∉ dir) (key : Key) : dirOf (under dir key) = some dir := by
  have slash : '/' ∈ under dir key := by simp [under]
  rw [dirOf, if_pos slash, under, takeWhile_slash flat]

private theorem takeWhile_dropWhile (slash : '/' ∈ key) :
    ∃ rest, key = key.takeWhile (fun c => c ≠ '/') ++ '/' :: rest := by
  induction key with
  | nil => cases slash
  | cons c rest ih =>
    by_cases same : c = '/'
    · exact ⟨rest, by simp [same]⟩
    · obtain ⟨later, split⟩ := ih ((List.mem_cons.mp slash).resolve_left (Ne.symm same))
      refine ⟨later, ?_⟩
      rw [List.takeWhile_cons_of_pos (by simpa using same), List.cons_append]
      exact congrArg _ split

theorem under_of_dirOf (h : dirOf key = some dir) : ∃ rest, key = under dir rest ∧ '/' ∉ dir := by
  unfold dirOf at h
  split at h
  next slash =>
    cases h
    obtain ⟨rest, split⟩ := takeWhile_dropWhile slash
    refine ⟨rest, split, fun inside => ?_⟩
    have kept := List.mem_takeWhile_imp inside
    simp at kept
  next => cases h

theorem start_le_iff (flat : '/' ∉ dir) : dir ++ ['/'] <+: key ↔ dirOf key = some dir := by
  constructor
  · rintro ⟨rest, rfl⟩
    rw [start_append, dirOf_under flat]
  · intro inside
    obtain ⟨rest, rfl, -⟩ := under_of_dirOf inside
    exact ⟨rest, start_append dir rest⟩

theorem under_inj {a b : Key} (h : under dir a = under dir b) : a = b := by
  simpa [under] using h

theorem mem_keysBelow : key ∈ keysBelow files start ↔ lookup files key ≠ none ∧ start <+: key := by
  rw [keysBelow, List.mem_filter, decide_eq_true_eq, ← Option.isSome_iff_ne_none, lookup_isSome]

private theorem lookup_map_keys (rename : Key → Key) (files : Files) (key source : Key)
    (same : rename source = key)
    (only : ∀ e ∈ files, rename e.1 = key → e.1 = source) :
    lookup (files.map fun e => (rename e.1, e.2)) key = lookup files source := by
  induction files with
  | nil => rfl
  | cons e rest ih =>
    have later := ih fun e' he => only e' (List.mem_cons_of_mem _ he)
    by_cases here : e.1 = source
    · simp [lookup, here, same]
    · have notKey : rename e.1 ≠ key := fun hit => here (only e (by simp) hit)
      simpa [lookup, here, notKey] using later

private def renamedKey (source target key : Key) : Key :=
  if source ++ ['/'] <+: key then target ++ key.drop source.length else key

private theorem renamedKey_under (source target key : Key) :
    renamedKey source target (under source key) = under target key := by
  have below : source ++ ['/'] <+: under source key := ⟨key, start_append source key⟩
  rw [renamedKey, if_pos below, under, List.drop_left]
  rfl

private theorem renamedKey_other {source target : Key} (flat : '/' ∉ source)
    (elsewhere : dirOf key ≠ some source) : renamedKey source target key = key := by
  rw [renamedKey, if_neg fun below => elsewhere ((start_le_iff flat).mp below)]

private theorem renameTree_eq (files : Files) (source target : Key) :
    renameTree files source target = files.map fun e => (renamedKey source target e.1, e.2) := by
  refine List.map_congr_left fun e _ => ?_
  unfold renamedKey
  split <;> rfl

variable {source target : Key}

theorem lookup_renameTree_target (flat : '/' ∉ source) (flat' : '/' ∉ target)
    (free : ∀ e ∈ files, dirOf e.1 ≠ some target) (key : Key) :
    lookup (renameTree files source target) (under target key) = lookup files (under source key) := by
  rw [renameTree_eq]
  refine lookup_map_keys _ _ _ _ (renamedKey_under source target key) fun e he hit => ?_
  by_cases below : dirOf e.1 = some source
  · obtain ⟨rest, split, -⟩ := under_of_dirOf below
    rw [split, renamedKey_under] at hit
    rw [split, under_inj hit]
  · rw [renamedKey_other flat below] at hit
    exact absurd (by rw [hit, dirOf_under flat']) (free e he)

theorem lookup_renameTree_source (flat : '/' ∉ source) (flat' : '/' ∉ target)
    (apart : source ≠ target) (key : Key) :
    lookup (renameTree files source target) (under source key) = none := by
  rw [renameTree_eq, lookup_eq_none]
  rintro held
  obtain ⟨e', he', hit⟩ := List.mem_map.mp held
  obtain ⟨e, he, rfl⟩ := List.mem_map.mp he'
  by_cases below : dirOf e.1 = some source
  · obtain ⟨rest, split, -⟩ := under_of_dirOf below
    have moved : dirOf (renamedKey source target e.1) = some target := by
      rw [split, renamedKey_under, dirOf_under flat']
    have stayed : dirOf (renamedKey source target e.1) = some source := by
      rw [show renamedKey source target e.1 = under source key from hit, dirOf_under flat]
    exact apart (Option.some.inj (stayed.symm.trans moved))
  · have hit : renamedKey source target e.1 = under source key := hit
    rw [renamedKey_other flat below] at hit
    exact below (by rw [hit, dirOf_under flat])

theorem lookup_renameTree_other (flat : '/' ∉ source) (flat' : '/' ∉ target)
    (notSource : dirOf key ≠ some source) (notTarget : dirOf key ≠ some target) :
    lookup (renameTree files source target) key = lookup files key := by
  rw [renameTree_eq]
  refine lookup_map_keys _ _ _ _ (renamedKey_other flat notSource) fun e he hit => ?_
  by_cases below : dirOf e.1 = some source
  · obtain ⟨rest, split, -⟩ := under_of_dirOf below
    rw [split, renamedKey_under] at hit
    exact absurd (by rw [← hit, dirOf_under flat']) notTarget
  · rwa [renamedKey_other flat below] at hit

theorem renameTree_empty (nothing : keysBelow files (source ++ ['/']) = []) (target : Key) :
    renameTree files source target = files := by
  have same : ∀ e ∈ files, (if source ++ ['/'] <+: e.1 then (target ++ e.1.drop source.length, e.2)
      else e) = e := by
    intro e he
    refine if_neg fun below => ?_
    have member : e.1 ∈ keysBelow files (source ++ ['/']) :=
      List.mem_filter.mpr ⟨List.mem_map_of_mem he, by simpa using below⟩
    rw [nothing] at member
    cases member
  exact (List.map_congr_left same).trans (List.map_id' files)

private theorem isNameChar_ascii {c : Char} (h : isNameChar c = true) : c.toNat < 128 := by
  have known : c.isAlphanum = true ∨ c = '.' ∨ c = '_' ∨ c = '-' := by
    simpa [isNameChar, or_assoc] using h
  rcases known with alphanumeric | rfl | rfl | rfl
  · have sorts : ((decide (c.val ≥ 'A'.val ∧ c.val ≤ 'Z'.val) || (c.val ≥ 'a'.val && c.val ≤ 'z'.val)) ||
        (c.val ≥ '0'.val && c.val ≤ '9'.val)) = true := alphanumeric
    simp only [Bool.or_eq_true, Bool.and_eq_true, decide_eq_true_eq] at sorts
    have bound : c.val ≤ 'z'.val := by
      rcases sorts with (⟨-, upper⟩ | ⟨-, lower⟩) | ⟨-, digit⟩
      · exact UInt32.le_trans upper (by decide)
      · exact lower
      · exact UInt32.le_trans digit (by decide)
    have bound : c.toNat ≤ 'z'.toNat := bound
    have z : 'z'.toNat = 122 := rfl
    omega
  · decide
  · decide
  · decide

private theorem isNameChar_flat {c : Char} (h : isNameChar c = true) : c ≠ '/' ∧ c ≠ '\n' := by
  constructor
  · rintro rfl
    exact absurd h (by decide)
  · rintro rfl
    exact absurd h (by decide)

theorem isIndexName_chars (valid : isIndexName indexName = true) :
    ∀ c ∈ indexName, isNameChar c = true := by
  unfold isIndexName at valid
  cases indexName with
  | nil => simp
  | cons first rest =>
    simp only [Bool.and_eq_true, List.all_eq_true] at valid
    obtain ⟨-, first', rest'⟩ := valid
    intro c member
    rcases List.mem_cons.mp member with rfl | later
    · simp [isNameChar, first']
    · exact rest' c later

theorem isIndexName_flat (valid : isIndexName indexName = true) : '/' ∉ indexName :=
  fun slash => (isNameChar_flat (isIndexName_chars valid _ slash)).1 rfl

theorem isIndexName_head (valid : isIndexName indexName = true) (rest : Key) :
    indexName ≠ '.' :: rest := by
  rintro rfl
  simp [isIndexName] at valid

private theorem digitChar_plain : ∀ n < 16, Nat.digitChar n ≠ '.' ∧ Nat.digitChar n ≠ '/' := by
  decide

theorem digestOf_plain {c : Char} (h : c ∈ digestOf host indexName) : c ≠ '.' ∧ c ≠ '/' := by
  unfold digestOf at h
  obtain ⟨byte, -, digit⟩ := List.mem_flatMap.mp h
  have bound := byte.toNat_lt
  rcases List.mem_cons.mp digit with rfl | digit
  · exact digitChar_plain _ (by omega)
  · rw [List.mem_singleton.mp digit]
    exact digitChar_plain _ (by omega)

theorem journalKey_flat : '/' ∉ journalKey host indexName := by
  intro slash
  rcases List.mem_append.mp slash with start | digest
  · exact absurd start (by decide)
  · exact (digestOf_plain digest).2 rfl

theorem isTopLevelJournal_journalKey : isTopLevelJournal (journalKey host indexName) = true := by
  rw [isTopLevelJournal, Bool.and_eq_true, decide_eq_true_eq, decide_eq_true_eq]
  exact ⟨List.prefix_append _ _, journalKey_flat⟩

theorem readJournal_tempName (indexName : Key) (bytes : Bytes) :
    readJournal host (tempName host (journalKey host indexName)) bytes = .ok .leftover := by
  unfold readJournal
  simp only
  refine if_pos fun same => ?_
  have dot : '.' ∈ (tempName host (journalKey host indexName)).drop journalPrefix.length := by
    rw [tempName, journalKey, List.append_assoc, List.append_assoc, List.drop_left]
    simp
  rw [same] at dot
  exact (digestOf_plain dot).1 rfl

theorem isTopLevelJournal_tempName :
    isTopLevelJournal (tempName host (journalKey host indexName)) = true := by
  rw [isTopLevelJournal, Bool.and_eq_true, decide_eq_true_eq, decide_eq_true_eq]
  constructor
  · rw [tempName, journalKey, List.append_assoc, List.append_assoc]
    exact List.prefix_append _ _
  · intro slash
    rcases List.mem_append.mp slash with start | suffix
    · rcases List.mem_append.mp start with key | dot
      · exact journalKey_flat key
      · exact absurd dot (by decide)
    · exact host.tempSuffix_flat suffix

/-- The directory of a staging prefix. -/
structure IsStagingDir (dir : Key) : Prop where
  valid : isStagingPrefix (dir ++ ['/']) = true
  start : stagingStart <+: dir

theorem isStagingPrefix_chars (h : isStagingPrefix (dir ++ ['/']) = true) :
    (∀ c ∈ dir, isNameChar c = true) ∧ ∃ rest, dir = '.' :: rest := by
  unfold isStagingPrefix at h
  match dir with
  | [] => simp at h
  | [dot] => simp at h
  | dot :: first :: rest =>
    have whole : (dot :: first :: rest) ++ ['/'] = dot :: first :: (rest ++ ['/']) := rfl
    rw [whole] at h
    simp only [Bool.and_eq_true, decide_eq_true_eq, List.dropLast_concat, List.all_eq_true] at h
    obtain ⟨-, ⟨⟨rfl, first'⟩, -⟩, rest'⟩ := h
    refine ⟨fun c member => ?_, _, rfl⟩
    rcases List.mem_cons.mp member with rfl | later
    · decide
    · rcases List.mem_cons.mp later with rfl | later
      · simp [isNameChar, first']
      · exact rest' c later

theorem isStagingPrefix_flat (h : isStagingPrefix (dir ++ ['/']) = true) : '/' ∉ dir :=
  fun slash => (isNameChar_flat ((isStagingPrefix_chars h).1 _ slash)).1 rfl

theorem readJournal_encodeJournal (valid : isIndexName indexName = true) (staging : IsStagingDir dir) :
    readJournal host (journalKey host indexName) (encodeJournal host indexName (dir ++ ['/']))
      = .ok (.journal indexName (dir ++ ['/'])) := by
  have ascii : ∀ c ∈ indexName ++ '\n' :: (dir ++ ['/']), c.toNat < 128 := by
    intro c member
    rcases List.mem_append.mp member with name | rest
    · exact isNameChar_ascii (isIndexName_chars valid c name)
    · rcases List.mem_cons.mp rest with rfl | rest
      · decide
      · rcases List.mem_append.mp rest with name | slash
        · exact isNameChar_ascii ((isStagingPrefix_chars staging.valid).1 c name)
        · rw [List.mem_singleton.mp slash]
          decide
  have line : ∀ c ∈ indexName, (fun c => decide (c ≠ '\n')) c = true := fun c member => by
    simpa using (isNameChar_flat (isIndexName_chars valid c member)).2
  have name : (indexName ++ '\n' :: (dir ++ ['/'])).takeWhile (fun c => c ≠ '\n') = indexName := by
    rw [List.takeWhile_append_of_pos line]
    simp
  have lock : dir ++ ['/'] ≠ lockFileKey ++ ['/'] := by
    intro same
    obtain ⟨rest, rfl⟩ := staging.start
    simp [stagingStart, lockFileKey] at same
  unfold readJournal encodeJournal
  rw [host.decode_ascii _ ascii]
  simp only [name]
  have own : (journalKey host indexName).drop journalPrefix.length = digestOf host indexName :=
    List.drop_left
  have rest : (indexName ++ '\n' :: (dir ++ ['/'])).drop (indexName.length + 1) = dir ++ ['/'] := by
    simp [List.drop_append]
  simp [own, valid, staging.valid, lock, rest]

end Narsil.Restore
