import Narsil.Replication.ContinuingEntries

/-!
# What the loop over a batch collects

The run the loop collects is the entries that continue the log, and the log is
replaced exactly where the batch begins an empty one anew.
-/
namespace Narsil.Replication

open ReplicationLog

variable {codec : EntryCodec} {isBootstrapSynced : Bool} {walk : Walk} {entry : ReplicationLogEntry}
  {entries rest : List ReplicationLogEntry}

namespace Walk

theorem termConflict_none (agree : termsAgree walk.expectedPreviousTerm walk.heldTermBefore = true) :
    walk.termConflict entry = none := by
  rw [termConflict]
  split
  next expected held isExpected isHeld =>
    rw [isExpected, isHeld] at agree
    rw [if_neg]
    rintro ⟨-, differ⟩
    exact differ (by simpa [termsAgree] using agree)
  next => rfl

theorem termConflict_some (number : entry.seqNo = walk.tailSeqNo + 1)
    (differ : termsAgree walk.expectedPreviousTerm walk.heldTermBefore = false) :
    ∃ terms, walk.termConflict entry = some terms := by
  rw [termConflict]
  split
  next expected held isExpected isHeld =>
    rw [isExpected, isHeld] at differ
    rw [if_pos ⟨number, by simpa [termsAgree] using differ⟩]
    exact ⟨_, rfl⟩
  next unknown =>
    exfalso
    cases isExpected : walk.expectedPreviousTerm with
    | none => rw [isExpected] at differ; cases differ
    | some expected =>
      cases isHeld : walk.heldTermBefore with
      | none => rw [isExpected, isHeld] at differ; cases differ
      | some held => exact unknown expected held isExpected isHeld

theorem termConflict_elsewhere (number : entry.seqNo ≠ walk.tailSeqNo + 1) :
    walk.termConflict entry = none := by
  rw [termConflict]
  split
  · rw [if_neg fun both => number both.1]
  · rfl

theorem push_checked (checked : verifyEntryChecksum codec entry = true ∧
    walk.tailPrimaryTerm ≤ entry.primaryTerm) :
    walk.push codec entry = ({ walk with run := walk.run ++ [entry], tailSeqNo := entry.seqNo,
                                         tailPrimaryTerm := entry.primaryTerm,
                                         expectedPreviousTerm := some entry.primaryTerm }, none) := by
  rw [push, validateReplicationEntry, if_neg (by simp [checked.1]), if_neg (Nat.not_lt.mpr checked.2)]

theorem push_unchecked (unchecked : ¬ (verifyEntryChecksum codec entry = true ∧
    walk.tailPrimaryTerm ≤ entry.primaryTerm)) :
    ∃ error, walk.push codec entry = (walk, some error) := by
  rw [push, validateReplicationEntry]
  by_cases verified : verifyEntryChecksum codec entry = true
  · have falls : entry.primaryTerm < walk.tailPrimaryTerm := by
      by_contra rises
      exact unchecked ⟨verified, Nat.not_lt.mp rises⟩
    rw [if_neg (by simp [verified]), if_pos falls]
    exact ⟨_, rfl⟩
  · rw [if_pos verified]
    exact ⟨_, rfl⟩

theorem termsAgree_pushed (run : List ReplicationLogEntry) (log : ReplicationLog) (seqNo term : Nat) :
    termsAgree (some entry.primaryTerm)
      (heldTermBefore ⟨log, seqNo, term, some entry.primaryTerm, run ++ [entry]⟩) = true := by
  simp [heldTermBefore, termsAgree]

/-- Entries numbered on from the tail that the log does not hold: the checked ones are
collected, and the log stays. -/
theorem collect_numbered (numbered : NumberedFrom (walk.tailSeqNo + 1) entries)
    (unheld : ∀ entry ∈ entries, walk.log.getEntry entry.seqNo = none)
    (agree : termsAgree walk.expectedPreviousTerm walk.heldTermBefore = true) :
    (walk.collect codec isBootstrapSynced entries).1.run
        = walk.run ++ checkedFrom codec walk.tailPrimaryTerm entries ∧
      (walk.collect codec isBootstrapSynced entries).1.log = walk.log := by
  induction entries generalizing walk with
  | nil => simp [collect, checkedFrom]
  | cons entry rest ih =>
    obtain ⟨number, numberedRest⟩ := numberedFrom_cons.mp numbered
    have taken : walk.take codec isBootstrapSynced entry = walk.push codec entry := by
      rw [take, unheld entry List.mem_cons_self, termConflict_none agree]
      simp only [number, ne_eq, not_true_eq_false, if_false]
    rw [collect, taken, checkedFrom]
    by_cases checked : verifyEntryChecksum codec entry = true ∧
      walk.tailPrimaryTerm ≤ entry.primaryTerm
    · rw [push_checked checked, if_pos checked]
      have later := @ih { walk with run := walk.run ++ [entry], tailSeqNo := entry.seqNo,
                                      tailPrimaryTerm := entry.primaryTerm,
                                      expectedPreviousTerm := some entry.primaryTerm }
        (by simpa [number] using numberedRest)
        (fun other isIn => unheld other (List.mem_cons_of_mem _ isIn))
        (termsAgree_pushed walk.run walk.log _ _)
      simpa using later
    · obtain ⟨error, stopped⟩ := push_unchecked checked
      rw [stopped, if_neg checked]
      exact ⟨by simp, rfl⟩

theorem collect_continuing {seqNo : Nat} (atEnd : walk.tailSeqNo = walk.log.localLogEnd)
    (endTerm : walk.tailPrimaryTerm = walk.log.localLogEndPrimaryTerm) (empty : walk.run = [])
    (past : ∀ number, walk.log.localLogEnd < number → walk.log.getEntry number = none)
    (numbered : NumberedFrom seqNo entries)
    (noSeed : seqNo ≤ walk.log.localLogEnd + 1 ∨ walk.log.entryCount ≠ 0 ∨ isBootstrapSynced = false) :
    (walk.collect codec isBootstrapSynced entries).1.run
        = continuing codec walk.log walk.expectedPreviousTerm entries ∧
      (walk.collect codec isBootstrapSynced entries).1.log = walk.log := by
  induction entries generalizing walk seqNo with
  | nil => exact ⟨empty, rfl⟩
  | cons entry rest ih =>
    obtain ⟨number, numberedRest⟩ := numberedFrom_cons.mp numbered
    have cannotSeed : walk.canSeedFromCompletedBootstrap isBootstrapSynced entry = false := by
      rw [canSeedFromCompletedBootstrap, decide_eq_false_iff_not]
      rintro ⟨-, none_, after, synced⟩
      rcases noSeed with within | some_ | unsynced
      · omega
      · exact some_ none_
      · rw [synced] at unsynced
        cases unsynced
    have newest : newestTerm walk.log = walk.heldTermBefore := by
      rw [newestTerm, heldTermBefore, empty, atEnd]
      rfl
    rw [continuing]
    by_cases old : entry.seqNo ≤ walk.log.localLogEnd
    · rw [if_pos old, holdsSame, collect, take]
      cases held : walk.log.getEntry entry.seqNo with
      | some existing =>
        simp only
        by_cases same : existing.checksum = entry.checksum
        · simp only [same, ne_eq, not_true_eq_false, if_false, beq_self_eq_true, if_true]
          apply @ih { walk with expectedPreviousTerm := some entry.primaryTerm } _ atEnd endTerm
            empty past numberedRest
          rcases noSeed with within | others
          · exact .inl (by simp only; omega)
          · exact .inr others
        · rw [if_pos same]
          simp only [beq_eq_false_iff_ne.mpr same, Bool.false_eq_true, if_false]
          exact ⟨empty, trivial⟩
      | none =>
        -- An entry the log has let go: its number is behind the end.
        rw [termConflict_elsewhere (by omega)]
        simp only
        rw [if_pos (by omega), cannotSeed]
        exact ⟨empty, rfl⟩
    · rw [if_neg old]
      have unheld : ∀ other ∈ entry :: rest, walk.log.getEntry other.seqNo = none := by
        intro other isIn
        exact past other.seqNo (by have := numbered.le isIn; omega)
      by_cases next : entry.seqNo = walk.log.localLogEnd + 1
      · by_cases agree : termsAgree walk.expectedPreviousTerm (newestTerm walk.log) = true
        · rw [if_pos ⟨next, agree⟩]
          have run := @collect_numbered codec isBootstrapSynced walk (entry :: rest)
            (by rw [atEnd, ← next, number]; exact numbered) unheld (newest ▸ agree)
          rwa [empty, List.nil_append, endTerm] at run
        · rw [if_neg fun both => agree both.2, collect, take, unheld entry List.mem_cons_self]
          obtain ⟨terms, conflict⟩ := @termConflict_some walk entry
            (by rw [atEnd, next]) (by rw [← newest]; simpa using agree)
          rw [conflict]
          exact ⟨empty, rfl⟩
      · rw [if_neg fun both => next both.1, collect, take, unheld entry List.mem_cons_self,
          termConflict_elsewhere (by rw [atEnd]; exact next)]
        simp only
        rw [if_pos (by rw [atEnd]; exact next), cannotSeed]
        exact ⟨empty, rfl⟩

end Walk

theorem collect_spec {r : LogRun} (inv : r.Inv) (previousTerm : Option Nat)
    (batch : contiguous entries = true) :
    (Walk.collect codec isBootstrapSynced ⟨r.log, r.log.localLogEnd, r.log.localLogEndPrimaryTerm,
        previousTerm, []⟩ entries).1.run
        = newEntries codec isBootstrapSynced r.log previousTerm entries ∧
      (Walk.collect codec isBootstrapSynced ⟨r.log, r.log.localLogEnd, r.log.localLogEndPrimaryTerm,
        previousTerm, []⟩ entries).1.log = seededLog isBootstrapSynced r.log entries := by
  cases entries with
  | nil => exact ⟨rfl, rfl⟩
  | cons entry rest =>
    have numbered := numberedFrom_of_contiguous batch
    rw [newEntries, seededLog]
    by_cases seeds : seedsLog isBootstrapSynced r.log (entry :: rest) = true
    · rw [if_pos seeds, if_pos seeds]
      simp only [seedsLog, Bool.and_eq_true, beq_iff_eq, decide_eq_true_eq] at seeds
      obtain ⟨⟨synced, none_⟩, after⟩ := seeds
      -- The first entry resets the log, and the others number on from it.
      have taken : Walk.take codec isBootstrapSynced ⟨r.log, r.log.localLogEnd,
          r.log.localLogEndPrimaryTerm, previousTerm, []⟩ entry
          = Walk.push codec ⟨resetReplicationLog r.log entry.seqNo entry.primaryTerm,
            r.log.localLogEnd, entry.primaryTerm, previousTerm, []⟩ entry := by
        rw [Walk.take, getEntry_empty none_, Walk.termConflict_elsewhere (by simp only; omega)]
        simp only
        rw [if_pos (by omega), if_pos]
        · rfl
        · simp only [Walk.canSeedFromCompletedBootstrap, decide_eq_true_eq]
          exact ⟨rfl, none_, after, synced⟩
      rw [Walk.collect, taken, checkedFrom]
      by_cases checked : verifyEntryChecksum codec entry = true ∧ entry.primaryTerm ≤ entry.primaryTerm
      · rw [Walk.push_checked checked, if_pos checked]
        have later := @Walk.collect_numbered codec isBootstrapSynced
          ⟨resetReplicationLog r.log entry.seqNo entry.primaryTerm, entry.seqNo,
            entry.primaryTerm, some entry.primaryTerm, [entry]⟩ rest
          (numberedFrom_cons.mp numbered).2 (fun _ _ => getEntry_empty rfl)
          (Walk.termsAgree_pushed [] _ _ _)
        simpa using later
      · obtain ⟨error, stopped⟩ := @Walk.push_unchecked codec
          ⟨resetReplicationLog r.log entry.seqNo entry.primaryTerm, r.log.localLogEnd,
            entry.primaryTerm, previousTerm, []⟩ entry checked
        rw [stopped, if_neg checked]
        exact ⟨rfl, rfl⟩
    · rw [if_neg seeds, if_neg seeds]
      apply Walk.collect_continuing rfl rfl rfl (fun _ past => getEntry_past inv past) numbered
      simp only [seedsLog, Bool.and_eq_true, beq_iff_eq, decide_eq_true_eq] at seeds
      by_cases synced : isBootstrapSynced = true
      · by_cases none_ : r.log.entryCount = 0
        · exact .inl (Nat.not_lt.mp fun after => seeds ⟨⟨synced, none_⟩, after⟩)
        · exact .inr (.inl none_)
      · exact .inr (.inr (by simpa using synced))

end Narsil.Replication
