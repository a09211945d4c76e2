import Narsil.Durability.WalDurability
import Narsil.Replication.LogRuns

/-!
# Which copies may catch up from the log

An incremental sync is offered only to a copy whose position the log knows under
the same term and from whose position on it holds every entry.
-/
namespace Narsil.Replication

open ReplicationLog

variable {r : LogRun}

namespace LogRun.Inv

theorem number_at (inv : r.Inv) {i : Nat} {entry : ReplicationLogEntry}
    (here : r.history[i]? = some entry) : entry.seqNo = r.seededAt + 1 + i := by
  have number : (r.history.map ReplicationLogEntry.seqNo)[i]? = some entry.seqNo := by
    rw [List.getElem?_map, here]
    rfl
  rw [inv.numbered] at number
  obtain ⟨within, same⟩ := List.getElem?_eq_some_iff.mp number
  rw [← same, List.getElem_range']
  omega

theorem find_number (inv : r.Inv) {i : Nat} {entry : ReplicationLogEntry}
    (here : r.history[i]? = some entry) :
    (r.history.find? fun other => decide (other.seqNo = r.seededAt + 1 + i)) = some entry := by
  obtain ⟨within, same⟩ := List.getElem?_eq_some_iff.mp here
  rw [List.find?_eq_some_iff_getElem]
  refine ⟨by simpa using inv.number_at here, i, within, same, ?_⟩
  intro j earlier
  have other := inv.number_at (List.getElem?_eq_getElem (Nat.lt_trans earlier within))
  simp only [Bool.not_eq_eq_eq_not, Bool.not_true, decide_eq_false_iff_not]
  omega

theorem termOf_position (inv : r.Inv) (k : Nat) (within : k ≤ r.history.length) :
    r.termOf (r.seededAt + k) = some (lastTerm r.seededTerm (r.history.take k)) := by
  cases k with
  | zero => simp [LogRun.termOf, lastTerm]
  | succ i =>
    have here : r.history[i]? = some r.history[i] := List.getElem?_eq_getElem within
    have found := inv.find_number here
    rw [LogRun.termOf, if_neg (by omega), show r.seededAt + (i + 1) = r.seededAt + 1 + i by omega,
      found, List.take_add_one, here, Option.toList_some, lastTerm_append]
    rfl

theorem getEntriesFrom_run (inv : r.Inv) {gone : List ReplicationLogEntry}
    (split : r.history = gone ++ r.log.live) (k : Nat) (held : gone.length ≤ k)
    (within : k ≤ r.history.length) :
    r.log.getEntriesFrom (r.seededAt + k + 1) = r.history.drop k ∧
      (r.history.drop k).map ReplicationLogEntry.seqNo
        = List.range' (r.seededAt + k + 1) (r.log.localLogEnd - (r.seededAt + k)) := by
  constructor
  · rw [getEntriesFrom_eq inv.ascending_live inv.head]
    have behind : r.history.drop k = r.log.live.drop (k - gone.length) := by
      rw [split, List.drop_append, List.drop_eq_nil_of_le held, List.nil_append]
    rw [behind, drop_eq_filter fun entry => decide (entry.seqNo < r.seededAt + k + 1)]
    · apply List.filter_congr
      intro entry _
      by_cases less : entry.seqNo < r.seededAt + k + 1
      · rw [decide_eq_true less, decide_eq_false (Nat.not_le.mpr less)]
        rfl
      · rw [decide_eq_false less, decide_eq_true (Nat.not_lt.mp less)]
        rfl
    · intro i entry here
      have inHistory : r.history[gone.length + i]? = some entry := by
        rw [split, List.getElem?_append_right (by omega), Nat.add_sub_cancel_left, here]
      have number := inv.number_at inHistory
      simp only [decide_eq_true_eq]
      omega
  · rw [List.map_drop, inv.numbered, List.drop_range']
    have ended := inv.localLogEnd
    congr 1
    · omega
    · omega

theorem position_of_live (inv : r.Inv) {gone : List ReplicationLogEntry}
    (split : r.history = gone ++ r.log.live) {entry : ReplicationLogEntry} {i : Nat}
    (here : r.log.live[i]? = some entry) :
    entry.seqNo = r.seededAt + 1 + gone.length + i ∧ gone.length + i < r.history.length ∧
      lastTerm r.seededTerm (r.history.take (gone.length + i + 1)) = entry.primaryTerm := by
  have inHistory : r.history[gone.length + i]? = some entry := by
    rw [split, List.getElem?_append_right (by omega), Nat.add_sub_cancel_left, here]
  refine ⟨by have := inv.number_at inHistory; omega, ?_, ?_⟩
  · exact (List.getElem?_eq_some_iff.mp inHistory).1
  · rw [List.take_add_one, inHistory, Option.toList_some, lastTerm_append]

theorem termAt_sound (inv : r.Inv) {gone : List ReplicationLogEntry}
    (split : r.history = gone ++ r.log.live) {seqNo primaryTerm : Nat}
    (known : r.log.termAt seqNo = some primaryTerm) :
    ∃ k, seqNo = r.seededAt + k ∧ gone.length ≤ k ∧ k ≤ r.history.length ∧
      lastTerm r.seededTerm (r.history.take k) = primaryTerm := by
  have total := congrArg List.length split
  rw [List.length_append] at total
  rw [termAt, readEntry_eq inv.ascending_live inv.head] at known
  cases found : r.log.live.find? fun entry => decide (entry.seqNo = seqNo) with
  | some entry =>
    rw [found] at known
    cases known
    obtain ⟨same, i, within, here, -⟩ := List.find?_eq_some_iff_getElem.mp found
    obtain ⟨number, inside, term⟩ := inv.position_of_live split
      (List.getElem?_eq_some_iff.mpr ⟨within, here⟩)
    simp only [decide_eq_true_eq] at same
    exact ⟨gone.length + i + 1, by omega, by omega, by omega, term⟩
  | none =>
    rw [found] at known
    simp only at known
    split at known
    next atEnd =>
      cases known
      refine ⟨r.history.length, atEnd.trans inv.localLogEnd, by omega, Nat.le_refl _, ?_⟩
      rw [List.take_length, inv.endTerm]
    next notEnd =>
      split at known
      next atSeed =>
        cases known
        have front : r.history.take r.before.length = r.before := by
          rw [LogRun.history, List.take_left]
        have inside : r.before.length ≤ r.history.length := by
          rw [LogRun.history, List.length_append]
          omega
        refine ⟨r.before.length, atSeed.1.trans inv.seedSeqNo, ?_, inside, ?_⟩
        · -- Either nothing was taken since the seed, or its first entry is still held.
          rcases atSeed.2 with empty | first
          · have nothing := inv.newest (liveCount_eq_zero.mp empty)
            have ended := inv.localLogEnd
            have seeded := inv.seedSeqNo
            rw [LogRun.history, nothing, List.append_nil] at ended
            omega
          · rw [head_eq, List.head?_eq_getElem?] at first
            cases here : r.log.live[0]? with
            | none => rw [here] at first; cases first
            | some entry =>
              rw [here] at first
              have number := (inv.position_of_live split here).1
              have seeded := inv.seedSeqNo
              have same : entry.seqNo = r.log.seedSeqNo + 1 := Option.some.inj first
              omega
        · rw [front, inv.seedTerm]
      next => cases known

end LogRun.Inv

theorem decideSyncTier_sound (codec : EntryCodec)
    (partitionId retentionBytes seqNo primaryTerm : Nat) (calls : List LogCall) (r : LogRun)
    (reached : Transition.run (nextLog codec) (.seeded partitionId retentionBytes seqNo primaryTerm)
      calls = some r)
    (replicaLastSeqNo replicaLastPrimaryTerm : Nat)
    (offered : decideSyncTier r.log replicaLastSeqNo replicaLastPrimaryTerm = .incremental) :
    (replicaLastSeqNo = 0 ∨ r.termOf replicaLastSeqNo = some replicaLastPrimaryTerm) ∧
    r.log.getEntriesFrom (replicaLastSeqNo + 1)
      = r.history.filter (fun entry => decide (replicaLastSeqNo < entry.seqNo)) ∧
    (r.log.getEntriesFrom (replicaLastSeqNo + 1)).map ReplicationLogEntry.seqNo
      = List.range' (replicaLastSeqNo + 1) (r.log.localLogEnd - replicaLastSeqNo) := by
  have inv := LogRun.Inv.run reached
  obtain ⟨gone, split⟩ := inv.live_suffix
  have split := split.symm
  -- From a position that nothing behind is gone from, the entries are the run to the end.
  have holds : ∀ k, replicaLastSeqNo = r.seededAt + k → gone.length ≤ k → k ≤ r.history.length →
      r.log.getEntriesFrom (replicaLastSeqNo + 1)
        = r.history.filter (fun entry => decide (replicaLastSeqNo < entry.seqNo)) ∧
      (r.log.getEntriesFrom (replicaLastSeqNo + 1)).map ReplicationLogEntry.seqNo
        = List.range' (replicaLastSeqNo + 1) (r.log.localLogEnd - replicaLastSeqNo) := by
    intro k position held within
    obtain ⟨entries, numbers⟩ := inv.getEntriesFrom_run split k held within
    subst position
    refine ⟨?_, by rw [entries]; exact numbers⟩
    rw [entries, drop_eq_filter fun entry => decide (entry.seqNo ≤ r.seededAt + k)]
    · apply List.filter_congr
      intro entry _
      by_cases less : entry.seqNo ≤ r.seededAt + k
      · simp [less]
      · simp [less, Nat.not_le.mp less]
    · intro i entry here
      have := inv.number_at here
      simp only [decide_eq_true_eq]
      omega
  rw [decideSyncTier] at offered
  split at offered
  next start =>
    refine ⟨.inl start, ?_⟩
    split at offered
    next fromStart =>
      rcases fromStart with empty | oldest
      · have ended := inv.localLogEnd
        have total := congrArg List.length split
        rw [List.length_append] at total
        exact holds 0 (by omega) (by omega) (Nat.zero_le _)
      · rw [oldestSeqNo] at oldest
        split at oldest
        · cases oldest
        · rw [head_eq, List.head?_eq_getElem?] at oldest
          cases here : r.log.live[0]? with
          | none => rw [here] at oldest; cases oldest
          | some entry =>
            rw [here] at oldest
            have number := (inv.position_of_live split here).1
            have first : entry.seqNo = 1 := Option.some.inj oldest
            exact holds 0 (by omega) (by omega) (Nat.zero_le _)
    next => cases offered
  next =>
    split at offered
    next known =>
      obtain ⟨k, position, held, within, term⟩ := inv.termAt_sound split known
      refine ⟨.inr ?_, holds k position held within⟩
      rw [position, inv.termOf_position k within, term]
    next => cases offered

/-- Three removals in a log that holds two of them: a copy that has the first two catches
up from the log. -/
theorem decideSyncTier_sound_evicted :
    ∃ r, Transition.run (nextLog Durability.sampleCodec) (.seeded 0 100 0 0)
        (List.replicate 3 (.append ⟨1, .delete, "i", "d", none⟩)) = some r ∧
      r.log.liveCount = 2 ∧ r.termOf 2 = some 1 ∧
      (r.log.getEntriesFrom 3).map ReplicationLogEntry.seqNo = [3] := by
  refine ⟨_, rfl, by decide, ?_⟩
  obtain ⟨term, -, numbers⟩ := decideSyncTier_sound Durability.sampleCodec 0 100 0 0
    (List.replicate 3 (.append ⟨1, .delete, "i", "d", none⟩)) _ rfl 2 1 (by decide)
  refine ⟨term.resolve_left (by decide), ?_⟩
  rw [numbers]
  decide

end Narsil.Replication
