import Mathlib.Data.List.Nodup
import Narsil.Durability.WalDurability
import Narsil.Fitting.Suffix
import Narsil.Replication.LogRuns

/-!
# What a replication log forgets

Storing an entry forgets the oldest entries, and no more of them than the retention asks for.
-/
namespace Narsil.Replication

open ReplicationLog Fitting

variable {codec : EntryCodec}

namespace ReplicationLog

variable {log : ReplicationLog} {entry : ReplicationLogEntry}

@[simp] theorem live_compact (log : ReplicationLog) : log.compact.live = log.live := by
  rw [compact]
  split
  · exact List.drop_zero
  · rfl

theorem live_evictOldEntries (log : ReplicationLog) :
    log.evictOldEntries.live = (log.evictWhileOver log.liveCount).live := by
  rw [evictOldEntries]
  split
  · exact live_compact _
  · rfl

theorem evictWhileOver_longest (turns : Nat) (enough : log.live.length ≤ turns)
    (sized : log.totalSizeBytes = (log.live.map entrySize).sum) :
    Longest entrySize log.retentionBytes log.live (log.evictWhileOver turns).live := by
  induction turns generalizing log with
  | zero =>
    rw [evictWhileOver, List.length_eq_zero_iff.mp (Nat.le_zero.mp enough)]
    exact .whole (Nat.zero_le _)
  | succ turns ih =>
    rw [evictWhileOver, head_eq]
    cases lives : log.live with
    | nil =>
      simp only [List.head?_nil]
      rw [lives]
      exact .whole (Nat.zero_le _)
    | cons oldest rest =>
      simp only [List.head?_cons]
      by_cases exceeded : log.totalSizeBytes > log.retentionBytes
      · rw [if_pos exceeded]
        have next : ({ log with totalSizeBytes := log.totalSizeBytes - entrySize oldest
                                headIndex := log.headIndex + 1 } : ReplicationLog).live = rest := by
          simp only [live]
          rw [← List.drop_drop, ← live, lives]
          rfl
        have remaining := @ih { log with totalSizeBytes := log.totalSizeBytes - entrySize oldest
                                         headIndex := log.headIndex + 1 }
          (by rw [next]; rw [lives, List.length_cons] at enough; omega)
          (by rw [next]; simp [sized, lives])
        rw [next] at remaining
        refine .forget ?_ remaining
        rw [← lives, ← sized]
        exact exceeded
      · rw [if_neg exceeded, lives]
        refine .whole ?_
        rw [← lives, ← sized]
        exact Nat.not_lt.mp exceeded

/-- What is stored stays as long as it fits with everything after it. -/
theorem storeEntry_longest (head : log.headIndex ≤ log.entries.length)
    (sized : log.totalSizeBytes = (log.live.map entrySize).sum) :
    Longest entrySize log.retentionBytes (log.live ++ [entry]) (log.storeEntry entry).live := by
  have pushed : (log.entries ++ [entry]).drop log.headIndex = log.live ++ [entry] :=
    List.drop_append_of_le_length head
  have grows : ∃ grown : ReplicationLog, log.storeEntry entry = grown.evictOldEntries ∧
      grown.live = log.live ++ [entry] ∧ grown.retentionBytes = log.retentionBytes ∧
      grown.totalSizeBytes = log.totalSizeBytes + entrySize entry := by
    refine ⟨_, rfl, ?_, ?_, rfl⟩
    · simp only [live]
      split <;> exact pushed
    · simp only
      split <;> rfl
  obtain ⟨grown, stored, lives, limit, total⟩ := grows
  rw [stored, live_evictOldEntries, ← lives, ← limit, ← length_live]
  apply evictWhileOver_longest _ (Nat.le_refl _)
  rw [total, lives, sized]
  simp

end ReplicationLog

/-- What is live is the longest back part of the entries taken since the last clearing that
is within the retention. -/
structure LogRun.Retains (retentionBytes : Nat) (r : LogRun) : Prop where
  inv : r.Inv
  limit : r.log.retentionBytes = retentionBytes
  longest : Longest entrySize retentionBytes r.since r.log.live

namespace LogRun.Retains

variable {retentionBytes : Nat} {r r' : LogRun}

theorem store {log : ReplicationLog} {entry : ReplicationLogEntry} (retains : r.Retains retentionBytes)
    (number : entry.seqNo = r.log.nextSeqNo) (fits : entrySize entry ≤ r.log.retentionBytes)
    (stored : log = { r.log with nextSeqNo := entry.seqNo + 1 }.storeEntry entry) :
    (r.take log entry).Retains retentionBytes := by
  have spec := storeEntry_spec { r.log with nextSeqNo := entry.seqNo + 1 } entry retains.inv.head
    retains.inv.sized fits (by have := retains.inv.localLogEnd; have := retains.inv.nextSeqNo; simp only; omega)
  rw [← stored] at spec
  have later : log.nextSeqNo = entry.seqNo + 1 := spec.nextSeqNo
  refine ⟨retains.inv.take_stored number fits stored, ?_, ?_⟩
  · rw [LogRun.take, if_neg (by omega)]
    exact spec.retentionBytes.trans retains.limit
  · have left := @storeEntry_longest { r.log with nextSeqNo := entry.seqNo + 1 } entry retains.inv.head
      retains.inv.sized
    rw [← stored] at left
    simp only [retains.limit] at left
    rw [LogRun.take, if_neg (by omega)]
    exact retains.longest.push left

theorem next (call : LogCall) (retains : r.Retains retentionBytes) (step : nextLog codec r call = some r') :
    r'.Retains retentionBytes := by
  have inv := retains.inv.next call step
  cases call with
  | append fields =>
    simp only [nextLog] at step
    split at step
    · cases step
      exact retains
    next log entry taken =>
      cases step
      obtain ⟨built, fits, stored⟩ := append_ok taken
      exact retains.store (by rw [built]; rfl) fits stored
  | appendCommitted entry =>
    simp only [nextLog] at step
    split at step
    · cases step
      exact retains
    next log answered taken =>
      cases step
      rcases appendCommitted_ok taken with ⟨rfl, -, -⟩ | ⟨rfl, number, -, -, -, fits, stored⟩
      · rw [LogRun.take, if_pos rfl]
        exact retains
      · exact retains.store number fits stored
  | advanceCommitPoint seqNo =>
    cases step
    have same : (r.log.advanceCommitPoint seqNo).live = r.log.live ∧
        (r.log.advanceCommitPoint seqNo).retentionBytes = r.log.retentionBytes := by
      rw [ReplicationLog.advanceCommitPoint]
      split <;> exact ⟨rfl, rfl⟩
    exact ⟨inv, same.2.trans retains.limit, same.1 ▸ retains.longest⟩
  | clear =>
    cases step
    exact ⟨inv, retains.limit, .whole (Nat.zero_le _)⟩
  | seed seqNo primaryTerm =>
    cases step
    exact ⟨inv, retains.limit, .whole (Nat.zero_le _)⟩

end LogRun.Retains

/-- In every run a log holds the longest back part of what it took since it was last cleared
that is within its retention, and finds an entry by its number exactly when it is in there. -/
theorem replicationLog_retains (codec : EntryCodec) (partitionId retentionBytes seqNo primaryTerm : Nat)
    (calls : List LogCall) (r : LogRun)
    (reached : Transition.run (nextLog codec) (.seeded partitionId retentionBytes seqNo primaryTerm) calls = some r) :
    Longest entrySize retentionBytes r.since r.log.live ∧
      r.log.totalSizeBytes = (r.log.live.map entrySize).sum ∧
      ∀ asked entry, r.log.getEntry asked = some entry ↔ entry ∈ r.log.live ∧ entry.seqNo = asked := by
  obtain ⟨inv, -, longest⟩ := Transition.run_invariant (nextLog codec) (LogRun.Retains retentionBytes)
    (fun _ call _ retains step => retains.next call step) calls _ r
    ⟨.seeded partitionId retentionBytes seqNo primaryTerm, rfl, .whole (Nat.zero_le _)⟩ reached
  refine ⟨longest, inv.sized, ?_⟩
  intro asked entry
  rw [getEntry, readEntry_eq inv.ascending_live inv.head]
  constructor
  · intro found
    exact ⟨List.mem_of_find?_eq_some found, by simpa using List.find?_some found⟩
  · rintro ⟨member, rfl⟩
    cases found : r.log.live.find? fun other => decide (other.seqNo = entry.seqNo) with
    | none => exact absurd (List.find?_eq_none.mp found entry member) (by simp)
    | some other =>
      -- Numbers ascend, so no other live entry has this one's.
      have same : other.seqNo = entry.seqNo := by simpa using List.find?_some found
      have distinct : (r.log.live.map ReplicationLogEntry.seqNo).Nodup :=
        (List.pairwise_map.mpr inv.ascending_live).imp Nat.ne_of_lt
      rw [List.inj_on_of_nodup_map distinct (List.mem_of_find?_eq_some found) member same]

/-- Of three removals, two fit. -/
theorem replicationLog_retains_two :
    ∃ r, Transition.run (nextLog Durability.sampleCodec) (.seeded 0 100 0 0)
        (List.replicate 3 (.append ⟨1, .delete, "i", "d", none⟩)) = some r ∧
      r.log.live.length = 2 ∧ Longest entrySize 100 r.since r.log.live := by
  refine ⟨_, rfl, by decide, ?_⟩
  exact (replicationLog_retains Durability.sampleCodec 0 100 0 0
    (List.replicate 3 (.append ⟨1, .delete, "i", "d", none⟩)) _ rfl).1

end Narsil.Replication
