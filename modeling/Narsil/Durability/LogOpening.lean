import Narsil.Durability.LogReads
import Narsil.Durability.WalDurability

/-!
# A log that is opened and read

Opening lists each segment once, in the order of the numbers. A read is right but for the segment
that counts past its end and holds wanted entries there.
-/
namespace Narsil.Durability

variable {codec : EntryCodec} {directory : PartitionDirectory} {segments : List (StoredSegment codec)}

/-- The files of a partition hold these segments: those of the log up to the durable end of the active one, those of the
history whole. A segment may be in both places. -/
structure LogOf (directory : PartitionDirectory) (segments : List (StoredSegment codec)) : Prop where
  stored : Stored segments
  distinctWal : (directory.wal.map Prod.fst).Nodup
  distinctHistory : (directory.history.map Prod.fst).Nodup
  wal : ∀ state slot, readCommitMarker directory.marker = some (state, slot) → ∀ file ∈ directory.wal,
    file.1 ≤ state.activeSegmentSeqNo → ∃ segment ∈ segments, segment.startSeqNo = file.1 ∧
      if file.1 = state.activeSegmentSeqNo then
        file.2.take state.durableByteLength = segment.bytes ∧ state.durableByteLength ≤ file.2.length
      else file.2 = segment.bytes
  history : ∀ file ∈ directory.history, ∃ segment ∈ segments, segment.startSeqNo = file.1.1 ∧ file.2 = segment.bytes
  listed : ∀ segment ∈ segments, (∃ file ∈ directory.history, file.1.1 = segment.startSeqNo) ∨
    ∃ state slot, readCommitMarker directory.marker = some (state, slot) ∧
      segment.startSeqNo ≤ state.activeSegmentSeqNo ∧ ∃ file ∈ directory.wal, file.1 = segment.startSeqNo

/-- Each entry is the source of a segment, under its start. -/
def Sourced (directory : PartitionDirectory) (segments : List (StoredSegment codec)) (byStart : List (Nat × LogSource)) : Prop :=
  ∀ entry ∈ byStart, entry.2.startSeqNo = entry.1 ∧ ∃ segment ∈ segments, Backed directory entry.2 segment

theorem walSource_backed (log : LogOf directory segments) : ∀ source ∈ (walSources directory).1,
    ∃ segment ∈ segments, Backed directory source segment := by
  intro source member
  rw [walSources] at member
  cases marker : readCommitMarker directory.marker with
  | none =>
    rw [marker] at member
    exact (List.not_mem_nil member).elim
  | some current =>
    obtain ⟨state, slot⟩ := current
    rw [marker] at member
    obtain ⟨⟨start, bytes⟩, inside, made⟩ := List.mem_filterMap.mp member
    simp only [Option.ite_none_left_eq_some, Option.some.injEq] at made
    obtain ⟨upTo, rfl⟩ := made
    obtain ⟨segment, isSegment, same, held⟩ := log.wal state slot marker (start, bytes) inside (Nat.le_of_not_lt upTo)
    have found : directory.file (.wal start) = some bytes := Assoc.lookup_of_mem log.distinctWal inside
    refine ⟨segment, isSegment, same.symm, bytes, found, ?_⟩
    simp only at held ⊢
    split at held
    · next active => rwa [if_pos active]
    · next sealed => exact ⟨by rw [if_neg sealed, List.take_length, held], by rw [if_neg sealed]⟩

theorem historySource_backed (log : LogOf directory segments) : ∀ file ∈ directory.history,
    ∃ segment ∈ segments, Backed directory (historySource file) segment := by
  intro file member
  obtain ⟨segment, isSegment, same, held⟩ := log.history file member
  have found : directory.file (.history file.1.1 file.1.2) = some file.2 := Assoc.lookup_of_mem log.distinctHistory member
  exact ⟨segment, isSegment, same.symm, file.2, found, by rw [historySource, List.take_length, held], Nat.le_refl _⟩

theorem Sourced.set {byStart : List (Nat × LogSource)} (sourced : Sourced directory segments byStart) {source : LogSource}
    (backed : ∃ segment ∈ segments, Backed directory source segment) :
    Sourced directory segments (Assoc.set byStart source.startSeqNo source) := by
  intro entry member
  rcases Assoc.mem_set member with rfl | old
  · exact ⟨rfl, backed⟩
  · exact sourced entry old

/-- What the two folds over the listings keep: sources of segments under distinct starts, all those listed so far among them. -/
structure Collected (directory : PartitionDirectory) (segments : List (StoredSegment codec)) (starts : List Nat)
    (byStart : List (Nat × LogSource)) : Prop where
  sourced : Sourced directory segments byStart
  distinct : (byStart.map Prod.fst).Nodup
  all : ∀ start ∈ starts, start ∈ byStart.map Prod.fst

theorem Collected.set {starts : List Nat} {byStart : List (Nat × LogSource)}
    (collected : Collected directory segments starts byStart) {source : LogSource}
    (backed : ∃ segment ∈ segments, Backed directory source segment) :
    Collected directory segments (source.startSeqNo :: starts) (Assoc.set byStart source.startSeqNo source) where
  sourced := collected.sourced.set backed
  distinct := Assoc.set_distinct collected.distinct _ _
  all := List.forall_mem_cons.mpr ⟨Assoc.mem_keys_set.mpr (.inl rfl), fun start member =>
    Assoc.mem_keys_set.mpr (.inr (collected.all start member))⟩

theorem collected_history (log : LogOf directory segments) (files : List ((Nat × Nat) × Bytes))
    (listed : ∀ file ∈ files, file ∈ directory.history) {starts : List Nat} {byStart : List (Nat × LogSource)}
    (collected : Collected directory segments starts byStart) :
    ∃ more, (∀ file ∈ files, file.1.1 ∈ more) ∧ (∀ start ∈ starts, start ∈ more) ∧ Collected directory segments more
      (files.foldl (fun byStart segment => Assoc.set byStart segment.1.1 (historySource segment)) byStart) := by
  induction files generalizing starts byStart with
  | nil => exact ⟨starts, nofun, fun _ member => member, collected⟩
  | cons file files ih =>
    obtain ⟨first, others⟩ := List.forall_mem_cons.mp listed
    obtain ⟨more, all, kept, done⟩ := ih others (collected.set (historySource_backed log file first))
    exact ⟨more, List.forall_mem_cons.mpr ⟨kept _ List.mem_cons_self, all⟩,
      fun start member => kept start (List.mem_cons_of_mem _ member), done⟩

theorem collected_wal (sources : List LogSource)
    (backed : ∀ source ∈ sources, ∃ segment ∈ segments, Backed directory source segment) {starts : List Nat}
    {byStart : List (Nat × LogSource)} (collected : Collected directory segments starts byStart) :
    ∃ more, (∀ source ∈ sources, source.startSeqNo ∈ more) ∧ (∀ start ∈ starts, start ∈ more) ∧
      Collected directory segments more (sources.foldl addMissing byStart) := by
  induction sources generalizing starts byStart with
  | nil => exact ⟨starts, nofun, fun _ member => member, collected⟩
  | cons source sources ih =>
    obtain ⟨first, others⟩ := List.forall_mem_cons.mp backed
    have added : Collected directory segments (source.startSeqNo :: starts) (addMissing byStart source) := by
      rw [addMissing]
      split
      · next known =>
        exact { collected with all := List.forall_mem_cons.mpr ⟨Assoc.lookup_isSome.mp known, collected.all⟩ }
      · exact collected.set first
    obtain ⟨more, all, kept, done⟩ := ih others added
    exact ⟨more, List.forall_mem_cons.mpr ⟨kept _ List.mem_cons_self, all⟩,
      fun start member => kept start (List.mem_cons_of_mem _ member), done⟩

theorem starts_ascending (stored : Stored segments) : (segments.map StoredSegment.startSeqNo).Pairwise (· < ·) :=
  List.pairwise_map.mpr (stored.ordered.imp And.left)

theorem Stored.same (stored : Stored segments) {segment other : StoredSegment codec} (first : segment ∈ segments)
    (second : other ∈ segments) (start : segment.startSeqNo = other.startSeqNo) : segment = other := by
  have distinct := (starts_ascending stored).imp (S := (· ≠ ·)) fun less => Nat.ne_of_lt less
  exact List.inj_on_of_nodup_map distinct first second start

theorem opened_sources (log : LogOf directory segments) :
    List.Forall₂ (Backed directory) (openPartitionLog directory).sources segments := by
  have none : Collected directory segments [] [] := ⟨nofun, List.nodup_nil, nofun⟩
  obtain ⟨fromHistory, history, -, collected⟩ := collected_history log (listHistorySegments directory)
    (fun file member => (List.mergeSort_perm _ _).mem_iff.mp member) none
  obtain ⟨starts, wal, kept, collected⟩ := collected_wal (walSources directory).1 (walSource_backed log) collected
  generalize built : (walSources directory).1.foldl addMissing _ = byStart at collected
  have sources : (openPartitionLog directory).sources =
      (byStart.map Prod.snd).mergeSort fun left right => decide (left.startSeqNo ≤ right.startSeqNo) := by
    rw [← built]
    rfl
  rw [sources]
  generalize sorted : (byStart.map Prod.snd).mergeSort (fun left right => decide (left.startSeqNo ≤ right.startSeqNo)) = ordered
  have same : ordered.Perm (byStart.map Prod.snd) := sorted ▸ List.mergeSort_perm _ _
  have keys : (byStart.map Prod.snd).map LogSource.startSeqNo = byStart.map Prod.fst := by
    rw [List.map_map]
    exact List.map_congr_left fun entry member => (collected.sourced entry member).1
  have found : ∀ source ∈ ordered, ∃ segment ∈ segments, Backed directory source segment := by
    intro source member
    obtain ⟨entry, inside, rfl⟩ := List.mem_map.mp (same.mem_iff.mp member)
    exact (collected.sourced entry inside).2
  have strict : (ordered.map LogSource.startSeqNo).Pairwise (· < ·) := by
    have distinct : (ordered.map LogSource.startSeqNo).Nodup :=
      ((same.map _).nodup_iff).mpr (keys ▸ collected.distinct)
    have rising : (ordered.map LogSource.startSeqNo).Pairwise (· ≤ ·) := by
      rw [List.pairwise_map, ← sorted]
      refine (List.pairwise_mergeSort ?_ ?_ _).imp fun le => of_decide_eq_true le
      · intro a b c first second
        rw [decide_eq_true_eq] at first second ⊢
        omega
      · intro a b
        rw [Bool.or_eq_true, decide_eq_true_eq, decide_eq_true_eq]
        omega
    exact (rising.and distinct).imp fun both => Nat.lt_of_le_of_ne both.1 both.2
  have members : ∀ start, start ∈ ordered.map LogSource.startSeqNo ↔ start ∈ segments.map StoredSegment.startSeqNo := by
    intro start
    constructor
    · intro member
      obtain ⟨source, inside, rfl⟩ := List.mem_map.mp member
      obtain ⟨segment, isSegment, backed⟩ := found source inside
      exact List.mem_map.mpr ⟨segment, isSegment, backed.starts.symm⟩
    · intro member
      obtain ⟨segment, isSegment, rfl⟩ := List.mem_map.mp member
      rw [(same.map _).mem_iff, keys]
      apply collected.all
      rcases log.listed segment isSegment with ⟨file, inHistory, start⟩ | ⟨state, slot, marker, upTo, file, inWal, start⟩
      · exact kept _ (start ▸ history file ((List.mergeSort_perm _ _).mem_iff.mpr inHistory))
      · have listed : (⟨.wal file.1, file.1, if file.1 = state.activeSegmentSeqNo then state.durableByteLength
            else file.2.length, false⟩ : LogSource) ∈ (walSources directory).1 := by
          rw [walSources, marker]
          exact List.mem_filterMap.mpr ⟨file, inWal, if_neg (by omega)⟩
        exact start ▸ wal _ listed
  have equal : ordered.map LogSource.startSeqNo = segments.map StoredSegment.startSeqNo :=
    ((List.perm_ext_iff_of_nodup (strict.imp Nat.ne_of_lt) ((starts_ascending log.stored).imp Nat.ne_of_lt)).mpr
      members).eq_of_pairwise (fun a b _ _ less more => absurd less (Nat.lt_asymm more)) strict
        (starts_ascending log.stored)
  have starts : List.Forall₂ (fun source segment => source.startSeqNo = segment.startSeqNo) ordered segments := by
    have same : List.Forall₂ (· = ·) (ordered.map LogSource.startSeqNo) (segments.map StoredSegment.startSeqNo) := by
      rw [List.forall₂_eq_eq_eq]
      exact equal
    exact List.forall₂_map_right_iff.mp (List.forall₂_map_left_iff.mp same)
  refine List.forall₂_iff_zip.mpr ⟨starts.length_eq, fun {source segment} paired => ?_⟩
  obtain ⟨inside, isSegment⟩ := List.of_mem_zip paired
  obtain ⟨other, isOther, backed⟩ := found source inside
  have one : other = segment :=
    log.stored.same isOther isSegment (backed.starts.symm.trans (List.forall₂_zip starts paired))
  exact one ▸ backed

section Attempt
variable {afterSeqNo upToSeqNo maxBytes : Nat}

/-- The segment that is looked at for a number: the last one that starts at it or before it. -/
structure Holds (segments : List (StoredSegment codec)) (seqNo : Nat) (segment : StoredSegment codec)
    (later : List (StoredSegment codec)) : Prop where
  split : ∃ earlier, segments = earlier ++ segment :: later
  starts : segment.startSeqNo ≤ seqNo
  behind : ∀ other ∈ later, seqNo < other.startSeqNo

theorem sourceHolding_none {sources : List LogSource} {segments : List (StoredSegment codec)}
    (backed : List.Forall₂ (Backed directory) sources segments) {seqNo : Nat}
    (before : ∀ segment ∈ segments.head?, seqNo < segment.startSeqNo) : sourceHolding seqNo sources = none := by
  cases backed with
  | nil => rfl
  | cons first _ => rw [sourceHolding, if_pos (first.starts ▸ before _ rfl)]

theorem sourceHolding_some {sources : List LogSource} {segments : List (StoredSegment codec)}
    (backed : List.Forall₂ (Backed directory) sources segments)
    (ascending : segments.Pairwise fun before after => before.startSeqNo < after.startSeqNo) {seqNo : Nat}
    (starts : ∃ segment ∈ segments.head?, segment.startSeqNo ≤ seqNo) :
    ∃ source rest segment later, sourceHolding seqNo sources = some (source :: rest) ∧
      Holds segments seqNo segment later ∧ Backed directory source segment ∧ List.Forall₂ (Backed directory) rest later := by
  induction backed with
  | nil =>
    obtain ⟨segment, first, -⟩ := starts
    exact absurd first (Option.not_mem_none segment)
  | @cons source segment sources segments first others ih =>
    obtain ⟨above, ascending⟩ := List.pairwise_cons.mp ascending
    obtain ⟨_, ⟨⟩, low⟩ := starts
    rw [sourceHolding, if_neg (by rw [first.starts]; omega)]
    by_cases next : ∃ other ∈ segments.head?, other.startSeqNo ≤ seqNo
    · obtain ⟨held, rest, isSegment, later, found, ⟨⟨earlier, split⟩, starts, behind⟩, back, backs⟩ := ih ascending next
      refine ⟨held, rest, isSegment, later, by rw [found, Option.getD_some], ⟨⟨segment :: earlier, ?_⟩, starts, behind⟩,
        back, backs⟩
      rw [split, List.cons_append]
    · have beyond : ∀ other ∈ segments.head?, seqNo < other.startSeqNo := fun other member =>
        Nat.lt_of_not_le fun le => next ⟨other, member, le⟩
      refine ⟨source, sources, segment, segments, ?_, ⟨⟨[], rfl⟩, low, fun other member => ?_⟩, first, others⟩
      · rw [sourceHolding_none others beyond, Option.getD_none]
      · cases segments with
        | nil => exact absurd member List.not_mem_nil
        | cons second more =>
          have second_beyond := beyond second rfl
          rcases List.mem_cons.mp member with rfl | inMore
          · exact second_beyond
          · exact Nat.lt_trans second_beyond ((List.pairwise_cons.mp ascending).1 other inMore)

theorem opened_oldest (directory : PartitionDirectory) : (openPartitionLog directory).oldestSeqNo =
    ((openPartitionLog directory).sources.head?.map LogSource.startSeqNo).getD ((openPartitionLog directory).head + 1) := by
  rw [openPartitionLog]
  dsimp only
  split
  next none => rw [none]; rfl
  next some => rw [some]; rfl

theorem readAttempt_gone (log : LogOf directory segments)
    (before : ∀ segment ∈ segments.head?, afterSeqNo + 1 < segment.startSeqNo) :
    readAttempt codec directory afterSeqNo upToSeqNo maxBytes =
      .ok ⟨[], 0, decide (afterSeqNo + 1 < (openPartitionLog directory).oldestSeqNo)⟩ := by
  have backed := opened_sources log
  have nowhere := sourceHolding_none backed before
  rw [readAttempt]
  simp only [nowhere]
  congr 2
  rw [decide_eq_decide]
  rw [opened_oldest]
  cases held : (openPartitionLog directory).sources with
  | nil =>
    simp only [List.length_nil, List.head?_nil, Option.map_none, Option.getD_none]
    omega
  | cons source sources =>
    rw [held, sourceHolding] at nowhere
    split at nowhere
    · next beyond =>
      simp only [List.length_cons, List.head?_cons, Option.map_some, Option.getD_some]
      omega
    · cases nowhere

theorem readAttempt_reads (log : LogOf directory segments)
    (starts : ∃ segment ∈ segments.head?, segment.startSeqNo ≤ afterSeqNo + 1) :
    ∃ segment later, Holds segments (afterSeqNo + 1) segment later ∧
      readAttempt codec directory afterSeqNo upToSeqNo maxBytes = .ok (readInTurn afterSeqNo upToSeqNo maxBytes
        (if CountsPast segment afterSeqNo then framesOf later else framesOf (segment :: later)) ⟨[], 0, false⟩).2 := by
  obtain ⟨source, rest, segment, later, found, holds, backed, others⟩ :=
    sourceHolding_some (opened_sources log) (log.stored.ordered.imp And.left) starts
  refine ⟨segment, later, holds, ?_⟩
  obtain ⟨earlier, split⟩ := holds.split
  have stored : Stored (segment :: later) := by
    refine ⟨fun other member => log.stored.valid other ?_, ?_⟩
    · rw [split]
      exact List.mem_append_right _ member
    · have ordered := log.stored.ordered
      rw [split] at ordered
      exact (List.pairwise_append.mp ordered).2.1
  have behind : ∀ other ∈ later, afterSeqNo < other.startSeqNo := fun other member => by
    have := holds.behind other member
    omega
  have first : readSource codec directory source afterSeqNo upToSeqNo maxBytes ⟨[], 0, false⟩ =
      .ok (if CountsPast segment afterSeqNo then (false, ⟨[], 0, false⟩)
        else readInTurn afterSeqNo upToSeqNo maxBytes segment.frames ⟨[], 0, false⟩) :=
    readSource_reads (stored.valid segment List.mem_cons_self) backed _ _ _ _
  rw [readAttempt]
  simp only [found]
  simp only [readSources, List.getLast?_nil, Option.map_none, Option.getD_none, Nat.max_self, first]
  by_cases past : CountsPast segment afterSeqNo
  · rw [if_pos past, if_pos past]
    refine readSources_reads others stored.tail _ fun other isOther => ⟨behind other isOther, ?_⟩
    intro frame member
    cases member
  · rw [if_neg past, if_neg past, framesOf, List.flatMap_cons, readInTurn_append]
    cases reads : readInTurn afterSeqNo upToSeqNo maxBytes segment.frames ⟨[], 0, false⟩ with
    | mk done next =>
      cases done with
      | true => rfl
      | false =>
        refine readSources_reads others stored.tail next fun other isOther => ⟨behind other isOther, fun frame member => ?_⟩
        have held : frame ∈ (readInTurn afterSeqNo upToSeqNo maxBytes segment.frames ⟨[], 0, false⟩).2.frames := by
          rw [reads]
          exact member
        rcases mem_readInTurn held with old | new
        · exact absurd old List.not_mem_nil
        · obtain ⟨record, inside, rfl⟩ := List.mem_map.mp new
          exact ((List.pairwise_cons.mp stored.ordered).1 other isOther).2 record inside

theorem Holds.wanted (stored : Stored segments) {segment : StoredSegment codec} {later : List (StoredSegment codec)}
    (holds : Holds segments (afterSeqNo + 1) segment later) :
    wantedFrames afterSeqNo upToSeqNo (framesOf segments) = wantedFrames afterSeqNo upToSeqNo (framesOf (segment :: later)) := by
  obtain ⟨earlier, rfl⟩ := holds.split
  rw [framesOf, List.flatMap_append, wantedFrames, List.filter_append, ← wantedFrames]
  have none : wantedFrames afterSeqNo upToSeqNo (framesOf earlier) = [] := by
    refine List.filter_eq_nil_iff.mpr fun frame member => ?_
    obtain ⟨other, isOther, record, inside, rfl⟩ := mem_framesOf.mp member
    have low : record.frame.seqNo < segment.startSeqNo :=
      ((List.pairwise_append.mp stored.ordered).2.2 other isOther segment List.mem_cons_self).2 record inside
    have starts := holds.starts
    simp
    omega
  exact (congrArg (· ++ _) none).trans (List.nil_append _)

theorem Holds.start_le (stored : Stored segments) {seqNo : Nat} {segment other : StoredSegment codec}
    {later : List (StoredSegment codec)} (holds : Holds segments seqNo segment later) (member : other ∈ segments)
    (low : other.startSeqNo ≤ seqNo) : other.startSeqNo ≤ segment.startSeqNo := by
  obtain ⟨earlier, rfl⟩ := holds.split
  rcases List.mem_append.mp member with before | rest
  · exact Nat.le_of_lt ((List.pairwise_append.mp stored.ordered).2.2 other before segment List.mem_cons_self).1
  · rcases List.mem_cons.mp rest with rfl | after
    · exact Nat.le_refl _
    · have := holds.behind other after
      omega

theorem Holds.mem {seqNo : Nat} {segment : StoredSegment codec} {later : List (StoredSegment codec)}
    (holds : Holds segments seqNo segment later) : segment ∈ segments := by
  obtain ⟨earlier, rfl⟩ := holds.split
  exact List.mem_append_right _ List.mem_cons_self

theorem Holds.unique (stored : Stored segments) {seqNo : Nat} {segment other : StoredSegment codec}
    {later others : List (StoredSegment codec)} (holds : Holds segments seqNo segment later)
    (holds' : Holds segments seqNo other others) : other = segment :=
  stored.same holds'.mem holds.mem (Nat.le_antisymm (holds.start_le stored holds'.mem holds'.starts)
    (holds'.start_le stored holds.mem holds.starts))

/-- The first number that can be read: that of the oldest segment, or the next one of a log without segments. -/
def firstNumber (segments : List (StoredSegment codec)) (head : Nat) : Nat :=
  (segments.head?.map StoredSegment.startSeqNo).getD (head + 1)

/-- The answer of a read: gone where the first wanted number is before the log, else the longest run that fits. -/
def ReadsRight (directory : PartitionDirectory) (segments : List (StoredSegment codec)) (afterSeqNo upToSeqNo maxBytes : Nat) :
    Prop :=
  ∃ read, readPartitionLog codec directory afterSeqNo upToSeqNo maxBytes = .ok read ∧
    (read.gone = true ↔ afterSeqNo < upToSeqNo ∧ afterSeqNo + 1 < firstNumber segments (openPartitionLog directory).head) ∧
    (read.gone = false → LongestRun maxBytes (wantedFrames afterSeqNo upToSeqNo (framesOf segments)) read.frames ∧
      read.bytes = totalBytes read.frames)

/-- Counting leads past the end of the segment that is looked at, and a wanted record is in it. -/
def Overruns (segments : List (StoredSegment codec)) (afterSeqNo upToSeqNo : Nat) : Prop :=
  ∃ segment later, Holds segments (afterSeqNo + 1) segment later ∧ CountsPast segment afterSeqNo ∧
    ∃ record ∈ segment.records, afterSeqNo < record.entry.seqNo ∧ record.entry.seqNo ≤ upToSeqNo

theorem readPartitionLog_of_attempt {read : LogRead} (wanted : afterSeqNo < upToSeqNo)
    (attempt : readAttempt codec directory afterSeqNo upToSeqNo maxBytes = .ok read) :
    readPartitionLog codec directory afterSeqNo upToSeqNo maxBytes = .ok read := by
  rw [readPartitionLog, if_neg (by omega), attempt]

theorem LongestRun.nil (maxBytes : Nat) : LongestRun maxBytes [] [] where
  starts := List.nil_prefix
  fits := .inl (Nat.zero_le _)
  longest _ isPrefix _ := isPrefix.length_le

theorem readPartitionLog_gone (log : LogOf directory segments) (wanted : afterSeqNo < upToSeqNo)
    (before : ∀ segment ∈ segments.head?, afterSeqNo + 1 < segment.startSeqNo) :
    ReadsRight directory segments afterSeqNo upToSeqNo maxBytes := by
  have oldest : (openPartitionLog directory).oldestSeqNo = firstNumber segments (openPartitionLog directory).head := by
    have backed := opened_sources log
    rw [opened_oldest]
    generalize (openPartitionLog directory).sources = sources at backed
    cases backed with
    | nil => rfl
    | cons first _ => exact first.starts
  refine ⟨_, readPartitionLog_of_attempt wanted (readAttempt_gone log before), ?_, ?_⟩
  · rw [oldest, decide_eq_true_eq]
    exact ⟨fun gone => ⟨wanted, gone⟩, And.right⟩
  · intro here
    rw [oldest, decide_eq_false_iff_not] at here
    cases segments with
    | nil => exact ⟨LongestRun.nil maxBytes, rfl⟩
    | cons segment rest => exact absurd (before segment rfl) here

theorem readPartitionLog_run (log : LogOf directory segments) (wanted : afterSeqNo < upToSeqNo)
    (starts : ∃ segment ∈ segments.head?, segment.startSeqNo ≤ afterSeqNo + 1) :
    ∃ segment later run, Holds segments (afterSeqNo + 1) segment later ∧
      readPartitionLog codec directory afterSeqNo upToSeqNo maxBytes = .ok ⟨run, totalBytes run, false⟩ ∧
      LongestRun maxBytes (wantedFrames afterSeqNo upToSeqNo
        (if CountsPast segment afterSeqNo then framesOf later else framesOf (segment :: later))) run := by
  obtain ⟨segment, later, holds, reads⟩ := @readAttempt_reads _ _ _ afterSeqNo upToSeqNo maxBytes log starts
  have ascending : (framesOf (segment :: later)).Pairwise fun before after => before.seqNo < after.seqNo := by
    have all := log.stored.ascending
    obtain ⟨earlier, split⟩ := holds.split
    rw [split, framesOf, List.flatMap_append] at all
    exact (List.pairwise_append.mp all).2.1
  have looked : (if CountsPast segment afterSeqNo then framesOf later else framesOf (segment :: later)).Pairwise
      fun before after => before.seqNo < after.seqNo := by
    split
    · exact (List.pairwise_append.mp ascending).2.1
    · exact ascending
  obtain ⟨run, result, longest⟩ := @readInTurn_longest afterSeqNo upToSeqNo maxBytes _ looked
  rw [result] at reads
  exact ⟨segment, later, run, holds, readPartitionLog_of_attempt wanted reads, longest⟩

theorem overrun_skips (log : LogOf directory segments) (wanted : afterSeqNo < upToSeqNo)
    (overruns : Overruns segments afterSeqNo upToSeqNo) : ¬ ReadsRight directory segments afterSeqNo upToSeqNo maxBytes := by
  obtain ⟨segment, later, holds, past, record, inside, above, upTo⟩ := overruns
  have starts : ∃ first ∈ segments.head?, first.startSeqNo ≤ afterSeqNo + 1 := by
    cases segments with
    | nil => exact absurd holds.mem List.not_mem_nil
    | cons first rest =>
      refine ⟨first, rfl, ?_⟩
      rcases List.mem_cons.mp holds.mem with rfl | behind
      · exact holds.starts
      · have := ((List.pairwise_cons.mp log.stored.ordered).1 segment behind).1
        have := holds.starts
        omega
  obtain ⟨other, others, run, holds', reads, longest⟩ := @readPartitionLog_run _ _ _ _ _ maxBytes log wanted starts
  obtain rfl : segment = other := Holds.unique log.stored holds' holds
  rw [if_pos past] at longest
  rintro ⟨read, answered, -, right⟩
  obtain rfl : (⟨run, totalBytes run, false⟩ : LogRead) = read := Except.ok.inj (reads.symm.trans answered)
  obtain ⟨⟨isPrefix, -, most⟩, -⟩ := right rfl
  -- The first wanted frame is one of the segment; the run has frames of later segments only.
  have some_wanted : record.frame ∈ wantedFrames afterSeqNo upToSeqNo segment.frames :=
    List.mem_filter.mpr ⟨List.mem_map_of_mem inside, by simp; exact ⟨above, upTo⟩⟩
  have wanted_split : wantedFrames afterSeqNo upToSeqNo (framesOf segments) =
      wantedFrames afterSeqNo upToSeqNo segment.frames ++ wantedFrames afterSeqNo upToSeqNo (framesOf others) := by
    rw [holds'.wanted log.stored, framesOf, List.flatMap_cons, wantedFrames, List.filter_append]
    rfl
  cases first : wantedFrames afterSeqNo upToSeqNo segment.frames with
  | nil =>
    rw [first] at some_wanted
    exact List.not_mem_nil some_wanted
  | cons frame rest =>
    rw [wanted_split, first, List.cons_append] at isPrefix most
    have long := most [frame] (List.cons_prefix_cons.mpr ⟨rfl, List.nil_prefix⟩) (.inl (Nat.le_refl _))
    cases run with
    | nil => exact absurd long (by simp)
    | cons head more =>
      obtain ⟨rfl, -⟩ := List.cons_prefix_cons.mp isPrefix
      have later_frame : head ∈ framesOf others := List.mem_of_mem_filter (longest.starts.subset List.mem_cons_self)
      have own_frame : head ∈ segment.frames := List.mem_of_mem_filter (by rw [← wantedFrames, first]; exact List.mem_cons_self)
      obtain ⟨after, isAfter, entry, within, rfl⟩ := mem_framesOf.mp later_frame
      obtain ⟨own, isOwn, same⟩ := List.mem_map.mp own_frame
      obtain ⟨earlier, split⟩ := holds'.split
      have ordered := log.stored.ordered
      rw [split] at ordered
      have low : own.frame.seqNo < after.startSeqNo :=
        ((List.pairwise_cons.mp (List.pairwise_append.mp ordered).2.1).1 after isAfter).2 own isOwn
      have high : after.startSeqNo ≤ entry.frame.seqNo := (log.stored.valid after (by
        rw [split]
        exact List.mem_append_right _ (List.mem_cons_of_mem _ isAfter))).fromStart entry within
      rw [same] at low
      omega

/-- Reading is right exactly where counting does not lead past the end of a segment with wanted records. -/
theorem readPartitionLog_skips_nothing_iff (log : LogOf directory segments) :
    ReadsRight directory segments afterSeqNo upToSeqNo maxBytes ↔ ¬ Overruns segments afterSeqNo upToSeqNo := by
  by_cases wanted : afterSeqNo < upToSeqNo
  · refine ⟨fun right overruns => overrun_skips log wanted overruns right, fun within => ?_⟩
    by_cases starts : ∃ segment ∈ segments.head?, segment.startSeqNo ≤ afterSeqNo + 1
    · obtain ⟨segment, later, run, holds, reads, longest⟩ := @readPartitionLog_run _ _ _ _ _ maxBytes log wanted starts
      refine ⟨_, reads, ⟨?_, fun gone => ?_⟩, fun _ => ⟨?_, rfl⟩⟩
      · intro same
        cases same
      · obtain ⟨first, isFirst, low⟩ := starts
        rw [firstNumber, isFirst, Option.map_some, Option.getD_some] at gone
        omega
      · rw [holds.wanted log.stored]
        by_cases past : CountsPast segment afterSeqNo
        · -- The segment holds nothing that is wanted.
          rw [if_pos past] at longest
          have nothing : wantedFrames afterSeqNo upToSeqNo segment.frames = [] := by
            refine List.filter_eq_nil_iff.mpr fun frame member looked => ?_
            obtain ⟨record, inside, rfl⟩ := List.mem_map.mp member
            simp only [Bool.and_eq_true, decide_eq_true_eq] at looked
            exact within ⟨segment, later, holds, past, record, inside, looked⟩
          rw [framesOf, List.flatMap_cons, wantedFrames, List.filter_append, ← wantedFrames, nothing]
          exact longest
        · rw [if_neg past] at longest
          exact longest
    · exact readPartitionLog_gone log wanted fun segment member => Nat.lt_of_not_le fun low => starts ⟨segment, member, low⟩
  · constructor
    · rintro - ⟨_, _, _, _, _, _, above, upTo⟩
      exact wanted (Nat.lt_of_lt_of_le above upTo)
    intro _
    refine ⟨⟨[], 0, false⟩, ?_, ⟨?_, fun gone => absurd gone.1 wanted⟩, fun _ => ⟨?_, rfl⟩⟩
    rotate_left
    · intro same
      cases same
    rotate_right
    · rw [readPartitionLog, if_pos (Nat.le_of_not_lt wanted)]
    · rw [wantedFrames_nothing (Nat.le_of_not_lt wanted)]
      exact LongestRun.nil maxBytes

end Attempt

private theorem samplePayload_pos (seqNo : UInt8) : 0 < (samplePayload seqNo).length := by simp [samplePayload]

private theorem samplePayload_fits (seqNo : UInt8) : (samplePayload seqNo).length ≤ maxWalRecordBytes := by
  simp [samplePayload, setUint32, maxWalRecordBytes]

def sampleRecord (seqNo : UInt8) (decodes : decodeWalEntry sampleCodec (samplePayload seqNo) = some (sampleEntry seqNo)) :
    LogRecord sampleCodec :=
  ⟨samplePayload seqNo, sampleEntry seqNo, samplePayload_pos seqNo, samplePayload_fits seqNo, decodes⟩

set_option maxRecDepth 100000 in
/-- Two records with a gap between them, in the segment that starts with the first. -/
def gappedSegment : StoredSegment sampleCodec :=
  ⟨1, writeSegmentHeader, [sampleRecord 1 (by decide), sampleRecord 5 (by decide)]⟩

def gappedDirectory : PartitionDirectory :=
  ⟨true, ⟨some ⟨1, 1, gappedSegment.bytes.length, 5⟩, none⟩, [(1, gappedSegment.bytes)], []⟩

theorem gappedLog : LogOf gappedDirectory [gappedSegment] where
  stored := by
    refine ⟨?_, List.pairwise_singleton _ _⟩
    rintro segment (_ | ⟨_, ⟨⟩⟩)
    exact ⟨rfl, by decide, by decide, by decide⟩
  distinctWal := List.nodup_singleton _
  distinctHistory := List.nodup_nil
  wal := by
    rintro _ _ ⟨⟩ _ (_ | ⟨_, ⟨⟩⟩) _
    refine ⟨gappedSegment, List.mem_cons_self, rfl, ?_⟩
    rw [if_pos rfl]
    exact ⟨List.take_length, Nat.le_refl _⟩
  history := nofun
  listed := by
    rintro segment (_ | ⟨_, ⟨⟩⟩)
    exact .inr ⟨_, _, rfl, Nat.le_refl _, _, List.mem_cons_self, rfl⟩

theorem gappedSegment_reads :
    LogOf gappedDirectory [gappedSegment] ∧
      (ReadsRight gappedDirectory [gappedSegment] 0 5 1000 ↔ ¬ Overruns [gappedSegment] 0 5) :=
  ⟨gappedLog, readPartitionLog_skips_nothing_iff gappedLog⟩

/-- From 2 on, two frames are counted, which are all there are, and record 5 is not read. -/
theorem gappedSegment_skips_record :
    LogOf gappedDirectory [gappedSegment] ∧ ¬ ReadsRight gappedDirectory [gappedSegment] 2 5 1000 := by
  refine ⟨gappedLog, overrun_skips gappedLog (by decide) ⟨gappedSegment, [], ⟨⟨[], rfl⟩, by decide, nofun⟩, by decide, ?_⟩⟩
  exact ⟨_, List.mem_cons_of_mem _ List.mem_cons_self, by decide, by decide⟩

end Narsil.Durability
