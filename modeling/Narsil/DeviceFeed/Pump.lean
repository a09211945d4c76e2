import Narsil.DeviceFeed.Steps

/-!
# The pump of a feed session

A read that was made for what is sent goes on from there when it is sent, so the frames of a
partition stay those of its log, and the window holds but for one frame.
-/
namespace Narsil.DeviceFeed

open Durability

variable {deps : FeedSessionDeps} {feed : Feed}

/-! ### Frames in turn -/

section Wanted
variable {frames run : List LogFrame} {since sent upTo : Nat}

theorem wantedFrames_split (ascending : frames.Pairwise fun before after => before.seqNo < after.seqNo)
    (low : since ≤ sent) (high : sent ≤ upTo) :
    wantedFrames since upTo frames = wantedFrames since sent frames ++ wantedFrames sent upTo frames := by
  induction frames with
  | nil => rfl
  | cons frame rest ih =>
    obtain ⟨behind, ascending⟩ := List.pairwise_cons.mp ascending
    have ih := ih ascending
    rw [wantedFrames] at ih ⊢
    by_cases first : since < frame.seqNo ∧ frame.seqNo ≤ sent
    · rw [wantedFrames, wantedFrames, List.filter_cons_of_pos (by simp; omega), List.filter_cons_of_pos (by simp; omega),
        List.filter_cons_of_neg (by simp; omega), ih]
      rfl
    · by_cases second : sent < frame.seqNo ∧ frame.seqNo ≤ upTo
      · have none : wantedFrames since sent rest = [] := wantedFrames_beyond fun other member => by
          have := behind other member
          omega
        rw [none] at ih
        rw [wantedFrames, wantedFrames, List.filter_cons_of_pos (by simp; omega), List.filter_cons_of_neg (by simp; omega),
          List.filter_cons_of_pos (by simp; omega), ih]
        exact congrArg (· ++ _) none.symm
      · rw [wantedFrames, wantedFrames, List.filter_cons_of_neg (by simp; omega), List.filter_cons_of_neg (by simp; omega),
          List.filter_cons_of_neg (by simp; omega), ih]
        rfl

theorem wantedFrames_continued (ascending : frames.Pairwise fun before after => before.seqNo < after.seqNo)
    (low : since ≤ sent) {last : LogFrame} (starts : run ++ [last] <+: wantedFrames sent upTo frames) :
    wantedFrames since last.seqNo frames = wantedFrames since sent frames ++ (run ++ [last]) := by
  obtain ⟨rest, all⟩ := starts
  have member : last ∈ wantedFrames sent upTo frames := by
    rw [← all]
    simp
  have range := (List.mem_filter.mp member).2
  simp only [Bool.and_eq_true, decide_eq_true_eq] at range
  have order : ((run ++ [last]) ++ rest).Pairwise fun before after => before.seqNo < after.seqNo := by
    rw [all]
    exact ascending.sublist List.filter_sublist
  rw [List.pairwise_append, List.pairwise_append] at order
  have parts : wantedFrames sent upTo frames = wantedFrames sent last.seqNo frames ++ wantedFrames last.seqNo upTo frames :=
    wantedFrames_split ascending (Nat.le_of_lt range.1) range.2
  rw [wantedFrames_split ascending low (Nat.le_of_lt range.1)]
  congr 1
  -- Both split the wanted frames at the last frame of the run.
  have taken : (wantedFrames sent upTo frames).filter (fun frame => decide (frame.seqNo ≤ last.seqNo)) =
      wantedFrames sent last.seqNo frames := by
    rw [parts, List.filter_append, List.filter_eq_self.mpr, List.filter_eq_nil_iff.mpr, List.append_nil]
    · intro frame inside
      have := (List.mem_filter.mp inside).2
      simp at this ⊢
      omega
    · intro frame inside
      have := (List.mem_filter.mp inside).2
      simp at this ⊢
      omega
  rw [← taken, ← all, List.filter_append, List.filter_eq_self.mpr, List.filter_eq_nil_iff.mpr, List.append_nil]
  · intro frame inside
    have := order.2.2 last (by simp) frame inside
    simp
    omega
  · intro frame inside
    rcases List.mem_append.mp inside with before | same
    · have := order.1.2.2 frame before last (by simp)
      simp
      omega
    · rw [List.mem_singleton.mp same]
      simp

end Wanted

/-! ### The queues -/

theorem queueAt_set {unacked : List UnackedQueue} {p : Nat} (inside : p < unacked.length) (queue : UnackedQueue) (q : Nat) :
    queueAt (unacked.set p queue) q = if q = p then queue else queueAt unacked q := by
  rw [queueAt, List.getD_eq_getElem?_getD, List.getElem?_set]
  by_cases same : p = q
  · subst same
    rw [if_pos rfl, if_pos inside, if_pos rfl]
    rfl
  · rw [if_neg same, if_neg (Ne.symm same), queueAt, List.getD_eq_getElem?_getD]

theorem getD_set {values : List Nat} {p : Nat} (inside : p < values.length) (value q : Nat) :
    (values.set p value).getD q 0 = if q = p then value else values.getD q 0 := by
  rw [List.getD_eq_getElem?_getD, List.getElem?_set]
  by_cases same : p = q
  · subst same
    rw [if_pos rfl, if_pos inside, if_pos rfl]
    rfl
  · rw [if_neg same, if_neg (Ne.symm same), List.getD_eq_getElem?_getD]

theorem allRemaining_set {unacked : List UnackedQueue} {p : Nat} (inside : p < unacked.length) {queue : UnackedQueue}
    {items : List Unacked} (added : queue.remaining = (queueAt unacked p).remaining ++ items) :
    (allRemaining (unacked.set p queue)).Perm (allRemaining unacked ++ items) := by
  have here : queueAt unacked p = unacked[p] := List.getD_eq_getElem unacked _ inside
  have parts : unacked = unacked.take p ++ unacked[p] :: unacked.drop (p + 1) := by
    rw [← List.drop_eq_getElem_cons inside, List.take_append_drop]
  rw [List.set_eq_take_append_cons_drop, if_pos inside]
  conv => rhs; rw [parts]
  rw [allRemaining, allRemaining, List.flatMap_append, List.flatMap_append, List.flatMap_cons, List.flatMap_cons, added, here,
    List.append_assoc, List.append_assoc, List.append_assoc]
  exact ((List.perm_append_comm).append_left _).append_left _

theorem bytesOf_perm {items others : List Unacked} (same : items.Perm others) : bytesOf items = bytesOf others :=
  (same.map Unacked.bytes).sum_nat

theorem Inv.nothing_remains (inv : Inv deps feed) (none_ : feed.unackedBytes = 0) : allRemaining feed.unacked = [] := by
  refine List.flatMap_eq_nil_iff.mpr fun queue member => ?_
  obtain ⟨p, inside, here⟩ := List.mem_iff_getElem.mp member
  have same : queueAt feed.unacked p = queue := by
    rw [queueAt, List.getD_eq_getElem _ _ inside, here]
  by_contra some_
  obtain ⟨item, isItem⟩ := List.exists_mem_of_ne_nil _ some_
  have queued := inv.queued p
  rw [same] at queued
  have item_frame := isItem
  rw [queued] at item_frame
  obtain ⟨frame, isFrame, rfl⟩ := List.mem_map.mp item_frame
  have inLog : frame ∈ entriesOf feed.logs p := by
    have sent := List.mem_of_mem_filter isFrame
    rw [inv.delivered p] at sent
    exact List.mem_of_mem_filter sent
  have bytes := (entriesOf_spec inv.valid p).nonempty frame inLog
  have counted := inv.counted
  have part : bytesOf [toUnacked frame] ≤ bytesOf (allRemaining feed.unacked) :=
    bytesOf_sublist (List.singleton_sublist.mpr (List.mem_flatMap.mpr ⟨queue, member, isItem⟩))
  have one : bytesOf [toUnacked frame] = frame.payload.length := by simp [bytesOf, toUnacked]
  omega

/-! ### Sending a read -/

/-- The frames may be sent next: they continue what was sent, and the window holds them. -/
structure Sendable (deps : FeedSessionDeps) (feed : Feed) (partitionId : Nat) (frames : List LogFrame) : Prop where
  subscribed : feed.state = .subscribed
  partition : partitionId < feed.sent.length
  some_frames : frames ≠ []
  starts : frames <+: wantedFrames (feed.sent.getD partitionId 0) (feed.heads.getD partitionId 0)
    (entriesOf feed.logs partitionId)
  allows : Feed.windowAllows deps (totalBytes frames) feed
  fits : totalBytes frames ≤ deps.windowBytes ∨ frames.length ≤ 1

theorem Inv.sendEntries (inv : Inv deps feed) {p : Nat} {frames : List LogFrame} (sendable : Sendable deps feed p frames)
    (quiet : feed.pump = .sentBehind) (messageBytes bufferedAmount : Nat) :
    Inv deps (Feed.sendEntries p frames messageBytes bufferedAmount
      { feed with used := feed.used + messageBytes, taken := feed.taken + messageBytes }) := by
  obtain ⟨run, last, rfl⟩ : ∃ run last, frames = run ++ [last] := by
    rcases List.eq_nil_or_concat frames with none_ | ⟨run, last, all⟩
    · exact absurd none_ sendable.some_frames
    · exact ⟨run, last, by rw [all, List.concat_eq_append]⟩
  have inside := sendable.partition
  have inQueues : p < feed.unacked.length := inv.queues ▸ inside
  have ascending := (entriesOf_spec inv.valid p).ascending
  have member : last ∈ wantedFrames (feed.sent.getD p 0) (feed.heads.getD p 0) (entriesOf feed.logs p) :=
    sendable.starts.subset (by simp)
  have range := (List.mem_filter.mp member).2
  simp only [Bool.and_eq_true, decide_eq_true_eq] at range
  have lastSeqNo : ((run ++ [last]).getLast?.map LogFrame.seqNo).getD 0 = last.seqNo := by simp
  have pushed : (Feed.pushUnacked (queueAt feed.unacked p) (run ++ [last])).remaining =
      (queueAt feed.unacked p).remaining ++ (run ++ [last]).map toUnacked := by
    rw [UnackedQueue.remaining, Feed.pushUnacked, List.drop_append_of_le_length (inv.bounded p)]
    rfl
  have whole := allRemaining_set inQueues pushed
  have mine : ∀ q, framesIn q (feed.out ++ [.entries p (run ++ [last])]) =
      if q = p then framesIn q feed.out ++ (run ++ [last]) else framesIn q feed.out := fun q => by
    rw [framesIn_append, framesIn_singleton, ServerMessage.framesFor]
    by_cases same : q = p
    · rw [if_pos same.symm, if_pos same]
    · rw [if_neg (Ne.symm same), if_neg same, List.append_nil]
  have sentLast : ∀ q, feed.sent.getD q 0 ≤ (feed.sent.set p last.seqNo).getD q 0 := fun q => by
    rw [getD_set inside]
    split
    · next same =>
      subst same
      exact Nat.le_of_lt range.1
    · exact Nat.le_refl _
  have sent : Inv deps { feed with
      used := feed.used + messageBytes
      taken := feed.taken + messageBytes
      charged := feed.charged + messageBytes
      unacked := feed.unacked.set p (Feed.pushUnacked (queueAt feed.unacked p) (run ++ [last]))
      unackedBytes := feed.unackedBytes + totalBytes (run ++ [last])
      sent := feed.sent.set p last.seqNo
      out := feed.out ++ [.entries p (run ++ [last])] } := by
    refine { inv with
      used := ?_, given := ?_, closed := ?_, heads := ?_, queues := ?_, positions := ?_, acks := ?_, awaiting := ?_,
      delivered := fun q => ?_, known := fun q => ?_, queued := fun q => ?_, bounded := fun q => ?_,
      acknowledged := fun q => Nat.le_trans (inv.acknowledged q) (sentLast q),
      since := fun q => Nat.le_trans (inv.since q) (sentLast q), counted := ?_, window := ?_, pumping := ?_,
      checkpoints := ?_, answers := fun answer member => ?_ }
    · have used := inv.used
      simp only
      omega
    · have given := inv.given
      simp only
      omega
    · intro closed
      cases sendable.subscribed.symm.trans closed
    · rw [List.length_set]
      exact inv.heads
    · rw [List.length_set, List.length_set]
      exact inv.queues
    · rw [List.length_set]
      exact inv.positions
    · rw [List.length_set]
      exact inv.acks
    · intro awaiting
      cases sendable.subscribed.symm.trans awaiting
    · simp only
      rw [mine q, getD_set inside]
      by_cases same : q = p
      · subst same
        rw [if_pos rfl, if_pos rfl, inv.delivered q, wantedFrames_continued ascending (inv.since q) sendable.starts]
      · rw [if_neg same, if_neg same]
        exact inv.delivered q
    · simp only
      rw [getD_set inside]
      by_cases same : q = p
      · subst same
        rw [if_pos rfl]
        exact (entriesOf_spec inv.valid q).within last (List.mem_of_mem_filter member)
      · rw [if_neg same]
        exact inv.known q
    · simp only
      rw [queueAt_set inQueues, mine q]
      by_cases same : q = p
      · subst same
        have all_above : above (feed.acked.getD q 0) (run ++ [last]) = run ++ [last] := by
          refine List.filter_eq_self.mpr fun frame isFrame => ?_
          have high := (List.mem_filter.mp (sendable.starts.subset isFrame)).2
          simp only [Bool.and_eq_true, decide_eq_true_eq] at high ⊢
          have := inv.acknowledged q
          omega
        have joined : above (feed.acked.getD q 0) (framesIn q feed.out ++ (run ++ [last])) =
            above (feed.acked.getD q 0) (framesIn q feed.out) ++ (run ++ [last]) := by
          rw [above, List.filter_append]
          exact congrArg (_ ++ ·) all_above
        rw [if_pos rfl, if_pos rfl, pushed, inv.queued q, joined]
        exact List.map_append.symm
      · rw [if_neg same, if_neg same]
        exact inv.queued q
    · simp only
      rw [queueAt_set inQueues]
      split
      · have within := inv.bounded p
        simp only [Feed.pushUnacked, List.length_append]
        omega
      · exact inv.bounded q
    · simp only
      rw [bytesOf_perm whole, bytesOf_append, bytesOf_toUnacked, inv.counted]
    · rcases sendable.allows with nothing | allowed
      · rcases sendable.fits with fits | single
        · left
          simp only
          omega
        · right
          simp only
          rw [whole.length_eq, inv.nothing_remains nothing, List.nil_append, List.length_map]
          exact single
      · exact .inl allowed
    · simp only
      rw [quiet]
      trivial
    · intro task isTask
      simp only
      rw [List.length_set]
      exact inv.checkpoints task isTask
    · obtain ⟨before, whole, persisted, covers⟩ := inv.answers answer member
      exact ⟨before.trans (List.prefix_append _ _), whole, persisted, covers⟩
  have open_ : ¬ feed.state = .closed := by
    intro closed
    cases sendable.subscribed.symm.trans closed
  rw [Feed.sendEntries, Feed.send, if_neg open_, lastSeqNo]
  exact sent.settle _

/-! ### Passes over the partitions -/

theorem scan_reads {partitionIds : List Nat} {p : Nat} (scanned : Feed.scan deps feed partitionIds = .reads p) :
    p ∈ partitionIds ∧ feed.state = .subscribed ∧ feed.sent.getD p 0 < feed.heads.getD p 0 := by
  induction partitionIds with
  | nil => cases scanned
  | cons id rest ih =>
    rw [Feed.scan] at scanned
    split at scanned
    · obtain ⟨member, here⟩ := ih scanned
      exact ⟨List.mem_cons_of_mem _ member, here⟩
    · next behind =>
      split at scanned
      · cases scanned
      · obtain rfl := Feed.Scan.reads.inj scanned
        rw [not_or, Decidable.not_not, Nat.not_le] at behind
        exact ⟨List.mem_cons_self, behind⟩

theorem Inv.startRead (inv : Inv deps feed) (open_ : feed.state ≠ .awaiting) {p : Nat}
    (behind : feed.sent.getD p 0 < feed.heads.getD p 0) (progressed : Bool) :
    Inv deps (Feed.startRead deps p progressed feed) := by
  have inside : p < feed.sent.length := by
    rw [← inv.heads]
    by_contra outside
    rw [List.getD_eq_default feed.heads _ (Nat.le_of_not_lt outside)] at behind
    exact Nat.not_lt_zero _ behind
  refine inv.setPump open_ ⟨inside, rfl, rfl, behind, ?_, nofun⟩
  have room : (if feed.unackedBytes = 0 then deps.windowBytes else deps.windowBytes - feed.unackedBytes) ≤ deps.windowBytes := by
    split
    · exact Nat.le_refl _
    · exact Nat.sub_le _ _
  simp only
  omega

theorem Inv.sendBehind (inv : Inv deps feed) (open_ : feed.state ≠ .awaiting) (progressed : Bool) (partitionIds : List Nat) :
    Inv deps (Feed.sendBehind deps progressed partitionIds feed) := by
  have ended : Inv deps { feed with pump := .sentBehind } := inv.setPump open_ trivial
  rw [Feed.sendBehind]
  split
  · exact ended
  · next p scanned => exact inv.startRead open_ (scan_reads scanned).2.2 _
  · split
    · split
      · next p scanned => exact inv.startRead open_ (scan_reads scanned).2.2 _
      · exact ended
    · exact ended

theorem length_le_totalBytes {frames : List LogFrame} (nonempty : ∀ frame ∈ frames, 1 ≤ frame.payload.length) :
    frames.length ≤ totalBytes frames := by
  induction frames with
  | nil => exact Nat.zero_le _
  | cons frame rest ih =>
    obtain ⟨first, others⟩ := List.forall_mem_cons.mp nonempty
    have := ih others
    rw [List.length_cons, totalBytes_cons]
    omega

theorem Inv.sendable (inv : Inv deps feed) {reading : Reading} (holds : ReadingHolds deps feed.sent feed.heads feed.logs reading)
    {read : FeedRead} (ready : reading.reply = .ready read) (stays : read.gone = false) (subscribed : feed.state = .subscribed)
    (some_frames : read.frames ≠ []) (allows : Feed.windowAllows deps (totalBytes read.frames) feed) :
    Sendable deps feed reading.partitionId read.frames := by
  obtain ⟨starts, fits, -⟩ := holds.reply read ready stays
  have most := holds.most
  refine ⟨subscribed, holds.partition, some_frames, holds.after ▸ holds.upTo ▸ starts, allows, ?_⟩
  rcases fits with single | fits
  · exact .inr single
  · by_cases window : 1 ≤ deps.windowBytes
    · left
      omega
    · -- Without a window one byte is read, and each frame has one.
      right
      have bytes : read.frames.length ≤ totalBytes read.frames := by
        have nonempty : ∀ frame ∈ read.frames, 1 ≤ frame.payload.length := fun frame member =>
          (entriesOf_spec inv.valid _).nonempty frame (List.mem_of_mem_filter (starts.subset member))
        exact length_le_totalBytes nonempty
      omega

theorem Inv.sendRead (inv : Inv deps feed) {reading : Reading} (pump : feed.pump = .reading reading) {read : FeedRead}
    (ready : reading.reply = .ready read) (bufferedAmount : Nat) : Inv deps (Feed.sendRead deps reading read bufferedAmount feed) := by
  have holds : ReadingHolds deps feed.sent feed.heads feed.logs reading := by
    have pumping := inv.pumping
    rwa [pump] at pumping
  have open_ : feed.state ≠ .awaiting := fun awaiting => by
    have idle := (inv.awaiting awaiting).2.1
    rw [pump] at idle
    cases idle
  have ended : Inv deps { feed with pump := .sentBehind } := inv.setPump open_ trivial
  rw [Feed.sendRead]
  simp only
  split
  · exact ended
  · next subscribed =>
    have subscribed := Decidable.not_not.mp subscribed
    split
    · exact ended.resync _ _
    · next stays =>
      have stays := Bool.eq_false_iff.mpr stays
      -- The read was made from what is sent on, so no frame of it is sent yet.
      have unsent : read.frames.filter (fun frame => decide (frame.seqNo > feed.sent.getD reading.partitionId 0)) = read.frames := by
        refine List.filter_eq_self.mpr fun frame member => ?_
        have range := (List.mem_filter.mp ((holds.reply read ready stays).starts.subset member)).2
        have after := holds.after
        simp only [Bool.and_eq_true, decide_eq_true_eq] at range ⊢
        omega
      rw [unsent]
      split
      · exact ended.sendBehind open_ _ _
      · next some_frames =>
        split
        · exact ended
        · next allows =>
          have allows := Decidable.not_not.mp allows
          have sendable := inv.sendable holds ready stays subscribed (List.ne_nil_of_length_pos (Nat.pos_of_ne_zero some_frames))
            allows
          split
          · exact ended
          · next charged taken =>
            rw [Feed.take, Option.ite_none_left_eq_some] at taken
            obtain rfl := Option.some.inj taken.2
            have sendable : Sendable deps { feed with pump := .sentBehind } reading.partitionId read.frames :=
              ⟨sendable.1, sendable.2, sendable.3, sendable.4, sendable.5, sendable.6⟩
            refine (ended.sendEntries sendable rfl _ bufferedAmount).sendBehind ?_ _ _
            rw [Feed.sendEntries, send_state]
            exact open_

theorem refreshed_heads (inv : Inv deps feed) {p : Nat} {bounds : PartitionBounds} (inside : p < feed.heads.length)
    (found : bounds.head ≤ headOf feed.logs p) (q : Nat) :
    (feed.heads.set p (max (feed.heads.getD p 0) bounds.head)).getD q 0 ≤ headOf feed.logs q := by
  rw [getD_set inside]
  split
  · next same =>
    subst same
    exact Nat.max_le.mpr ⟨inv.durable q, found⟩
  · exact inv.durable q

theorem Inv.resumePump (inv : Inv deps feed) {bufferedAmount : Nat} {feed' : Feed}
    (step : feed.resumePump deps bufferedAmount = some feed') : Inv deps feed' := by
  have pumping := inv.pumping
  have open_ : feed.pump ≠ .idle → feed.state ≠ .awaiting := fun busy awaiting => busy (inv.awaiting awaiting).2.1
  have failed : Inv deps { feed.fail with pump := .idle } := by
    have closed : Inv deps feed.fail := inv.close _ _
    refine { closed with awaiting := fun awaiting => ?_, pumping := trivial }
    obtain ⟨nothing, -, rest⟩ := closed.awaiting awaiting
    exact ⟨nothing, rfl, rest⟩
  rw [Feed.resumePump] at step
  cases pump : feed.pump with
  | idle =>
    rw [pump] at step
    cases step
  | refreshing p reply =>
    have open_ := open_ (by rw [pump]; exact nofun)
    rw [pump] at step pumping
    simp only at step
    split at step
    · next inside =>
      cases reply with
      | waiting => cases step
      | failed =>
        obtain rfl := Option.some.inj step
        exact failed
      | ready bounds =>
        obtain rfl := Option.some.inj step
        exact { inv with
          heads := (List.length_set ..).trans inv.heads
          awaiting := fun awaiting => absurd awaiting open_
          durable := refreshed_heads inv inside pumping
          pumping := trivial }
    · obtain rfl := Option.some.inj step
      exact inv.sendBehind open_ _ _
  | reading reading =>
    rw [pump] at step
    cases reply : reading.reply with
    | waiting =>
      simp only [reply] at step
      cases step
    | failed =>
      simp only [reply] at step
      obtain rfl := Option.some.inj step
      exact failed
    | ready read =>
      simp only [reply] at step
      obtain rfl := Option.some.inj step
      exact inv.sendRead pump reply _
  | sentBehind =>
    have open_ := open_ (by rw [pump]; exact nofun)
    rw [pump] at step
    simp only at step
    split at step
    · obtain rfl := Option.some.inj step
      have quiet : Inv deps { feed with pump := .sentBehind } := inv.setPump open_ trivial
      have noted : Inv deps { feed with pump := .sentBehind, pumpAgain := false } := { quiet with }
      exact noted.refreshHeads open_ _
    · obtain rfl := Option.some.inj step
      have scheduled : Inv deps feed.scheduleRetryWhileUndurable := by
        rw [Feed.scheduleRetryWhileUndurable]
        split
        · exact inv
        · split
          · exact { inv with }
          · exact inv
      refine { scheduled with awaiting := fun awaiting => ?_, pumping := trivial }
      obtain ⟨nothing, -, rest⟩ := scheduled.awaiting awaiting
      exact ⟨nothing, rfl, rest⟩

/-! ### Answers of the source -/

theorem FeedLog.read_longest {log : FeedLog} (valid : log.Valid) {afterSeqNo upToSeqNo maxBytes : Nat}
    (behind : afterSeqNo < upToSeqNo) (stays : (log.read afterSeqNo upToSeqNo maxBytes).gone = false) :
    LongestRun maxBytes (wantedFrames afterSeqNo upToSeqNo log.entries) (log.read afterSeqNo upToSeqNo maxBytes).frames := by
  rw [FeedLog.read, if_neg (Nat.not_le_of_lt behind)] at stays ⊢
  split at stays
  · cases stays
  · next held =>
    rw [if_neg held]
    obtain ⟨run, result, longest⟩ := @readInTurn_longest afterSeqNo upToSeqNo maxBytes _ valid.ascending
    rw [result]
    exact longest

theorem boundsReply_holds {p : Nat} {bounds : PartitionBounds} (ready : feed.boundsReply p = .ready bounds) :
    BoundsHold feed.logs p bounds := by
  rw [Feed.boundsReply] at ready
  split at ready
  · cases ready
  · next log found =>
    obtain rfl := Reply.ready.inj ready
    exact ⟨(headOf_some found).ge, (highestOf_some found).ge⟩

theorem Inv.answerCall (inv : Inv deps feed) {fails : Bool} {caller : Feed.Caller} {feed' : Feed}
    (step : feed.answerCall fails caller = some feed') : Inv deps feed' := by
  cases caller with
  | pump =>
    have pumping := inv.pumping
    have open_ : feed.pump ≠ .idle → feed.state ≠ .awaiting := fun busy awaiting => busy (inv.awaiting awaiting).2.1
    simp only [Feed.answerCall] at step
    split at step
    · next p pump =>
      have open_ := open_ (by rw [pump]; exact nofun)
      split at step
      · obtain rfl := Option.some.inj step
        refine inv.setPump open_ ?_
        cases fails with
        | true => trivial
        | false =>
          simp only [Bool.false_eq_true, if_false]
          cases reply : feed.boundsReply p with
          | waiting => trivial
          | failed => trivial
          | ready bounds => exact (boundsReply_holds reply).head
      · cases step
    · next reading pump =>
      have open_ := open_ (by rw [pump]; exact nofun)
      split at step
      · obtain rfl := Option.some.inj step
        rw [pump] at pumping
        refine inv.setPump open_ { pumping with reply := fun read ready stays => ?_ }
        cases fails with
        | true => cases ready
        | false =>
          simp only [Bool.false_eq_true, if_false, Feed.readReply] at ready
          split at ready
          · cases ready
          · next log found =>
            obtain rfl := Reply.ready.inj ready
            rw [entriesOf_some found]
            exact FeedLog.read_longest (inv.valid log (List.mem_of_getElem? found)) pumping.behind stays
      · cases step
    · cases step
  | subscribe =>
    obtain ⟨task, handling, step⟩ := Option.bind_eq_some_iff.mp step
    obtain ⟨unsubscribed, holds⟩ := inv.subscribing task handling
    have stage := holds.stage
    simp only at step
    split at step
    · next here =>
      obtain rfl := Option.some.inj step
      rw [here] at stage
      refine { inv with subscribing := ?_ }
      rintro _ ⟨⟩
      refine ⟨unsubscribed, holds.seqNos, ⟨stage.1, fun bounds ready => ?_⟩, holds.heads, holds.known⟩
      cases fails with
      | true => cases ready
      | false => exact boundsReply_holds ready
    · next here =>
      obtain rfl := Option.some.inj step
      rw [here] at stage
      refine { inv with subscribing := ?_ }
      rintro _ ⟨⟩
      exact ⟨unsubscribed, holds.seqNos, stage, holds.heads, holds.known⟩
    · next here =>
      obtain rfl := Option.some.inj step
      rw [here] at stage
      refine { inv with subscribing := ?_ }
      rintro _ ⟨⟩
      exact ⟨unsubscribed, holds.seqNos, stage, holds.heads, holds.known⟩
    · cases step
  | checkpoint i =>
    obtain ⟨task, found, step⟩ := Option.bind_eq_some_iff.mp step
    have isTask := List.mem_of_getElem? found
    have holds := inv.checkpoints task isTask
    have persisted := inv.asked task isTask
    rw [CheckpointHolds] at holds
    have answered : ∀ bounds : List PartitionBounds, ∀ next,
        (if fails = true then .failed else feed.boundsReply bounds.length) = Reply.ready next →
          bounds.length < feed.sent.length → task.persisted.getD bounds.length 0 ≤ next.highestSeqNo := by
      intro bounds next ready inside
      cases fails with
      | true => cases ready
      | false =>
        simp only [Bool.false_eq_true, if_false, Feed.boundsReply] at ready
        split at ready
        · cases ready
        · next log here =>
          obtain rfl := Reply.ready.inj ready
          exact Nat.le_trans (persisted _) (highestOf_some here).le
    simp only at step
    split at step
    · next bounds here =>
      rw [here] at holds
      obtain ⟨more, step⟩ := (Option.ite_none_right_eq_some ..).mp step
      obtain rfl := Option.some.inj step
      exact inv.setCheckpoint found ⟨holds.few, holds.covered, fun next ready => answered bounds next ready more⟩
    · next covering bounds here =>
      rw [here] at holds
      obtain ⟨more, step⟩ := (Option.ite_none_right_eq_some ..).mp step
      obtain rfl := Option.some.inj step
      exact inv.setCheckpoint found
        ⟨⟨holds.1.few, holds.1.covered, fun next ready => answered bounds next ready more⟩, holds.2⟩
    · cases step

/-! ### Every action -/

theorem Inv.next (inv : Inv deps feed) {action : Feed.Action} {feed' : Feed} (step : feed.next deps action = some feed') :
    Inv deps feed' := by
  cases action with
  | append p frame =>
    refine inv.changeLog step fun log valid allowed => ?_
    obtain ⟨later, bytes⟩ := of_decide_eq_true allowed
    refine ⟨⟨?_, ?_, ?_, ?_⟩, Nat.le_refl _, Nat.le_of_lt later, [frame], rfl, List.forall_mem_singleton.mpr later⟩
    · refine List.pairwise_append.mpr ⟨valid.ascending, List.pairwise_singleton _ _, fun before member after new => ?_⟩
      rw [List.mem_singleton.mp new]
      exact Nat.lt_of_le_of_lt (valid.within before member) later
    · intro other member
      rcases List.mem_append.mp member with old | new
      · exact Nat.le_trans (valid.within other old) (Nat.le_of_lt later)
      · rw [List.mem_singleton.mp new]
    · exact Nat.le_trans valid.durable (Nat.le_of_lt later)
    · intro other member
      rcases List.mem_append.mp member with old | new
      · exact valid.nonempty other old
      · rwa [List.mem_singleton.mp new]
  | raise p head =>
    refine inv.changeLog step fun log valid allowed => ?_
    obtain ⟨higher, durable⟩ := of_decide_eq_true allowed
    exact ⟨⟨valid.ascending, valid.within, durable, valid.nonempty⟩, higher, Nat.le_refl _, [], (List.append_nil _).symm, nofun⟩
  | trim p oldest =>
    refine inv.changeLog step fun log valid _ => ?_
    exact ⟨⟨valid.ascending, valid.within, valid.durable, valid.nonempty⟩, Nat.le_refl _, Nat.le_refl _, [],
      (List.append_nil _).symm, nofun⟩
  | setIndex index =>
    obtain rfl := Option.some.inj step
    exact { inv with }
  | othersTake bytes =>
    obtain ⟨-, taken⟩ := (Option.ite_none_left_eq_some ..).mp step
    obtain rfl := Option.some.inj taken
    have used := inv.used
    refine { inv with used := ?_ }
    simp only
    omega
  | othersGive bytes bufferedAmount =>
    obtain ⟨held, given⟩ := (Option.ite_none_right_eq_some ..).mp step
    obtain rfl := Option.some.inj given
    have used := inv.used
    have freed : Inv deps { feed with used := feed.used - bytes, others := feed.others - bytes } := by
      refine { inv with used := ?_ }
      simp only
      omega
    split
    · exact freed.advance _
    · exact freed
  | receive incoming =>
    obtain rfl := Option.some.inj step
    exact inv.receive _
  | handle bufferedAmount => exact inv.handle step
  | answer caller => exact inv.answerCall step
  | failCall caller => exact inv.answerCall step
  | resumePump bufferedAmount => exact inv.resumePump step
  | resumeSubscribe bufferedAmount => exact inv.resumeSubscribe step
  | resumeCheckpoint i bufferedAmount => exact inv.resumeCheckpoint step
  | advance bufferedAmount =>
    obtain rfl := Option.some.inj step
    exact inv.advance _
  | retryFires bufferedAmount =>
    obtain ⟨-, fired⟩ := (Option.ite_none_right_eq_some ..).mp step
    obtain rfl := Option.some.inj fired
    have cleared : Inv deps { feed with retry := false } := { inv with }
    exact cleared.advance _
  | drained bufferedAmount =>
    obtain rfl := Option.some.inj step
    exact inv.drained _
  | sendSettings bufferedAmount =>
    obtain rfl := Option.some.inj step
    exact inv.sendSettings _
  | resync bufferedAmount =>
    obtain rfl := Option.some.inj step
    exact inv.resync _ _
  | close code reason =>
    obtain rfl := Option.some.inj step
    exact inv.close _ _
  | closedByPeer =>
    obtain rfl := Option.some.inj step
    exact inv.closedByPeer

/-! ### Every run -/

/-- The frames that were sent and are not acknowledged, over all partitions. -/
def unackedFrames (feed : Feed) : List LogFrame :=
  (List.range feed.sent.length).flatMap fun p => above (feed.acked.getD p 0) (framesIn p feed.out)

/-- What holds of a session at any time. Of each partition, what was sent are the log's entries above the subscribed position
up to some number. What is not acknowledged is within the window, or is one frame. What was taken of the budget was given back
but for what is charged, and nothing is charged once the session is closed. -/
structure Served (deps : FeedSessionDeps) (feed : Feed) : Prop where
  sent : ∀ p, framesIn p feed.out <+: above (feed.subscribedAt.getD p 0) (entriesOf feed.logs p)
  unacked : feed.unackedBytes = totalBytes (unackedFrames feed)
  window : feed.unackedBytes ≤ deps.windowBytes ∨ (unackedFrames feed).length ≤ 1
  budget : feed.taken = feed.given + feed.charged ∧ feed.used = feed.others + feed.charged
  closed : feed.state = .closed → feed.charged = 0
  answers : ∀ answer ∈ feed.answers, AnswerHolds feed.subscribedAt feed.logs feed.out answer

theorem wantedFrames_starts {frames : List LogFrame} (ascending : frames.Pairwise fun before after => before.seqNo < after.seqNo)
    (since upTo : Nat) : wantedFrames since upTo frames <+: above since frames := by
  induction frames with
  | nil => exact List.nil_prefix
  | cons frame rest ih =>
    obtain ⟨behind, ascending⟩ := List.pairwise_cons.mp ascending
    have ih := ih ascending
    rw [wantedFrames] at ih ⊢
    by_cases low : since < frame.seqNo
    · have first : above since (frame :: rest) = frame :: above since rest := List.filter_cons_of_pos (by simpa using low)
      rw [first]
      by_cases within : frame.seqNo ≤ upTo
      · rw [List.filter_cons_of_pos (by simp; omega)]
        exact List.cons_prefix_cons.mpr ⟨rfl, ih⟩
      · rw [← wantedFrames, wantedFrames_beyond (List.forall_mem_cons.mpr ⟨Nat.lt_of_not_le within, fun other member => ?_⟩)]
        · exact List.nil_prefix
        · have := behind other member
          omega
    · have first : above since (frame :: rest) = above since rest := List.filter_cons_of_neg (by simpa using low)
      rw [first, List.filter_cons_of_neg (by simp; omega)]
      exact ih

theorem Inv.remaining (inv : Inv deps feed) : allRemaining feed.unacked = (unackedFrames feed).map toUnacked := by
  have queues : feed.unacked = (List.range feed.sent.length).map (queueAt feed.unacked) := by
    rw [← inv.queues]
    refine List.ext_getElem (by simp) fun p inside _ => ?_
    rw [List.getElem_map, List.getElem_range, queueAt, List.getD_eq_getElem _ _ inside]
  rw [allRemaining, unackedFrames, List.map_flatMap]
  conv => lhs; rw [queues]
  rw [List.flatMap_map]
  exact List.flatMap_congr fun p _ => inv.queued p

theorem Inv.served (inv : Inv deps feed) : Served deps feed where
  sent p := by
    rw [inv.delivered p]
    exact wantedFrames_starts (entriesOf_spec inv.valid p).ascending _ _
  unacked := by rw [inv.counted, inv.remaining, bytesOf_toUnacked]
  window := by
    have window := inv.window
    rwa [inv.remaining, List.length_map] at window
  budget := ⟨inv.given, inv.used⟩
  closed := inv.closed
  answers := inv.answers

def sampleDeps : FeedSessionDeps := ⟨100, 1000, ⟨fun text => text.toUTF8.toList, fun n => [n.toUInt8]⟩⟩

/-- Entry 10 is persisted, and entry 8 is durable. -/
def sampleLog : FeedLog := ⟨[⟨8, [1, 2], 10⟩, ⟨10, [3], 9⟩], 8, 8, 10⟩

/-- A device subscribes, and asks for the heads. -/
def askedFrom (seqNo : Nat) : List Feed.Action :=
  [.receive (.message (.subscribe "e" [⟨0, seqNo⟩])), .handle 0, .answer .subscribe, .resumeSubscribe 0, .answer .subscribe,
    .resumeSubscribe 0, .answer .subscribe, .resumeSubscribe 0, .receive (.message (.checkpoint 1)), .handle 0,
    .answer (.checkpoint 0), .resumeCheckpoint 0 0, .resumeCheckpoint 0 0, .answer (.checkpoint 0), .resumeCheckpoint 0 0,
    .resumeCheckpoint 0 0]

theorem sampleLog_valid : ∀ log ∈ [sampleLog], log.Valid := by
  intro log member
  obtain rfl := List.mem_singleton.mp member
  exact ⟨by decide, by decide, by decide, by decide⟩

end Narsil.DeviceFeed
