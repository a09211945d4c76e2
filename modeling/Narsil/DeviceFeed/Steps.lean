import Narsil.DeviceFeed.Invariant
import Mathlib.Data.List.GetD

/-!
# The steps of a feed session

Each function of the session keeps the invariant.
-/
namespace Narsil.DeviceFeed

open Durability

variable {deps : FeedSessionDeps} {feed : Feed}

/-! ### Sending and closing -/

theorem Inv.settle (inv : Inv deps feed) (bufferedAmount : Nat) : Inv deps (feed.settleBuffered bufferedAmount) := by
  have used := inv.used
  have given := inv.given
  rw [Feed.settleBuffered]
  by_cases less : (if feed.state = .closed then 0 else bufferedAmount) < feed.charged
  · simp only [if_pos less]
    refine { inv with used := ?_, given := ?_, closed := ?_ }
    · simp only [Feed.give]
      omega
    · simp only [Feed.give]
      omega
    · intro closed
      have := inv.closed closed
      simp only [Feed.give] at closed ⊢
      omega
  · simp only [if_neg less]
    refine { inv with used := ?_, given := ?_, closed := ?_ }
    · simp only
      omega
    · simp only
      omega
    · intro closed
      have := inv.closed closed
      simp only
      omega

theorem Inv.send (inv : Inv deps feed) {message : ServerMessage} (plain : message.Plain) (bufferedAmount : Nat) :
    Inv deps (feed.send message bufferedAmount) := by
  rw [Feed.send]
  split
  · exact inv
  · have sent : Inv deps { feed with out := feed.out ++ [message] } := by
      refine { inv with delivered := fun p => ?_, queued := fun p => ?_, answers := fun answer member => ?_ }
      · rw [framesIn_plain plain]
        exact inv.delivered p
      · rw [framesIn_plain plain]
        exact inv.queued p
      · obtain ⟨sent, whole, persisted, covers⟩ := inv.answers answer member
        exact ⟨sent.trans (List.prefix_append _ _), whole, persisted, covers⟩
    exact sent.settle _

theorem Inv.close_state (inv : Inv deps feed) : Inv deps { feed with state := .closed }.cleanUp :=
  { inv with
    used := by
      have used := inv.used
      simp only [Feed.cleanUp, Feed.give]
      omega
    given := by
      have given := inv.given
      simp only [Feed.cleanUp, Feed.give]
      omega
    closed := fun _ => rfl
    awaiting := nofun
    subscribing := fun task handling => ⟨nofun, (inv.subscribing task handling).2⟩ }

theorem Inv.close (inv : Inv deps feed) (code : Nat) (reason : String) : Inv deps (feed.close code reason) := by
  rw [Feed.close]
  split
  · exact inv
  · exact { inv.close_state with }

theorem Inv.closedByPeer (inv : Inv deps feed) : Inv deps feed.closedByPeer := by
  rw [Feed.closedByPeer]
  split
  · exact inv
  · exact inv.close_state

theorem Inv.resync (inv : Inv deps feed) (reason : ResyncReason) (bufferedAmount : Nat) :
    Inv deps (feed.resync reason bufferedAmount) := by
  rw [Feed.resync]
  split
  · exact inv
  · exact (inv.send (fun _ => rfl) _).close _ _

@[simp] theorem settleBuffered_state (bufferedAmount : Nat) : (feed.settleBuffered bufferedAmount).state = feed.state := by
  rw [Feed.settleBuffered]
  by_cases less : (if feed.state = .closed then 0 else bufferedAmount) < feed.charged
  · simp only [if_pos less]
    rfl
  · simp only [if_neg less]

@[simp] theorem send_state (message : ServerMessage) (bufferedAmount : Nat) :
    (feed.send message bufferedAmount).state = feed.state := by
  rw [Feed.send]
  split
  · rfl
  · exact settleBuffered_state _

theorem closed_close (code : Nat) (reason : String) : (feed.close code reason).state = .closed := by
  rw [Feed.close]
  split
  · assumption
  · rfl

theorem closed_resync (reason : ResyncReason) (bufferedAmount : Nat) : (feed.resync reason bufferedAmount).state = .closed := by
  rw [Feed.resync]
  split
  · assumption
  · exact closed_close _ _

/-! ### Starting the pump -/

theorem Inv.setPump (inv : Inv deps feed) {pump : PumpAt} (open_ : feed.state ≠ .awaiting)
    (holds : PumpHolds deps feed.sent feed.heads feed.logs pump) : Inv deps { feed with pump := pump } :=
  { inv with awaiting := fun awaiting => absurd awaiting open_, pumping := holds }

theorem Inv.refreshHeads (inv : Inv deps feed) (open_ : feed.state ≠ .awaiting) (bufferedAmount : Nat) :
    Inv deps (feed.refreshHeads bufferedAmount) := by
  rw [Feed.refreshHeads]
  split
  · exact (inv.resync _ _).setPump (by rw [closed_resync]; exact nofun) trivial
  · exact inv.setPump open_ trivial

theorem Inv.startPump (inv : Inv deps feed) (open_ : feed.state ≠ .awaiting) (bufferedAmount : Nat) :
    Inv deps (feed.startPump bufferedAmount) := by
  rw [Feed.startPump]
  split
  · exact { inv with }
  · have noted : Inv deps { feed with pumpAgain := false } := { inv with }
    exact noted.refreshHeads open_ _

theorem Inv.advance (inv : Inv deps feed) (bufferedAmount : Nat) : Inv deps (feed.advance bufferedAmount) := by
  rw [Feed.advance]
  split
  · exact inv
  · next subscribed =>
    have open_ : feed.state ≠ .awaiting := fun awaiting => subscribed (awaiting ▸ nofun)
    exact inv.startPump open_ _

theorem Inv.drained (inv : Inv deps feed) (bufferedAmount : Nat) : Inv deps (feed.drained bufferedAmount) := by
  rw [Feed.drained]
  have settled : Inv deps { feed.settleBuffered bufferedAmount with
      undrained := decide (0 < (feed.settleBuffered bufferedAmount).charged) } := { inv.settle bufferedAmount with }
  exact settled.advance _

theorem Inv.sendSettings (inv : Inv deps feed) (bufferedAmount : Nat) : Inv deps (feed.sendSettings bufferedAmount) := by
  rw [Feed.sendSettings]
  split
  · exact inv
  · exact inv.send (fun _ => rfl) _

/-! ### A log that grows -/

theorem BoundsHold.grow {logs logs' : List FeedLog} (grown : Grown logs logs') {p : Nat} {bounds : PartitionBounds}
    (holds : BoundsHold logs p bounds) : BoundsHold logs' p bounds :=
  ⟨Nat.le_trans holds.head (grown.head p), Nat.le_trans holds.highest (grown.highest p)⟩

theorem SubscribeHolds.grow {logs logs' : List FeedLog} (grown : Grown logs logs') {task : SubscribeTask}
    (holds : SubscribeHolds logs task) : SubscribeHolds logs' task where
  seqNos := holds.seqNos
  stage := by
    have stage := holds.stage
    cases at_ : task.stage with
    | bounds reply =>
      rw [at_] at stage
      exact ⟨stage.1, fun bounds ready => (stage.2 bounds ready).grow grown⟩
    | bytesBehind reply =>
      rw [at_] at stage
      exact stage
    | snapshotBytes bytesBehind reply =>
      rw [at_] at stage
      exact stage
  heads p := Nat.le_trans (holds.heads p) (grown.head p)
  known p inside := Nat.le_trans (holds.known p inside) (grown.highest p)

theorem Inv.grow (inv : Inv deps feed) {logs : List FeedLog} (grown : Grown feed.logs logs)
    (valid : ∀ log ∈ logs, log.Valid) : Inv deps { feed with logs := logs } := by
  refine { inv with valid := valid, subscribing := fun task handling => ?_, delivered := fun p => ?_,
                    known := fun p => Nat.le_trans (inv.known p) (grown.highest p),
                    durable := fun p => Nat.le_trans (inv.durable p) (grown.head p), pumping := ?_,
                    requests := fun received member p => Nat.le_trans (inv.requests received member p) (grown.highest p),
                    asked := fun task member p => Nat.le_trans (inv.asked task member p) (grown.highest p),
                    answers := fun answer member => ?_ }
  · obtain ⟨unsubscribed, holds⟩ := inv.subscribing task handling
    exact ⟨unsubscribed, holds.grow grown⟩
  · exact (inv.delivered p).trans (grown.wanted (inv.known p)).symm
  · have pumping := inv.pumping
    simp only
    cases pump : feed.pump with
    | idle => trivial
    | sentBehind => trivial
    | refreshing p reply =>
      rw [pump] at pumping
      cases reply with
      | ready bounds => exact Nat.le_trans pumping (grown.head p)
      | waiting => trivial
      | failed => trivial
    | reading reading =>
      rw [pump] at pumping
      refine { pumping with reply := fun read ready stays => ?_ }
      have durable : reading.upTo ≤ highestOf feed.logs reading.partitionId := by
        rw [pumping.upTo]
        exact Nat.le_trans (inv.durable _) (entriesOf_spec inv.valid _).durable
      rw [grown.wanted durable]
      exact pumping.reply read ready stays
  · obtain ⟨sent, whole, persisted, covers⟩ := inv.answers answer member
    refine ⟨sent, whole, fun p => Nat.le_trans (persisted p) (grown.highest p), fun p inside frame isEntry upTo => ?_⟩
    obtain ⟨more, same, above⟩ := grown.entries p
    simp only at isEntry
    rw [same] at isEntry
    rcases List.mem_append.mp isEntry with old | new
    · exact covers p inside frame old upTo
    · have := above frame new
      have := persisted p
      omega

theorem grown_set {logs : List FeedLog} {p : Nat} {log changed : FeedLog} (found : logs[p]? = some log)
    {more : List LogFrame} (entries : changed.entries = log.entries ++ more)
    (above : ∀ frame ∈ more, log.highestSeqNo < frame.seqNo) (head : log.head ≤ changed.head)
    (highest : log.highestSeqNo ≤ changed.highestSeqNo) : Grown logs (logs.set p changed) := by
  have here : (logs.set p changed)[p]? = some changed := by
    rw [List.getElem?_set_self (List.getElem?_eq_some_iff.mp found).1]
  have other : ∀ q, q ≠ p → (logs.set p changed)[q]? = logs[q]? := fun q ne => List.getElem?_set_ne (Ne.symm ne)
  refine ⟨fun q => ?_, fun q => ?_, fun q => ?_⟩
  · by_cases same : q = p
    · subst same
      exact ⟨more, by rw [entriesOf_some here, entriesOf_some found, entries], by rwa [highestOf_some found]⟩
    · exact ⟨[], by rw [entriesOf, other q same, List.append_nil]; rfl, nofun⟩
  · by_cases same : q = p
    · subst same
      rwa [headOf_some here, headOf_some found]
    · rw [headOf, headOf, other q same]
  · by_cases same : q = p
    · subst same
      rwa [highestOf_some here, highestOf_some found]
    · rw [highestOf, highestOf, other q same]

theorem Inv.changeLog (inv : Inv deps feed) {p : Nat} {allowed : FeedLog → Bool} {change : FeedLog → FeedLog} {feed' : Feed}
    (step : Feed.changeLog feed p allowed change = some feed')
    (grows : ∀ log, log.Valid → allowed log = true → (change log).Valid ∧ log.head ≤ (change log).head ∧
      log.highestSeqNo ≤ (change log).highestSeqNo ∧
      ∃ more, (change log).entries = log.entries ++ more ∧ ∀ frame ∈ more, log.highestSeqNo < frame.seqNo) :
    Inv deps feed' := by
  obtain ⟨log, found, changed⟩ := Option.bind_eq_some_iff.mp step
  simp only [Option.ite_none_right_eq_some, Option.some.injEq] at changed
  obtain ⟨ok, rfl⟩ := changed
  obtain ⟨valid, head, highest, more, entries, above⟩ := grows log (inv.valid log (List.mem_of_getElem? found)) ok
  refine inv.grow (grown_set found entries above head highest) fun other member => ?_
  rcases List.mem_or_eq_of_mem_set member with old | rfl
  · exact inv.valid other old
  · exact valid

/-! ### Positions -/

theorem positionsByPartition_length {positions : List SyncPosition} {partitionCount : Nat} {seqNos : List Nat}
    (found : positionsByPartition positions partitionCount = some seqNos) : seqNos.length = partitionCount := by
  have keeps : ∀ (positions : List SyncPosition) (start left : List (Option Nat)),
      positions.foldlM (fun (seqNos : List (Option Nat)) position =>
        if position.partitionId ≥ partitionCount ∨ (seqNos.getD position.partitionId none).isSome then none
        else some (seqNos.set position.partitionId (some position.seqNo))) start = some left →
        left.length = start.length := by
    intro positions
    induction positions with
    | nil =>
      rintro start left ⟨⟩
      rfl
    | cons position rest ih =>
      intro start left all
      obtain ⟨next, first, others⟩ := Option.bind_eq_some_iff.mp ((List.foldlM_cons ..).symm.trans all)
      simp only [Option.ite_none_left_eq_some, Option.some.injEq] at first
      obtain ⟨-, rfl⟩ := first
      rw [ih _ _ others, List.length_set]
  rw [positionsByPartition] at found
  split at found
  · cases found
  · obtain ⟨left, all, rfl⟩ := Option.map_eq_some_iff.mp found
    rw [List.length_map, keeps _ _ _ all, List.length_replicate]

theorem getD_zipWith {values others : List Nat} (same : values.length = others.length) {combine : Nat → Nat → Nat}
    (zero : combine 0 0 = 0) (p : Nat) :
    (List.zipWith combine values others).getD p 0 = combine (values.getD p 0) (others.getD p 0) := by
  induction values generalizing others p with
  | nil =>
    cases others with
    | nil => simp [zero]
    | cons _ _ => cases same
  | cons value values ih =>
    cases others with
    | nil => cases same
    | cons other others =>
      cases p with
      | zero => rfl
      | succ p => exact ih (Nat.succ.inj same) p

/-! ### Acknowledgements -/

theorem release_spec (seqNo : Nat) (items : List Unacked) (head unackedBytes : Nat) :
    Feed.release seqNo items head unackedBytes =
      (head + (items.takeWhile fun item => decide (item.seqNo ≤ seqNo)).length,
        unackedBytes - bytesOf (items.takeWhile fun item => decide (item.seqNo ≤ seqNo))) := by
  induction items generalizing head unackedBytes with
  | nil => rfl
  | cons item rest ih =>
    rw [Feed.release]
    by_cases passed : item.seqNo ≤ seqNo
    · rw [if_pos passed, ih, List.takeWhile_cons_of_pos (by simpa using passed)]
      simp only [List.length_cons, bytesOf, List.map_cons, List.sum_cons, Prod.mk.injEq]
      omega
    · rw [if_neg passed, List.takeWhile_cons_of_neg (by simpa using passed)]
      rfl

theorem compacted_remaining (queue : UnackedQueue) : (Feed.compacted queue).remaining = queue.remaining := by
  rw [Feed.compacted]
  split
  · rfl
  · rfl

theorem compacted_bounded {queue : UnackedQueue} (within : queue.head ≤ queue.items.length) :
    (Feed.compacted queue).head ≤ (Feed.compacted queue).items.length := by
  rw [Feed.compacted]
  split
  · exact Nat.zero_le _
  · exact within

theorem bytesOf_sublist {items others : List Unacked} (sub : items.Sublist others) : bytesOf items ≤ bytesOf others := by
  induction sub with
  | slnil => exact Nat.le_refl _
  | cons item _ ih =>
    rw [bytesOf, bytesOf, List.map_cons, List.sum_cons]
    exact Nat.le_trans ih (Nat.le_add_left _ _)
  | cons_cons item _ ih =>
    rw [bytesOf, bytesOf, List.map_cons, List.map_cons, List.sum_cons, List.sum_cons]
    exact Nat.add_le_add_left ih _

theorem releaseAll_spec {queues : List UnackedQueue} {seqNos : List Nat} {unackedBytes extra : Nat}
    (same : queues.length = seqNos.length) (counted : unackedBytes = bytesOf (allRemaining queues) + extra) :
    ∃ left, Feed.releaseAll queues seqNos unackedBytes = (left, bytesOf (allRemaining left) + extra) ∧
      left.length = queues.length ∧ (allRemaining left).Sublist (allRemaining queues) ∧
      (∀ p, (queueAt left p).remaining =
        (queueAt queues p).remaining.dropWhile fun item => decide (item.seqNo ≤ seqNos.getD p 0)) ∧
      ((∀ p, (queueAt queues p).head ≤ (queueAt queues p).items.length) →
        ∀ p, (queueAt left p).head ≤ (queueAt left p).items.length) := by
  induction queues generalizing seqNos unackedBytes extra with
  | nil => exact ⟨[], by rw [Feed.releaseAll, counted]; simp, rfl, .slnil, fun _ => rfl, id⟩
  | cons queue queues ih =>
    cases seqNos with
    | nil => cases same
    | cons seqNo seqNos =>
      have parts := @List.takeWhile_append_dropWhile _ (fun item => decide (item.seqNo ≤ seqNo)) queue.remaining
      have bytes := congrArg bytesOf parts
      rw [bytesOf_append] at bytes
      rw [allRemaining, List.flatMap_cons, bytesOf_append] at counted
      -- What is left of this queue counts as extra for those behind it.
      obtain ⟨left, all, length, sub, each, bounded⟩ := @ih seqNos
        (unackedBytes - bytesOf (queue.remaining.takeWhile fun item => decide (item.seqNo ≤ seqNo)))
        (bytesOf (queue.remaining.dropWhile fun item => decide (item.seqNo ≤ seqNo)) + extra) (Nat.succ.inj same) (by
          rw [allRemaining]
          omega)
      have remaining : (Feed.compacted ⟨queue.items, queue.head +
          (queue.remaining.takeWhile fun item => decide (item.seqNo ≤ seqNo)).length⟩).remaining =
            queue.remaining.dropWhile fun item => decide (item.seqNo ≤ seqNo) := by
        rw [compacted_remaining, UnackedQueue.remaining, ← List.drop_drop]
        conv => lhs; rw [← UnackedQueue.remaining]; arg 2; rw [← parts]
        rw [List.drop_left]
      refine ⟨Feed.compacted ⟨queue.items, queue.head +
        (queue.remaining.takeWhile fun item => decide (item.seqNo ≤ seqNo)).length⟩ :: left, ?_, congrArg (· + 1) length, ?_,
        fun p => ?_, fun within p => ?_⟩
      · rw [Feed.releaseAll, release_spec, ← UnackedQueue.remaining]
        simp only [all]
        refine Prod.ext rfl ?_
        have whole : ∀ first : UnackedQueue, bytesOf (allRemaining (first :: left)) =
            bytesOf first.remaining + bytesOf (allRemaining left) := fun first => by
          rw [allRemaining, List.flatMap_cons, bytesOf_append, ← allRemaining]
        rw [whole, remaining]
        simp only
        omega
      · rw [allRemaining, allRemaining, List.flatMap_cons, List.flatMap_cons, remaining]
        exact (List.dropWhile_sublist _).append sub
      · cases p with
        | zero => exact remaining
        | succ p => exact each p
      · cases p with
        | zero =>
          have first : queue.head ≤ queue.items.length := within 0
          have taken := congrArg List.length parts
          rw [List.length_append, UnackedQueue.remaining, List.length_drop] at taken
          refine compacted_bounded ?_
          simp only [UnackedQueue.remaining]
          omega
        | succ p => exact bounded (fun q => within (q + 1)) p

theorem above_above (frames : List LogFrame) (seqNo other : Nat) : above other (above seqNo frames) = above (max seqNo other) frames := by
  rw [above, above, above, List.filter_filter]
  refine List.filter_congr fun frame _ => ?_
  rw [← Bool.decide_and, decide_eq_decide]
  omega

theorem dropWhile_toUnacked {frames : List LogFrame} (seqNo : Nat)
    (ascending : frames.Pairwise fun before after => before.seqNo < after.seqNo) :
    (frames.map toUnacked).dropWhile (fun item => decide (item.seqNo ≤ seqNo)) = (above seqNo frames).map toUnacked := by
  induction frames with
  | nil => rfl
  | cons frame rest ih =>
    obtain ⟨behind, ascending⟩ := List.pairwise_cons.mp ascending
    rw [List.map_cons]
    by_cases passed : frame.seqNo ≤ seqNo
    · have first : decide ((toUnacked frame).seqNo ≤ seqNo) = true := decide_eq_true passed
      have not_above : ¬ decide (seqNo < frame.seqNo) = true := fun less => by
        have := of_decide_eq_true less
        omega
      rw [List.dropWhile_cons, if_pos first, ih ascending, above, above, List.filter_cons, if_neg not_above]
    · have first : ¬ decide ((toUnacked frame).seqNo ≤ seqNo) = true := fun le => passed (of_decide_eq_true le)
      rw [List.dropWhile_cons, if_neg first, above, List.filter_eq_self.mpr, List.map_cons]
      intro other member
      rcases List.mem_cons.mp member with rfl | later
      · simpa using passed
      · have := behind other later
        simp only [decide_eq_true_eq]
        omega

theorem Inv.framesIn_ascending (inv : Inv deps feed) (p : Nat) :
    (framesIn p feed.out).Pairwise fun before after => before.seqNo < after.seqNo := by
  rw [inv.delivered p]
  exact (entriesOf_spec inv.valid p).ascending.sublist List.filter_sublist

theorem Inv.acknowledge (inv : Inv deps feed) (subscribed : feed.state = .subscribed) (positions : List SyncPosition)
    (bufferedAmount : Nat) : Inv deps (feed.acknowledge positions bufferedAmount) := by
  rw [Feed.acknowledge]
  split
  · exact inv.close _ _
  · next seqNos found =>
    have length := positionsByPartition_length found
    split
    · exact inv.close _ _
    · next below =>
      have counted : feed.unackedBytes = bytesOf (allRemaining feed.unacked) + 0 := inv.counted
      obtain ⟨left, all, size, sub, each, bounded⟩ := releaseAll_spec (inv.queues.trans length.symm) counted
      rw [Nat.add_zero] at all
      simp only [all]
      have sameLength : feed.acked.length = seqNos.length := inv.acks.trans length.symm
      have released : Inv deps { feed with
          unacked := left
          unackedBytes := bytesOf (allRemaining left)
          acked := List.zipWith max feed.acked seqNos } := by
        refine { inv with queues := size.trans inv.queues, acks := ?_, queued := fun p => ?_, bounded := bounded inv.bounded,
                          acknowledged := fun p => ?_, counted := rfl, window := ?_ }
        · rw [List.length_zipWith, sameLength, Nat.min_self, length]
        · have ascending : (above (feed.acked.getD p 0) (framesIn p feed.out)).Pairwise
              fun before after => before.seqNo < after.seqNo := (inv.framesIn_ascending p).sublist List.filter_sublist
          simp only
          rw [each p, inv.queued p, getD_zipWith sameLength (Nat.max_self 0), ← above_above,
            dropWhile_toUnacked _ ascending]
        · simp only
          rw [getD_zipWith sameLength (Nat.max_self 0)]
          refine Nat.max_le.mpr ⟨inv.acknowledged p, ?_⟩
          by_cases inside : p < seqNos.length
          · by_contra above
            exact below (List.any_eq_true.mpr ⟨p, List.mem_range.mpr inside, by simpa using Nat.lt_of_not_le above⟩)
          · rw [List.getD_eq_default _ _ (Nat.le_of_not_lt inside)]
            exact Nat.zero_le _
        · have less : bytesOf (allRemaining left) ≤ bytesOf (allRemaining feed.unacked) :=
            bytesOf_sublist sub
          have counted := inv.counted
          rcases inv.window with fits | single
          · left
            simp only
            omega
          · exact .inr (Nat.le_trans sub.length_le single)
      exact released.startPump (by simp only [subscribed]; exact nofun) _

/-! ### Messages and the subscription -/

theorem persistedNow_getD (p : Nat) : feed.persistedNow.getD p 0 = highestOf feed.logs p := by
  rw [Feed.persistedNow, highestOf, List.getD_eq_getElem?_getD, List.getElem?_map]

theorem Inv.receive (inv : Inv deps feed) (incoming : Incoming) : Inv deps (feed.receive incoming) := by
  unfold Feed.receive
  split
  · exact inv
  · cases incoming with
    | text => exact inv.close _ _
    | tooLong => exact inv.close _ _
    | invalid => exact inv.close _ _
    | message message =>
      refine { inv with requests := fun received member p => ?_ }
      rcases List.mem_append.mp member with old | new
      · exact inv.requests received old p
      · rw [List.mem_singleton.mp new, persistedNow_getD]

theorem Inv.subscribe (inv : Inv deps feed) (awaiting : feed.state = .awaiting) (epoch : String)
    (positions : List SyncPosition) (bufferedAmount : Nat) : Inv deps (feed.subscribe epoch positions bufferedAmount) := by
  rw [Feed.subscribe]
  cases feed.index with
  | none => exact inv.close _ _
  | some index =>
    simp only
    split
    · exact inv.resync _ _
    · split
      · exact inv.close _ _
      · next seqNos found =>
        refine { inv with subscribing := ?_ }
        rintro task ⟨⟩
        refine ⟨by simp only [awaiting]; exact nofun, positionsByPartition_length found, ?_, fun _ => Nat.zero_le _, nofun⟩
        by_cases none_ : index.partitionCount = 0
        · simp only [if_pos none_]
          exact none_.symm
        · simp only [if_neg none_]
          exact ⟨Nat.pos_of_ne_zero none_, nofun⟩

theorem Inv.handleMessage (inv : Inv deps feed) {received : Received}
    (persisted : ∀ p, received.persisted.getD p 0 ≤ highestOf feed.logs p) (bufferedAmount : Nat) :
    Inv deps (feed.handleMessage received bufferedAmount) := by
  rw [Feed.handleMessage]
  split
  · exact inv
  · cases received.message with
    | subscribe epoch positions =>
      simp only
      split
      · exact inv.close _ _
      · next awaiting => exact inv.subscribe (Decidable.not_not.mp awaiting) _ _ _
    | ack positions =>
      simp only
      split
      · exact inv.close _ _
      · next subscribed => exact inv.acknowledge (Decidable.not_not.mp subscribed) _ _
    | checkpoint id =>
      simp only
      split
      · exact inv.close _ _
      · next subscribed =>
        have subscribed := Decidable.not_not.mp subscribed
        refine { inv with awaiting := fun awaiting => ?_, asked := fun task member => ?_, checkpoints := fun task member => ?_ }
        · rw [subscribed] at awaiting
          cases awaiting
        · rcases List.mem_append.mp member with old | new
          · exact inv.asked task old
          · rw [List.mem_singleton.mp new]
            exact persisted
        · rcases List.mem_append.mp member with old | new
          · exact inv.checkpoints task old
          · rw [List.mem_singleton.mp new]
            exact ⟨Nat.zero_le _, nofun, nofun⟩

theorem Inv.handle (inv : Inv deps feed) {bufferedAmount : Nat} {feed' : Feed}
    (step : feed.handle bufferedAmount = some feed') : Inv deps feed' := by
  rw [Feed.handle] at step
  split at step
  · next received rest _ incoming =>
    obtain rfl := Option.some.inj step
    have persisted := inv.requests received (by rw [incoming]; exact List.mem_cons_self)
    have popped : Inv deps { feed with incoming := rest } := { inv with
      requests := fun other member => inv.requests other (by rw [incoming]; exact List.mem_cons_of_mem _ member) }
    exact popped.handleMessage persisted _
  · cases step

theorem queueAt_replicate (n p : Nat) : queueAt (List.replicate n ⟨[], 0⟩) p = ⟨[], 0⟩ := by
  rw [queueAt, List.getD_eq_getElem?_getD, List.getElem?_replicate]
  split
  · rfl
  · rfl

theorem allRemaining_replicate (n : Nat) : allRemaining (List.replicate n ⟨[], 0⟩) = [] := by
  refine List.flatMap_eq_nil_iff.mpr fun queue member => ?_
  rw [List.eq_of_mem_replicate member]
  rfl

theorem Inv.subscribed (inv : Inv deps feed) {task : SubscribeTask} (ended : feed.handling = none)
    (unsubscribed : feed.state ≠ .subscribed)
    (holds : SubscribeHolds feed.logs task) (whole : task.heads.length = task.partitionCount)
    (bytesBehind snapshotBytes bufferedAmount : Nat) :
    Inv deps (feed.subscribed deps task bytesBehind snapshotBytes bufferedAmount) := by
  rw [Feed.subscribed]
  split
  · exact inv
  · next notClosed =>
    split
    · exact inv.resync _ _
    · have awaiting : feed.state = .awaiting := by
        cases state : feed.state with
        | awaiting => rfl
        | subscribed => exact absurd state unsubscribed
        | closed => exact absurd state notClosed
      -- Nothing was sent, queued or answered before.
      obtain ⟨nothing, idle, none_, unanswered⟩ := inv.awaiting awaiting
      have noQueue : feed.unacked = [] := List.eq_nil_of_length_eq_zero (by rw [inv.queues, nothing]; rfl)
      have noFrames : ∀ p, framesIn p feed.out = [] := fun p => by
        rw [inv.delivered p, nothing]
        exact wantedFrames_nothing (Nat.zero_le _) _
      have started : Inv deps { feed with
          epoch := task.epoch
          sent := task.seqNos
          heads := task.heads
          unacked := feed.unacked ++ List.replicate task.partitionCount ⟨[], 0⟩
          state := .subscribed
          subscribedAt := task.seqNos
          acked := task.seqNos } := by
        refine { inv with heads := whole.trans holds.seqNos.symm, queues := ?_, positions := rfl, acks := rfl,
                          awaiting := nofun, closed := nofun, subscribing := ?_, delivered := fun p => ?_,
                          known := fun p => ?_, durable := holds.heads, queued := fun p => ?_, bounded := fun p => ?_,
                          acknowledged := fun _ => Nat.le_refl _, since := fun _ => Nat.le_refl _, counted := ?_, window := .inr ?_, pumping := ?_,
                          checkpoints := ?_, answers := ?_ }
        · rw [noQueue, List.nil_append, List.length_replicate]
          exact holds.seqNos.symm
        · intro other handling
          rw [ended] at handling
          cases handling
        · rw [noFrames]
          exact (wantedFrames_nothing (Nat.le_refl _) _).symm
        · simp only
          by_cases inside : p < task.heads.length
          · exact holds.known p inside
          · rw [List.getD_eq_default _ _ (by rw [holds.seqNos]; omega)]
            exact Nat.zero_le _
        · simp only
          rw [noQueue, List.nil_append, queueAt_replicate, noFrames]
          rfl
        · simp only
          rw [noQueue, List.nil_append, queueAt_replicate]
          exact Nat.le_refl _
        · simp only
          rw [inv.counted, noQueue, List.nil_append, allRemaining_replicate]
          rfl
        · simp only
          rw [noQueue, List.nil_append, allRemaining_replicate]
          exact Nat.zero_le _
        · simp only
          rw [idle]
          trivial
        · simp only
          rw [none_]
          exact nofun
        · simp only
          rw [unanswered]
          exact nofun
      refine (started.send (fun _ => rfl) _).startPump ?_ _
      rw [send_state]
      exact nofun

theorem Inv.resumeSubscribe (inv : Inv deps feed) {bufferedAmount : Nat} {feed' : Feed}
    (step : feed.resumeSubscribe deps bufferedAmount = some feed') : Inv deps feed' := by
  obtain ⟨task, handling, step⟩ := Option.bind_eq_some_iff.mp step
  obtain ⟨unsubscribed, holds⟩ := inv.subscribing task handling
  have ended : Inv deps { feed with handling := none } := { inv with subscribing := nofun }
  have stage := holds.stage
  cases here : task.stage with
  | bounds reply =>
    rw [here] at stage step
    cases reply with
    | waiting => cases step
    | failed =>
      obtain rfl := Option.some.inj step
      exact ended.close _ _
    | ready bounds =>
      simp only at step
      split at step
      · obtain rfl := Option.some.inj step
        exact ended.resync _ _
      · split at step
        · obtain rfl := Option.some.inj step
          exact ended.resync _ _
        · next held =>
          obtain rfl := Option.some.inj step
          obtain ⟨more, found⟩ := stage
          have found := found bounds rfl
          refine { inv with subscribing := ?_ }
          rintro _ ⟨⟩
          refine ⟨unsubscribed, holds.seqNos, ?_, fun p => ?_, fun p inside => ?_⟩
          · simp only [List.length_append, List.length_singleton]
            by_cases left : task.heads.length + 1 < task.partitionCount
            · simp only [if_pos left]
              exact ⟨left, nofun⟩
            · simp only [if_neg left]
              omega
          · rw [List.getD_eq_getElem?_getD, List.getElem?_append]
            split
            · rw [← List.getD_eq_getElem?_getD]
              exact holds.heads p
            · next behind =>
              by_cases last : p = task.heads.length
              · subst last
                rw [Nat.sub_self]
                exact found.head
              · rw [List.getElem?_eq_none (by rw [List.length_singleton]; omega)]
                exact Nat.zero_le _
          · rw [List.length_append, List.length_singleton] at inside
            by_cases last : p = task.heads.length
            · subst last
              exact Nat.le_trans (Nat.le_of_not_lt held) found.highest
            · exact holds.known p (by omega)
  | bytesBehind reply =>
    rw [here] at stage step
    cases reply with
    | waiting => cases step
    | failed =>
      obtain rfl := Option.some.inj step
      exact ended.close _ _
    | ready bytes =>
      obtain rfl := Option.some.inj step
      refine { inv with subscribing := ?_ }
      rintro _ ⟨⟩
      exact ⟨unsubscribed, holds.seqNos, stage, holds.heads, holds.known⟩
  | snapshotBytes bytesBehind reply =>
    rw [here] at stage step
    cases reply with
    | waiting => cases step
    | failed =>
      obtain rfl := Option.some.inj step
      exact ended.close _ _
    | ready bytes =>
      obtain rfl := Option.some.inj step
      exact ended.subscribed rfl unsubscribed holds stage _ _ _

/-! ### Checkpoint requests -/

theorem Inv.setCheckpoint (inv : Inv deps feed) {i : Nat} {task : CheckpointTask} (found : feed.checkpoints[i]? = some task)
    {stage : CheckpointStage} (holds : CheckpointHolds feed.sent.length { task with stage := stage }) :
    Inv deps (feed.setCheckpoint i task stage) := by
  have isTask := List.mem_of_getElem? found
  refine { inv with awaiting := fun awaiting => ?_, asked := fun other member => ?_, checkpoints := fun other member => ?_ }
  · obtain ⟨nothing, idle, none_, unanswered⟩ := inv.awaiting awaiting
    rw [none_] at isTask
    cases isTask
  · rcases List.mem_or_eq_of_mem_set member with old | rfl
    · exact inv.asked other old
    · exact inv.asked task isTask
  · rcases List.mem_or_eq_of_mem_set member with old | rfl
    · exact inv.checkpoints other old
    · exact holds

theorem Covers.ended {partitions : Nat} {persisted : List Nat} {found : List PartitionBounds} {reply : Reply PartitionBounds}
    (covers : Covers partitions persisted found reply) (all : ¬ found.length < partitions) :
    (found.map PartitionBounds.highestSeqNo).length = partitions ∧
      ∀ p < partitions, persisted.getD p 0 ≤ (found.map PartitionBounds.highestSeqNo).getD p 0 := by
  have size : found.length = partitions := Nat.le_antisymm covers.few (Nat.le_of_not_lt all)
  refine ⟨by rw [List.length_map, size], fun p inside => ?_⟩
  have within : p < found.length := size ▸ inside
  have here : (found.map PartitionBounds.highestSeqNo).getD p 0 = found[p].highestSeqNo := by
    rw [List.getD_eq_getElem?_getD, List.getElem?_map, List.getElem?_eq_getElem within]
    rfl
  rw [here]
  exact covers.covered p _ (List.getElem?_eq_getElem _)

theorem Covers.found {partitions : Nat} {persisted : List Nat} {found : List PartitionBounds} {bounds : PartitionBounds}
    (covers : Covers partitions persisted found (.ready bounds)) (more : found.length < partitions) :
    Covers partitions persisted (found ++ [bounds]) .waiting := by
  refine ⟨by rw [List.length_append]; exact more, fun p other here => ?_, nofun⟩
  rw [List.getElem?_append] at here
  split at here
  · exact covers.covered p other here
  · next behind =>
    by_cases last : p = found.length
    · subst last
      rw [Nat.sub_self] at here
      cases here
      exact covers.next bounds rfl
    · rw [List.getElem?_eq_none (by rw [List.length_singleton]; omega)] at here
      cases here

theorem Inv.checkAgain (inv : Inv deps feed) {i : Nat} {task : CheckpointTask} (found : feed.checkpoints[i]? = some task)
    {covering : List Nat} (size : covering.length = feed.sent.length)
    (covers : ∀ p < feed.sent.length, task.persisted.getD p 0 ≤ covering.getD p 0) :
    Inv deps (feed.checkAgain i task covering) := by
  refine inv.setCheckpoint found ?_
  split
  · exact ⟨⟨Nat.zero_le _, nofun, nofun⟩, size, covers⟩
  · trivial

theorem Inv.sendHeads (inv : Inv deps feed) {task : CheckpointTask} {heads : List Nat}
    (size : heads.length = feed.sent.length) (persisted : ∀ p, task.persisted.getD p 0 ≤ highestOf feed.logs p)
    (covers : ∀ p < feed.sent.length, task.persisted.getD p 0 ≤ max (heads.getD p 0) (feed.sent.getD p 0))
    (open_ : feed.state ≠ .awaiting) (bufferedAmount : Nat) : Inv deps (feed.sendHeads task heads bufferedAmount) := by
  rw [Feed.sendHeads, Feed.send]
  by_cases closed : feed.state = .closed
  · simp only [if_pos closed]
    exact { inv with }
  · simp only [if_neg closed]
    have sent : Inv deps { feed with
        out := feed.out ++ [.checkpoint task.id (positionList heads)]
        answers := feed.answers ++ [⟨task.id, task.persisted, feed.out, heads⟩] } := by
      have plain : (ServerMessage.checkpoint task.id (positionList heads)).Plain := fun _ => rfl
      refine { inv with awaiting := fun awaiting => absurd awaiting open_, delivered := fun p => ?_, queued := fun p => ?_,
                        answers := fun answer member => ?_ }
      · rw [framesIn_plain plain]
        exact inv.delivered p
      · rw [framesIn_plain plain]
        exact inv.queued p
      · rcases List.mem_append.mp member with old | new
        · obtain ⟨sent, whole, persisted, covers⟩ := inv.answers answer old
          exact ⟨sent.trans (List.prefix_append _ _), whole, persisted, covers⟩
        · obtain rfl := List.mem_singleton.mp new
          refine ⟨List.prefix_rfl, size.trans inv.positions.symm, persisted, fun p inside frame isEntry upTo => ?_⟩
          have reached := covers p (inv.positions ▸ inside)
          by_cases low : frame.seqNo ≤ heads.getD p 0
          · exact .inl low
          · by_cases had : frame.seqNo ≤ feed.subscribedAt.getD p 0
            · exact .inr (.inr had)
            · -- What is above the head in the answer is at most the number that was sent to.
              refine .inr (.inl ?_)
              simp only
              rw [inv.delivered p]
              refine List.mem_filter.mpr ⟨isEntry, ?_⟩
              simp only [Bool.and_eq_true, decide_eq_true_eq]
              simp only at upTo
              omega
    exact sent.settle _

theorem Inv.resumeCheckpoint (inv : Inv deps feed) {i bufferedAmount : Nat} {feed' : Feed}
    (step : feed.resumeCheckpoint i bufferedAmount = some feed') : Inv deps feed' := by
  obtain ⟨task, found, step⟩ := Option.bind_eq_some_iff.mp step
  have isTask := List.mem_of_getElem? found
  have holds := inv.checkpoints task isTask
  have ended : Inv deps (feed.setCheckpoint i task .finished) := inv.setCheckpoint found trivial
  have open_ : feed.state ≠ .awaiting := fun awaiting => by
    obtain ⟨-, -, none_, -⟩ := inv.awaiting awaiting
    rw [none_] at isTask
    cases isTask
  rw [CheckpointHolds] at holds
  cases here : task.stage with
  | finished =>
    rw [here] at step
    cases step
  | sleeping covering =>
    rw [here] at step holds
    obtain rfl := Option.some.inj step
    exact inv.checkAgain found holds.1 holds.2
  | covering bounds reply =>
    rw [here] at step holds
    simp only at step holds
    split at step
    · next more =>
      cases reply with
      | waiting => cases step
      | failed =>
        obtain rfl := Option.some.inj step
        exact ended.close _ _
      | ready next =>
        obtain rfl := Option.some.inj step
        exact inv.setCheckpoint found (holds.found more)
    · next all =>
      obtain rfl := Option.some.inj step
      obtain ⟨size, covers⟩ := holds.ended all
      exact inv.checkAgain found size covers
  | checking covering bounds reply =>
    rw [here] at step holds
    simp only at step holds
    obtain ⟨found_, size, covers⟩ := holds
    split at step
    · next more =>
      cases reply with
      | waiting => cases step
      | failed =>
        obtain rfl := Option.some.inj step
        exact ended.close _ _
      | ready next =>
        obtain rfl := Option.some.inj step
        exact inv.setCheckpoint found ⟨found_.found more, size, covers⟩
    · next all =>
      obtain ⟨size', covers'⟩ := found_.ended all
      have both : ∀ p < feed.sent.length, task.persisted.getD p 0 ≤
          (List.zipWith min covering (bounds.map PartitionBounds.highestSeqNo)).getD p 0 := fun p inside => by
        rw [getD_zipWith (size.trans size'.symm) (Nat.min_self 0)]
        exact Nat.le_min.mpr ⟨covers p inside, covers' p inside⟩
      have sizes : bounds.length = feed.sent.length := by rwa [List.length_map] at size'
      split at step
      · next covered =>
        obtain rfl := Option.some.inj step
        refine (ended.sendHeads (by rw [List.length_map, sizes]; rfl) (inv.asked task isTask) (fun p inside => ?_) open_ _).advance _
        refine Nat.le_trans (both p inside) ?_
        exact of_decide_eq_true (List.all_eq_true.mp covered p (List.mem_range.mpr (sizes ▸ inside)))
      · obtain rfl := Option.some.inj step
        refine inv.setCheckpoint found ⟨?_, both⟩
        rw [List.length_zipWith, size, size', Nat.min_self]

end Narsil.DeviceFeed
