import Narsil.DeviceFeed.Session

/-!
# What a feed session keeps

What was sent of a partition is what its log holds above the subscribed position, up to a number
that the session notes; what is not acknowledged is queued, and what is charged was taken.
-/
namespace Narsil.DeviceFeed

open Durability

structure FeedLog.Valid (log : FeedLog) : Prop where
  ascending : log.entries.Pairwise fun before after => before.seqNo < after.seqNo
  within : ∀ frame ∈ log.entries, frame.seqNo ≤ log.highestSeqNo
  durable : log.head ≤ log.highestSeqNo
  nonempty : ∀ frame ∈ log.entries, 0 < frame.payload.length

def entriesOf (logs : List FeedLog) (partitionId : Nat) : List LogFrame :=
  (logs[partitionId]?.map FeedLog.entries).getD []

def headOf (logs : List FeedLog) (partitionId : Nat) : Nat := (logs[partitionId]?.map FeedLog.head).getD 0

def highestOf (logs : List FeedLog) (partitionId : Nat) : Nat := (logs[partitionId]?.map FeedLog.highestSeqNo).getD 0

section Logs
variable {logs : List FeedLog} {p : Nat} {log : FeedLog}

theorem entriesOf_some (found : logs[p]? = some log) : entriesOf logs p = log.entries := by rw [entriesOf, found]; rfl

theorem headOf_some (found : logs[p]? = some log) : headOf logs p = log.head := by rw [headOf, found]; rfl

theorem highestOf_some (found : logs[p]? = some log) : highestOf logs p = log.highestSeqNo := by rw [highestOf, found]; rfl

theorem entriesOf_spec (valid : ∀ log ∈ logs, log.Valid) (p : Nat) : FeedLog.Valid
    ⟨entriesOf logs p, 0, headOf logs p, highestOf logs p⟩ := by
  cases found : logs[p]? with
  | none =>
    have none_ : entriesOf logs p = [] := by rw [entriesOf, found]; rfl
    exact ⟨by rw [none_]; exact .nil, by rw [none_]; exact nofun, by simp [headOf, found], by rw [none_]; exact nofun⟩
  | some log =>
    rw [entriesOf_some found, headOf_some found, highestOf_some found]
    obtain ⟨ascending, within, durable, nonempty⟩ := valid log (List.mem_of_getElem? found)
    exact ⟨ascending, within, durable, nonempty⟩

end Logs

/-- A log that only grew: entries were added behind what was persisted, and heads rose. -/
structure Grown (logs logs' : List FeedLog) : Prop where
  entries : ∀ p, ∃ more, entriesOf logs' p = entriesOf logs p ++ more ∧ ∀ frame ∈ more, highestOf logs p < frame.seqNo
  head : ∀ p, headOf logs p ≤ headOf logs' p
  highest : ∀ p, highestOf logs p ≤ highestOf logs' p

theorem Grown.wanted {logs logs' : List FeedLog} (grown : Grown logs logs') {p after upTo : Nat}
    (persisted : upTo ≤ highestOf logs p) :
    wantedFrames after upTo (entriesOf logs' p) = wantedFrames after upTo (entriesOf logs p) := by
  obtain ⟨more, same, above⟩ := grown.entries p
  have none : wantedFrames after upTo more = [] := wantedFrames_beyond fun frame member => by
    have := above frame member
    omega
  rw [same, wantedFrames, List.filter_append]
  exact (congrArg (_ ++ ·) none).trans (List.append_nil _)

def ServerMessage.framesFor (partitionId : Nat) : ServerMessage → List LogFrame
  | .entries id frames => if id = partitionId then frames else []
  | _ => []

/-- The entries of a partition in what the socket was given. -/
def framesIn (partitionId : Nat) (out : List ServerMessage) : List LogFrame :=
  out.flatMap (ServerMessage.framesFor partitionId)

theorem framesIn_append (partitionId : Nat) (out others : List ServerMessage) :
    framesIn partitionId (out ++ others) = framesIn partitionId out ++ framesIn partitionId others := List.flatMap_append

theorem framesIn_singleton (partitionId : Nat) (message : ServerMessage) :
    framesIn partitionId [message] = message.framesFor partitionId := List.flatMap_singleton ..

/-- A message that is not one of entries. -/
def ServerMessage.Plain (message : ServerMessage) : Prop := ∀ partitionId, message.framesFor partitionId = []

theorem framesIn_plain {message : ServerMessage} (plain : message.Plain) (partitionId : Nat) (out : List ServerMessage) :
    framesIn partitionId (out ++ [message]) = framesIn partitionId out := by
  rw [framesIn_append, framesIn_singleton, plain, List.append_nil]

def UnackedQueue.remaining (queue : UnackedQueue) : List Unacked := queue.items.drop queue.head

def toUnacked (frame : LogFrame) : Unacked := ⟨frame.seqNo, frame.payload.length⟩

/-- The frames above a number. -/
def above (seqNo : Nat) (frames : List LogFrame) : List LogFrame := frames.filter fun frame => decide (seqNo < frame.seqNo)

def queueAt (unacked : List UnackedQueue) (partitionId : Nat) : UnackedQueue := unacked.getD partitionId ⟨[], 0⟩

def allRemaining (unacked : List UnackedQueue) : List Unacked := unacked.flatMap UnackedQueue.remaining

def bytesOf (items : List Unacked) : Nat := (items.map Unacked.bytes).sum

theorem bytesOf_append (items others : List Unacked) : bytesOf (items ++ others) = bytesOf items + bytesOf others := by
  rw [bytesOf, List.map_append, List.sum_append, bytesOf, bytesOf]

theorem bytesOf_toUnacked (frames : List LogFrame) : bytesOf (frames.map toUnacked) = totalBytes frames := by
  rw [bytesOf, List.map_map]
  rfl

/-- The read that the pump awaits was made for what is sent and may be sent, and is answered by the log. -/
structure ReadingHolds (deps : FeedSessionDeps) (sent heads : List Nat) (logs : List FeedLog) (reading : Reading) : Prop where
  partition : reading.partitionId < sent.length
  after : reading.after = sent.getD reading.partitionId 0
  upTo : reading.upTo = heads.getD reading.partitionId 0
  behind : reading.after < reading.upTo
  most : reading.maxBytes ≤ max 1 deps.windowBytes
  reply : ∀ read, reading.reply = .ready read → read.gone = false →
    LongestRun reading.maxBytes (wantedFrames reading.after reading.upTo (entriesOf logs reading.partitionId)) read.frames

def PumpHolds (deps : FeedSessionDeps) (sent heads : List Nat) (logs : List FeedLog) : PumpAt → Prop
  | .reading reading => ReadingHolds deps sent heads logs reading
  | .refreshing partitionId (.ready bounds) => bounds.head ≤ headOf logs partitionId
  | _ => True

/-- Bounds that were found once. -/
structure BoundsHold (logs : List FeedLog) (partitionId : Nat) (bounds : PartitionBounds) : Prop where
  head : bounds.head ≤ headOf logs partitionId
  highest : bounds.highestSeqNo ≤ highestOf logs partitionId

structure SubscribeHolds (logs : List FeedLog) (task : SubscribeTask) : Prop where
  seqNos : task.seqNos.length = task.partitionCount
  stage : match task.stage with
    | .bounds reply => task.heads.length < task.partitionCount ∧
      ∀ bounds, reply = .ready bounds → BoundsHold logs task.heads.length bounds
    | _ => task.heads.length = task.partitionCount
  heads : ∀ p, task.heads.getD p 0 ≤ headOf logs p
  known : ∀ p < task.heads.length, task.seqNos.getD p 0 ≤ highestOf logs p

/-- Bounds that were found after a request, of the first partitions. -/
structure Covers (partitions : Nat) (persisted : List Nat) (found : List PartitionBounds) (reply : Reply PartitionBounds) :
    Prop where
  few : found.length ≤ partitions
  covered : ∀ p bounds, found[p]? = some bounds → persisted.getD p 0 ≤ bounds.highestSeqNo
  next : ∀ bounds, reply = .ready bounds → persisted.getD found.length 0 ≤ bounds.highestSeqNo

def CheckpointHolds (partitions : Nat) (task : CheckpointTask) : Prop :=
  match task.stage with
  | .covering found reply => Covers partitions task.persisted found reply
  | .checking covering found reply => Covers partitions task.persisted found reply ∧
    covering.length = partitions ∧ ∀ p < partitions, task.persisted.getD p 0 ≤ covering.getD p 0
  | .sleeping covering => covering.length = partitions ∧ ∀ p < partitions, task.persisted.getD p 0 ≤ covering.getD p 0
  | .finished => True

/-- An entry that was persisted when the request arrived is at most the head in the answer, or was sent before it, or the
device had it when it subscribed. -/
structure AnswerHolds (subscribedAt : List Nat) (logs : List FeedLog) (out : List ServerMessage) (answer : CheckpointAnswer) :
    Prop where
  sent : answer.before ++ [.checkpoint answer.id (positionList answer.heads)] <+: out
  whole : answer.heads.length = subscribedAt.length
  persisted : ∀ p, answer.persisted.getD p 0 ≤ highestOf logs p
  covers : ∀ p < subscribedAt.length, ∀ frame ∈ entriesOf logs p, frame.seqNo ≤ answer.persisted.getD p 0 →
    frame.seqNo ≤ answer.heads.getD p 0 ∨ frame ∈ framesIn p answer.before ∨ frame.seqNo ≤ subscribedAt.getD p 0

structure Inv (deps : FeedSessionDeps) (feed : Feed) : Prop where
  valid : ∀ log ∈ feed.logs, log.Valid
  used : feed.used = feed.others + feed.charged
  given : feed.taken = feed.given + feed.charged
  closed : feed.state = .closed → feed.charged = 0
  heads : feed.heads.length = feed.sent.length
  queues : feed.unacked.length = feed.sent.length
  positions : feed.subscribedAt.length = feed.sent.length
  acks : feed.acked.length = feed.sent.length
  awaiting : feed.state = .awaiting → feed.sent = [] ∧ feed.pump = .idle ∧ feed.checkpoints = [] ∧ feed.answers = []
  subscribing : ∀ task, feed.handling = some task → feed.state ≠ .subscribed ∧ SubscribeHolds feed.logs task
  delivered : ∀ p, framesIn p feed.out =
    wantedFrames (feed.subscribedAt.getD p 0) (feed.sent.getD p 0) (entriesOf feed.logs p)
  known : ∀ p, feed.sent.getD p 0 ≤ highestOf feed.logs p
  durable : ∀ p, feed.heads.getD p 0 ≤ headOf feed.logs p
  queued : ∀ p, (queueAt feed.unacked p).remaining = (above (feed.acked.getD p 0) (framesIn p feed.out)).map toUnacked
  bounded : ∀ p, (queueAt feed.unacked p).head ≤ (queueAt feed.unacked p).items.length
  acknowledged : ∀ p, feed.acked.getD p 0 ≤ feed.sent.getD p 0
  since : ∀ p, feed.subscribedAt.getD p 0 ≤ feed.sent.getD p 0
  counted : feed.unackedBytes = bytesOf (allRemaining feed.unacked)
  window : feed.unackedBytes ≤ deps.windowBytes ∨ (allRemaining feed.unacked).length ≤ 1
  pumping : PumpHolds deps feed.sent feed.heads feed.logs feed.pump
  requests : ∀ received ∈ feed.incoming, ∀ p, received.persisted.getD p 0 ≤ highestOf feed.logs p
  asked : ∀ task ∈ feed.checkpoints, ∀ p, task.persisted.getD p 0 ≤ highestOf feed.logs p
  checkpoints : ∀ task ∈ feed.checkpoints, CheckpointHolds feed.sent.length task
  answers : ∀ answer ∈ feed.answers, AnswerHolds feed.subscribedAt feed.logs feed.out answer

variable {deps : FeedSessionDeps} {feed : Feed}

theorem inv_opened {logs : List FeedLog} (valid : ∀ log ∈ logs, log.Valid) (index : Option FeedIndexState) (others : Nat) :
    Inv deps (Feed.opened logs index others) where
  valid := valid
  used := rfl
  given := rfl
  closed := nofun
  heads := rfl
  queues := rfl
  positions := rfl
  acks := rfl
  awaiting _ := ⟨rfl, rfl, rfl, rfl⟩
  subscribing := nofun
  delivered _ := (wantedFrames_nothing (Nat.le_refl 0) _).symm
  known _ := Nat.zero_le _
  durable _ := Nat.zero_le _
  queued _ := rfl
  bounded _ := Nat.le_refl _
  acknowledged _ := Nat.le_refl _
  since _ := Nat.le_refl _
  counted := rfl
  window := .inl (Nat.zero_le _)
  pumping := trivial
  requests := nofun
  asked := nofun
  checkpoints := nofun
  answers := nofun

end Narsil.DeviceFeed
