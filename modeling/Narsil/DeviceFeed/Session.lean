import Narsil.Durability.LogReads
import Narsil.Transition.Run

/-!
# A feed session

One connection of a device: its session, the logs that it is fed from, the budget that it shares
with other sessions, and its socket. A session's code runs from one await to the next without
a break; a call that is awaited is answered by one action and gone on with by another, so that
everything else can happen in between.
-/
namespace Narsil.DeviceFeed

open Durability

abbrev SYNC_CLOSE_POLICY : Nat := 1008
abbrev SYNC_CLOSE_TOO_LARGE : Nat := 1009
abbrev SYNC_CLOSE_SERVER_ERROR : Nat := 1011
abbrev SYNC_CLOSE_RESYNC : Nat := 4410
abbrev ENTRIES_MESSAGE_LIMIT_BYTES : Nat := 1048576

structure SyncPosition where
  partitionId : Nat
  seqNo : Nat
  deriving DecidableEq

inductive DeviceMessage
  | subscribe (epoch : String) (positions : List SyncPosition)
  | ack (positions : List SyncPosition)
  | checkpoint (id : Nat)
  deriving DecidableEq

/-- What arrives on the socket, by what decoding it answers. -/
inductive Incoming
  | text
  | tooLong
  | invalid
  | message (message : DeviceMessage)
  deriving DecidableEq

inductive ResyncReason
  | epoch
  | history
  | ahead
  deriving DecidableEq

def ResyncReason.text : ResyncReason → String
  | epoch => "epoch"
  | history => "history"
  | ahead => "ahead"

inductive ServerMessage
  | subscribed (epoch : String) (partitionCount : Nat) (heads : List SyncPosition) (bytesBehind snapshotBytes windowBytes : Nat)
  | entries (partitionId : Nat) (frames : List LogFrame)
  | settings
  | checkpoint (id : Nat) (heads : List SyncPosition)
  | resync (reason : ResyncReason)
  deriving DecidableEq

/-- A number for each partition, where each is named once; a partition not named so far has none. -/
def positionsByPartition (positions : List SyncPosition) (partitionCount : Nat) : Option (List Nat) :=
  if positions.length ≠ partitionCount then none
  else
    (positions.foldlM (fun (seqNos : List (Option Nat)) position =>
        if position.partitionId ≥ partitionCount ∨ (seqNos.getD position.partitionId none).isSome then none
        else some (seqNos.set position.partitionId (some position.seqNo)))
      (List.replicate partitionCount none)).map fun seqNos => seqNos.map fun seqNo => seqNo.getD 0

def positionList (seqNos : List Nat) : List SyncPosition :=
  seqNos.zipIdx.map fun (seqNo, partitionId) => ⟨partitionId, seqNo⟩

/-- The package's encoding of the values that an entries message holds. -/
structure ValueEncoding where
  text : String → Bytes
  number : Nat → Bytes

def arrayHeader (count : Nat) : Bytes :=
  if count < 16 then [(0x90 ||| count).toUInt8]
  else if count < 65536 then [0xdc, (count >>> 8).toUInt8, (count &&& 0xff).toUInt8]
  else [0xdd, (count >>> 24).toUInt8, ((count >>> 16) &&& 0xff).toUInt8, ((count >>> 8) &&& 0xff).toUInt8,
    (count &&& 0xff).toUInt8]

def encodeEntriesMessage (encode : ValueEncoding) (partitionId : Nat) (payloads : List Bytes) : Bytes :=
  ([0x83] ++ encode.text "type" ++ encode.text "entries" ++ encode.text "partitionId") ++ encode.number partitionId ++
    encode.text "entries" ++ arrayHeader payloads.length ++ payloads.flatten

structure PartitionBounds where
  oldestSeqNo : Nat
  head : Nat
  highestSeqNo : Nat
  deriving DecidableEq

structure FeedRead where
  frames : List LogFrame
  gone : Bool
  deriving DecidableEq

/-- The log of a partition: the entries that were ever written, the first one that is kept, the one that is durable, and the
one that is persisted. -/
structure FeedLog where
  entries : List LogFrame
  oldestSeqNo : Nat
  head : Nat
  highestSeqNo : Nat
  deriving DecidableEq

def FeedLog.bounds (log : FeedLog) : PartitionBounds := ⟨log.oldestSeqNo, log.head, log.highestSeqNo⟩

def FeedLog.read (log : FeedLog) (afterSeqNo upToSeqNo maxBytes : Nat) : FeedRead :=
  if afterSeqNo ≥ upToSeqNo then ⟨[], false⟩
  else if afterSeqNo + 1 < log.oldestSeqNo then ⟨[], true⟩
  else ⟨(readInTurn afterSeqNo upToSeqNo maxBytes log.entries ⟨[], 0, false⟩).2.frames, false⟩

structure FeedIndexState where
  epoch : String
  partitionCount : Nat
  deriving DecidableEq

/-- A call that is awaited. -/
inductive Reply (α : Type)
  | waiting
  | failed
  | ready (value : α)
  deriving DecidableEq

structure Unacked where
  seqNo : Nat
  bytes : Nat
  deriving DecidableEq

structure UnackedQueue where
  items : List Unacked
  head : Nat
  deriving DecidableEq

inductive FeedState
  | awaiting
  | subscribed
  | closed
  deriving DecidableEq

/-- A read that is under way in `sendBehind`. -/
structure Reading where
  partitionId : Nat
  progressed : Bool
  after : Nat
  upTo : Nat
  maxBytes : Nat
  reply : Reply FeedRead
  deriving DecidableEq

/-- Where the pump is; it is pumping but for `idle`. With every partition refreshed, `refreshHeads` has returned. -/
inductive PumpAt
  | idle
  | refreshing (partitionId : Nat) (reply : Reply PartitionBounds)
  | reading (read : Reading)
  | sentBehind
  deriving DecidableEq

inductive SubscribeStage
  | bounds (reply : Reply PartitionBounds)
  | bytesBehind (reply : Reply Nat)
  | snapshotBytes (bytesBehind : Nat) (reply : Reply Nat)
  deriving DecidableEq

structure SubscribeTask where
  epoch : String
  partitionCount : Nat
  seqNos : List Nat
  heads : List Nat
  stage : SubscribeStage
  deriving DecidableEq

inductive CheckpointStage
  | covering (found : List PartitionBounds) (reply : Reply PartitionBounds)
  | checking (covering : List Nat) (found : List PartitionBounds) (reply : Reply PartitionBounds)
  | sleeping (covering : List Nat)
  | finished
  deriving DecidableEq

/-- A checkpoint request, with what was persisted when it arrived, which the code does not look at. -/
structure CheckpointTask where
  id : Nat
  persisted : List Nat
  stage : CheckpointStage
  deriving DecidableEq

structure Received where
  message : DeviceMessage
  persisted : List Nat
  deriving DecidableEq

structure FeedSession where
  state : FeedState
  epoch : String
  sent : List Nat
  heads : List Nat
  unacked : List UnackedQueue
  unackedBytes : Nat
  charged : Nat
  pump : PumpAt
  pumpAgain : Bool
  retry : Bool
  incoming : List Received
  handling : Option SubscribeTask
  checkpoints : List CheckpointTask

/-- An answer to a checkpoint request, with what was persisted when the request arrived and what was sent before. -/
structure CheckpointAnswer where
  id : Nat
  persisted : List Nat
  before : List ServerMessage
  heads : List Nat
  deriving DecidableEq

/-- The session and what it deals with: the logs, the index, the bytes of the budget that are used, by it and by others, and what
the socket was given. The last fields are kept of what happened, and no function reads them. -/
structure Feed extends FeedSession where
  logs : List FeedLog
  index : Option FeedIndexState
  used : Nat
  others : Nat
  out : List ServerMessage
  closedWith : Option (Nat × String)
  subscribedAt : List Nat
  acked : List Nat
  taken : Nat
  given : Nat
  undrained : Bool
  answers : List CheckpointAnswer

/-- What a session is made with. -/
structure FeedSessionDeps where
  windowBytes : Nat
  budgetBytes : Nat
  encode : ValueEncoding

namespace Feed

/-- The session's own listener does nothing when the session gives: bytes are charged to it, or it watches no longer. -/
def give (bytes : Nat) (feed : Feed) : Feed := { feed with used := feed.used - bytes, given := feed.given + bytes }

def settleBuffered (bufferedAmount : Nat) (feed : Feed) : Feed :=
  let now := if feed.state = .closed then 0 else bufferedAmount
  let settled := if now < feed.charged then feed.give (feed.charged - now) else feed
  { settled with charged := min feed.charged now, undrained := feed.undrained || decide (0 < min feed.charged now) }

def send (message : ServerMessage) (bufferedAmount : Nat) (feed : Feed) : Feed :=
  if feed.state = .closed then feed else settleBuffered bufferedAmount { feed with out := feed.out ++ [message] }

def cleanUp (feed : Feed) : Feed := { feed.give feed.charged with retry := false, charged := 0 }

def close (code : Nat) (reason : String) (feed : Feed) : Feed :=
  if feed.state = .closed then feed
  else { cleanUp { feed with state := .closed } with closedWith := some (code, reason) }

def closedByPeer (feed : Feed) : Feed :=
  if feed.state = .closed then feed else cleanUp { feed with state := .closed }

def resync (reason : ResyncReason) (bufferedAmount : Nat) (feed : Feed) : Feed :=
  if feed.state = .closed then feed
  else close SYNC_CLOSE_RESYNC ("resync " ++ reason.text) (send (.resync reason) bufferedAmount feed)

def fail (feed : Feed) : Feed := close SYNC_CLOSE_SERVER_ERROR "feed read failed" feed

/-- `refreshHeads` up to its first await. -/
def refreshHeads (bufferedAmount : Nat) (feed : Feed) : Feed :=
  if feed.index.map FeedIndexState.epoch ≠ some feed.epoch then
    { resync .epoch bufferedAmount feed with pump := .refreshing feed.heads.length .waiting }
  else { feed with pump := .refreshing 0 .waiting }

def startPump (bufferedAmount : Nat) (feed : Feed) : Feed :=
  if feed.pump ≠ .idle then { feed with pumpAgain := true }
  else refreshHeads bufferedAmount { feed with pumpAgain := false }

def advance (bufferedAmount : Nat) (feed : Feed) : Feed :=
  if feed.state ≠ .subscribed then feed else startPump bufferedAmount feed

def sendSettings (bufferedAmount : Nat) (feed : Feed) : Feed :=
  if feed.state ≠ .subscribed ∨ feed.index = none then feed else send .settings bufferedAmount feed

def drained (bufferedAmount : Nat) (feed : Feed) : Feed :=
  let settled := settleBuffered bufferedAmount feed
  advance bufferedAmount { settled with undrained := decide (0 < settled.charged) }

def persistedNow (feed : Feed) : List Nat := feed.logs.map FeedLog.highestSeqNo

def receive (incoming : Incoming) (feed : Feed) : Feed :=
  if feed.state = .closed then feed
  else
    match incoming with
    | .text => close SYNC_CLOSE_POLICY "feed messages travel in binary frames" feed
    | .tooLong => close SYNC_CLOSE_TOO_LARGE "message too large" feed
    | .invalid => close SYNC_CLOSE_POLICY "invalid message" feed
    | .message message => { feed with incoming := feed.incoming ++ [⟨message, feed.persistedNow⟩] }

/-- The items from the head of a queue on: those that are acknowledged are passed, and their bytes taken off. -/
def release (seqNo : Nat) : List Unacked → Nat → Nat → Nat × Nat
  | [], head, unackedBytes => (head, unackedBytes)
  | item :: rest, head, unackedBytes =>
    if item.seqNo ≤ seqNo then release seqNo rest (head + 1) (unackedBytes - item.bytes) else (head, unackedBytes)

def compacted (queue : UnackedQueue) : UnackedQueue :=
  if queue.head > 0 ∧ queue.head * 2 ≥ queue.items.length then ⟨queue.items.drop queue.head, 0⟩ else queue

def releaseAll : List UnackedQueue → List Nat → Nat → List UnackedQueue × Nat
  | queue :: queues, seqNo :: seqNos, unackedBytes =>
    let (head, unackedBytes) := release seqNo (queue.items.drop queue.head) queue.head unackedBytes
    let (queues, unackedBytes) := releaseAll queues seqNos unackedBytes
    (compacted ⟨queue.items, head⟩ :: queues, unackedBytes)
  | queues, _, unackedBytes => (queues, unackedBytes)

def acknowledge (positions : List SyncPosition) (bufferedAmount : Nat) (feed : Feed) : Feed :=
  match positionsByPartition positions feed.sent.length with
  | none => close SYNC_CLOSE_POLICY "positions must name each partition once" feed
  | some seqNos =>
    if (List.range seqNos.length).any fun p => seqNos.getD p 0 > feed.sent.getD p 0 then
      close SYNC_CLOSE_POLICY "acknowledgement above a sent entry" feed
    else
      let (unacked, unackedBytes) := releaseAll feed.unacked seqNos feed.unackedBytes
      startPump bufferedAmount
        { feed with unacked := unacked, unackedBytes := unackedBytes, acked := List.zipWith max feed.acked seqNos }

/-- `subscribe` up to its first await. -/
def subscribe (epoch : String) (positions : List SyncPosition) (bufferedAmount : Nat) (feed : Feed) : Feed :=
  match feed.index with
  | none => close SYNC_CLOSE_RESYNC "sync is off" feed
  | some index =>
    if epoch ≠ index.epoch then resync .epoch bufferedAmount feed
    else
      match positionsByPartition positions index.partitionCount with
      | none => close SYNC_CLOSE_POLICY "positions must name each partition once" feed
      | some seqNos =>
        { feed with handling := some ⟨epoch, index.partitionCount, seqNos, [],
            if index.partitionCount = 0 then .bytesBehind .waiting else .bounds .waiting⟩ }

def handleMessage (received : Received) (bufferedAmount : Nat) (feed : Feed) : Feed :=
  if feed.state = .closed then feed
  else
    match received.message with
    | .subscribe epoch positions =>
      if feed.state ≠ .awaiting then close SYNC_CLOSE_POLICY "subscribe after the first message" feed
      else subscribe epoch positions bufferedAmount feed
    | .ack positions =>
      if feed.state ≠ .subscribed then close SYNC_CLOSE_POLICY "subscribe must come first" feed
      else acknowledge positions bufferedAmount feed
    | .checkpoint id =>
      if feed.state ≠ .subscribed then close SYNC_CLOSE_POLICY "subscribe must come first" feed
      else { feed with checkpoints := feed.checkpoints ++ [⟨id, received.persisted, .covering [] .waiting⟩] }

/-- The next message, once the one before it is handled. -/
def handle (bufferedAmount : Nat) (feed : Feed) : Option Feed :=
  match feed.handling, feed.incoming with
  | none, received :: rest => some (handleMessage received bufferedAmount { feed with incoming := rest })
  | _, _ => none

section Deps
variable (deps : FeedSessionDeps)

/-- The end of `subscribe`. -/
def subscribed (task : SubscribeTask) (bytesBehind snapshotBytes bufferedAmount : Nat) (feed : Feed) : Feed :=
  if feed.state = .closed then feed
  else if feed.index.map FeedIndexState.epoch ≠ some task.epoch then resync .epoch bufferedAmount feed
  else
    startPump bufferedAmount (send
      (.subscribed task.epoch task.partitionCount (positionList task.heads) bytesBehind snapshotBytes deps.windowBytes)
      bufferedAmount
      { feed with
        epoch := task.epoch
        sent := task.seqNos
        heads := task.heads
        unacked := feed.unacked ++ List.replicate task.partitionCount ⟨[], 0⟩
        state := .subscribed
        subscribedAt := task.seqNos
        acked := task.seqNos })

/-- `subscribe` from one await to the next. -/
def resumeSubscribe (bufferedAmount : Nat) (feed : Feed) : Option Feed :=
  feed.handling.bind fun task =>
    let ended := { feed with handling := none }
    match task.stage with
    | .bounds .waiting | .bytesBehind .waiting | .snapshotBytes _ .waiting => none
    | .bounds .failed | .bytesBehind .failed | .snapshotBytes _ .failed => some (fail ended)
    | .bounds (.ready bounds) =>
      let seqNo := task.seqNos.getD task.heads.length 0
      if seqNo + 1 < bounds.oldestSeqNo then some (resync .history bufferedAmount ended)
      else if seqNo > bounds.highestSeqNo then some (resync .ahead bufferedAmount ended)
      else
        let heads := task.heads ++ [bounds.head]
        some { feed with handling := some { task with
          heads := heads
          stage := if heads.length < task.partitionCount then .bounds .waiting else .bytesBehind .waiting } }
    | .bytesBehind (.ready bytes) => some { feed with handling := some { task with stage := .snapshotBytes bytes .waiting } }
    | .snapshotBytes bytesBehind (.ready bytes) => some (subscribed deps task bytesBehind bytes bufferedAmount ended)

def setCheckpoint (i : Nat) (task : CheckpointTask) (stage : CheckpointStage) (feed : Feed) : Feed :=
  { feed with checkpoints := feed.checkpoints.set i { task with stage := stage } }

/-- The loop of `answerCheckpoint` from its head on. -/
def checkAgain (i : Nat) (task : CheckpointTask) (covering : List Nat) (feed : Feed) : Feed :=
  setCheckpoint i task (if feed.state = .subscribed then .checking covering [] .waiting else .finished) feed

def sendHeads (task : CheckpointTask) (heads : List Nat) (bufferedAmount : Nat) (feed : Feed) : Feed :=
  send (.checkpoint task.id (positionList heads)) bufferedAmount { feed with
    answers := if feed.state = .closed then feed.answers else feed.answers ++ [⟨task.id, task.persisted, feed.out, heads⟩] }

def resumeCheckpoint (i bufferedAmount : Nat) (feed : Feed) : Option Feed :=
  feed.checkpoints[i]?.bind fun task =>
    match task.stage with
    | .finished => none
    | .covering found reply =>
      if found.length < feed.sent.length then
        match reply with
        | .waiting => none
        | .failed => some (fail (setCheckpoint i task .finished feed))
        | .ready bounds => some (setCheckpoint i task (.covering (found ++ [bounds]) .waiting) feed)
      else some (checkAgain i task (found.map PartitionBounds.highestSeqNo) feed)
    | .checking covering found reply =>
      if found.length < feed.sent.length then
        match reply with
        | .waiting => none
        | .failed => some (fail (setCheckpoint i task .finished feed))
        | .ready bounds => some (setCheckpoint i task (.checking covering (found ++ [bounds]) .waiting) feed)
      else
        let covering := List.zipWith min covering (found.map PartitionBounds.highestSeqNo)
        let heads := found.map PartitionBounds.head
        let covered := (List.range found.length).all fun p =>
          decide (covering.getD p 0 ≤ max (heads.getD p 0) (feed.sent.getD p 0))
        if covered then
          some (advance bufferedAmount (sendHeads task heads bufferedAmount (setCheckpoint i task .finished feed)))
        else some (setCheckpoint i task (.sleeping covering) feed)
    | .sleeping covering => some (checkAgain i task covering feed)

def windowAllows (nextBytes : Nat) (feed : Feed) : Prop :=
  feed.unackedBytes = 0 ∨ feed.unackedBytes + nextBytes ≤ deps.windowBytes

instance (nextBytes : Nat) (feed : Feed) : Decidable (windowAllows deps nextBytes feed) := inferInstanceAs (Decidable (_ ∨ _))

inductive Scan
  | exhausted
  | blocked
  | reads (partitionId : Nat)

/-- The loop over partitions up to the first one that is read. -/
def scan (feed : Feed) : List Nat → Scan
  | [] => .exhausted
  | partitionId :: rest =>
    if feed.state ≠ .subscribed ∨ feed.sent.getD partitionId 0 ≥ feed.heads.getD partitionId 0 then scan feed rest
    else if ¬ windowAllows deps 1 feed ∨ feed.charged > 0 then .blocked
    else .reads partitionId

def startRead (partitionId : Nat) (progressed : Bool) (feed : Feed) : Feed :=
  let room := if feed.unackedBytes = 0 then deps.windowBytes else deps.windowBytes - feed.unackedBytes
  { feed with pump := .reading ⟨partitionId, progressed, feed.sent.getD partitionId 0, feed.heads.getD partitionId 0,
      max 1 (min room ENTRIES_MESSAGE_LIMIT_BYTES), .waiting⟩ }

/-- `sendBehind` over the partitions that are left of a pass, and over all of them once more where one progressed. -/
def sendBehind (progressed : Bool) (partitionIds : List Nat) (feed : Feed) : Feed :=
  match scan deps feed partitionIds with
  | .blocked => { feed with pump := .sentBehind }
  | .reads partitionId => startRead deps partitionId progressed feed
  | .exhausted =>
    if progressed = true ∧ feed.state = .subscribed then
      match scan deps feed (List.range feed.heads.length) with
      | .reads partitionId => startRead deps partitionId false feed
      | _ => { feed with pump := .sentBehind }
    else { feed with pump := .sentBehind }

def take (bytes : Nat) (feed : Feed) : Option Feed :=
  if feed.used > 0 ∧ feed.used + bytes > deps.budgetBytes then none
  else some { feed with used := feed.used + bytes, taken := feed.taken + bytes }

def pushUnacked (queue : UnackedQueue) (frames : List LogFrame) : UnackedQueue :=
  { queue with items := queue.items ++ frames.map fun frame => ⟨frame.seqNo, frame.payload.length⟩ }

/-- The frames of one read as a message, with what is noted of them. -/
def sendEntries (partitionId : Nat) (frames : List LogFrame) (messageBytes bufferedAmount : Nat) (feed : Feed) : Feed :=
  send (.entries partitionId frames) bufferedAmount { feed with
    charged := feed.charged + messageBytes
    unacked := feed.unacked.set partitionId (pushUnacked (feed.unacked.getD partitionId ⟨[], 0⟩) frames)
    unackedBytes := feed.unackedBytes + totalBytes frames
    sent := feed.sent.set partitionId ((frames.getLast?.map LogFrame.seqNo).getD 0) }

/-- `sendBehind` from a read on; where it does not read another time, it has returned. -/
def sendRead (reading : Reading) (read : FeedRead) (bufferedAmount : Nat) (feed : Feed) : Feed :=
  let partitionId := reading.partitionId
  let left := (List.range feed.heads.length).drop (partitionId + 1)
  let feed := { feed with pump := .sentBehind }
  if feed.state ≠ .subscribed then feed
  else if read.gone then resync .history bufferedAmount feed
  else
    let frames := read.frames.filter fun frame => decide (frame.seqNo > feed.sent.getD partitionId 0)
    if frames.length = 0 then sendBehind deps reading.progressed left feed
    else if ¬ windowAllows deps (totalBytes frames) feed then feed
    else
      let messageBytes := (encodeEntriesMessage deps.encode partitionId (frames.map LogFrame.payload)).length
      match take deps messageBytes feed with
      | none => feed
      | some charged =>
        sendBehind deps true left (sendEntries partitionId frames messageBytes bufferedAmount charged)

def pendingBeyondHead (feed : Feed) (partitionId head : Nat) : Bool :=
  decide ((feed.logs[partitionId]?.map FeedLog.highestSeqNo).getD 0 > head)

def scheduleRetryWhileUndurable (feed : Feed) : Feed :=
  if feed.state ≠ .subscribed ∨ feed.retry = true then feed
  else if (List.range feed.heads.length).any fun p => pendingBeyondHead feed p (feed.heads.getD p 0) then
    { feed with retry := true }
  else feed

/-- The pump from one await to the next. -/
def resumePump (bufferedAmount : Nat) (feed : Feed) : Option Feed :=
  match feed.pump with
  | .idle => none
  | .refreshing partitionId reply =>
    if partitionId < feed.heads.length then
      match reply with
      | .waiting => none
      | .failed => some { fail feed with pump := .idle }
      | .ready bounds =>
        some { feed with
          heads := feed.heads.set partitionId (max (feed.heads.getD partitionId 0) bounds.head)
          pump := .refreshing (partitionId + 1) .waiting }
    else some (sendBehind deps true [] feed)
  | .reading reading =>
    match reading.reply with
    | .waiting => none
    | .failed => some { fail feed with pump := .idle }
    | .ready read => some (sendRead deps reading read bufferedAmount feed)
  | .sentBehind =>
    if feed.pumpAgain = true ∧ feed.state = .subscribed then
      some (refreshHeads bufferedAmount { feed with pumpAgain := false })
    else some { scheduleRetryWhileUndurable feed with pump := .idle }

/-- Who awaits a call of the source. -/
inductive Caller
  | pump
  | subscribe
  | checkpoint (i : Nat)
  deriving DecidableEq

/-- What can happen. Each action that asks the socket carries what it answers. -/
inductive Action
  /-- An entry is persisted at the end of a partition's log. -/
  | append (partitionId : Nat) (frame : LogFrame)
  /-- More of a partition's log is durable. -/
  | raise (partitionId head : Nat)
  /-- Old entries of a partition's log are deleted. -/
  | trim (partitionId oldestSeqNo : Nat)
  | setIndex (index : Option FeedIndexState)
  | othersTake (bytes : Nat)
  | othersGive (bytes bufferedAmount : Nat)
  | receive (incoming : Incoming)
  | handle (bufferedAmount : Nat)
  /-- The source answers a call, or fails it. -/
  | answer (caller : Caller)
  | failCall (caller : Caller)
  | resumePump (bufferedAmount : Nat)
  | resumeSubscribe (bufferedAmount : Nat)
  | resumeCheckpoint (i bufferedAmount : Nat)
  | advance (bufferedAmount : Nat)
  | retryFires (bufferedAmount : Nat)
  | drained (bufferedAmount : Nat)
  | sendSettings (bufferedAmount : Nat)
  | resync (bufferedAmount : Nat)
  | close (code : Nat) (reason : String)
  | closedByPeer

def boundsReply (feed : Feed) (partitionId : Nat) : Reply PartitionBounds :=
  match feed.logs[partitionId]? with
  | none => .failed
  | some log => .ready log.bounds

def readReply (feed : Feed) (reading : Reading) : Reply FeedRead :=
  match feed.logs[reading.partitionId]? with
  | none => .failed
  | some log => .ready (log.read reading.after reading.upTo reading.maxBytes)

/-- How many bytes of the logs, or of the snapshot, is not followed up. -/
def answerCall (fails : Bool) (feed : Feed) : Caller → Option Feed
  | .pump =>
    match feed.pump with
    | .refreshing partitionId .waiting =>
      if partitionId < feed.heads.length then
        some { feed with pump := .refreshing partitionId (if fails then .failed else boundsReply feed partitionId) }
      else none
    | .reading reading =>
      if reading.reply = .waiting then
        some { feed with pump := .reading { reading with reply := if fails then .failed else readReply feed reading } }
      else none
    | _ => none
  | .subscribe =>
    feed.handling.bind fun task =>
      let answered (stage : SubscribeStage) := some { feed with handling := some { task with stage := stage } }
      match task.stage with
      | .bounds .waiting => answered (.bounds (if fails then .failed else boundsReply feed task.heads.length))
      | .bytesBehind .waiting => answered (.bytesBehind (if fails then .failed else .ready 0))
      | .snapshotBytes bytesBehind .waiting => answered (.snapshotBytes bytesBehind (if fails then .failed else .ready 0))
      | _ => none
  | .checkpoint i =>
    feed.checkpoints[i]?.bind fun task =>
      let reply (found : List PartitionBounds) := if fails then .failed else boundsReply feed found.length
      match task.stage with
      | .covering found .waiting =>
        if found.length < feed.sent.length then some (setCheckpoint i task (.covering found (reply found)) feed) else none
      | .checking covering found .waiting =>
        if found.length < feed.sent.length then some (setCheckpoint i task (.checking covering found (reply found)) feed)
        else none
      | _ => none

/-- A change of one partition's log. -/
def changeLog (feed : Feed) (partitionId : Nat) (allowed : FeedLog → Bool) (change : FeedLog → FeedLog) : Option Feed :=
  feed.logs[partitionId]?.bind fun log =>
    if allowed log then some { feed with logs := feed.logs.set partitionId (change log) } else none

def next (feed : Feed) : Action → Option Feed
  | .append partitionId frame =>
    changeLog feed partitionId (fun log => decide (log.highestSeqNo < frame.seqNo ∧ 0 < frame.payload.length)) fun log =>
      { log with entries := log.entries ++ [frame], highestSeqNo := frame.seqNo }
  | .raise partitionId head =>
    changeLog feed partitionId (fun log => decide (log.head ≤ head ∧ head ≤ log.highestSeqNo)) fun log =>
      { log with head := head }
  | .trim partitionId oldestSeqNo =>
    changeLog feed partitionId (fun log => decide (log.oldestSeqNo ≤ oldestSeqNo)) fun log =>
      { log with oldestSeqNo := oldestSeqNo }
  | .setIndex index => some { feed with index := index }
  | .othersTake bytes =>
    if feed.used > 0 ∧ feed.used + bytes > deps.budgetBytes then none
    else some { feed with used := feed.used + bytes, others := feed.others + bytes }
  | .othersGive bytes bufferedAmount =>
    if bytes ≤ feed.others then
      let freed := { feed with used := feed.used - bytes, others := feed.others - bytes }
      some (if feed.state = .subscribed ∧ feed.charged = 0 then advance bufferedAmount freed else freed)
    else none
  | .receive incoming => some (receive incoming feed)
  | .handle bufferedAmount => handle bufferedAmount feed
  | .answer caller => answerCall false feed caller
  | .failCall caller => answerCall true feed caller
  | .resumePump bufferedAmount => resumePump deps bufferedAmount feed
  | .resumeSubscribe bufferedAmount => resumeSubscribe deps bufferedAmount feed
  | .resumeCheckpoint i bufferedAmount => resumeCheckpoint i bufferedAmount feed
  | .advance bufferedAmount => some (advance bufferedAmount feed)
  | .retryFires bufferedAmount =>
    if feed.retry = true then some (advance bufferedAmount { feed with retry := false }) else none
  | .drained bufferedAmount => some (drained bufferedAmount feed)
  | .sendSettings bufferedAmount => some (sendSettings bufferedAmount feed)
  | .resync bufferedAmount => some (resync .epoch bufferedAmount feed)
  | .close code reason => some (close code reason feed)
  | .closedByPeer => some (closedByPeer feed)

end Deps

/-- A session that was just opened over logs, while others use so much of the budget. -/
def opened (logs : List FeedLog) (index : Option FeedIndexState) (others : Nat) : Feed where
  state := .awaiting
  epoch := ""
  sent := []
  heads := []
  unacked := []
  unackedBytes := 0
  charged := 0
  pump := .idle
  pumpAgain := false
  retry := false
  incoming := []
  handling := none
  checkpoints := []
  logs := logs
  index := index
  used := others
  others := others
  out := []
  closedWith := none
  subscribedAt := []
  acked := []
  taken := 0
  given := 0
  undrained := false
  answers := []

end Feed
end Narsil.DeviceFeed
