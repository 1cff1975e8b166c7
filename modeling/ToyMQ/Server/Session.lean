import ToyMQ.Broker.Node
import ToyMQ.Lib.Decimal

/-!
# The session of a connection

A session reads commands, calls the broker and answers with frames. Each command but a trace line
has one reply. The reply is one frame, except that of a duplicate publish: it is told `DUP` and
then `OK`, so that a client that knows only `OK` is served as well (`Reply.frames`).

The session is modelled over any broker, given by the calls it makes (`Calls`). Nothing here or in
the client's pairing of replies depends on what a broker answers.
-/

namespace ToyMQ.Server

open Lib Broker

/-! ## The wire -/

def ascii (text : String) : Bytes := text.toUTF8.toList

/-- The decimal numeral of a number, as `strconv` prints it. -/
def decimal (n : ℕ) : Bytes := paddedDecimal 1 n

/-- `MaxLineLength`. -/
def maxLineLength : ℕ := 2 ^ 16

/-- `defaultMaxPayload`, the limit that a session reads commands with. -/
def defaultMaxPayload : ℕ := 2 ^ 20

/-- `PubCommand`. -/
structure PubCommand where
  topic : Bytes
  dedupeKey : Bytes
  routingKey : Bytes
  partition : ℤ
  partitionSet : Bool
  payload : Bytes
  delayMs : UInt64
  waitReplicas : ℤ
  waitTimeoutMs : UInt64
deriving DecidableEq, Repr

/-- `SubCommand`. -/
structure SubCommand where
  topic : Bytes
  partition : ℤ
  allPartitions : Bool
  consumerID : Bytes
  stale : Bool
deriving DecidableEq, Repr

/-- `Command`. -/
inductive Command where
  | pub (c : PubCommand)
  | sub (c : SubCommand)
  | ack (consumerID : Bytes) (partition : ℤ) (msgID : UInt64)
  | nack (consumerID : Bytes) (partition : ℤ) (msgID : UInt64)
  | create (topic : Bytes) (partitions : ℤ)
  | pause
  | resume
  /-- A trace line. It prefixes a publish or a subscribe and has no answer of its own. -/
  | traceparent
  | info
deriving DecidableEq, Repr

/-- The codes of the errors that a command can fail with. -/
inductive FailCode where
  | invalid
  | noSub
  | outOfRange
  | pubFailed
  | subFailed
  | ackFailed
  | nackFailed
  | createFailed
deriving DecidableEq, Repr

/-- The codes of `ERR` frames. The client makes up `transport` itself. -/
inductive ErrCode where
  | transport
  | notLeader
  | waitTimeout
  | fail (code : FailCode)
deriving DecidableEq, Repr

/-- A message on its way to a consumer. -/
structure Delivery where
  topic : Bytes
  partition : ℕ
  msgID : UInt64
  payload : Bytes
deriving DecidableEq, Repr

/-- The frames that a session writes. -/
inductive Frame where
  | ok (id : UInt64)
  | dup (id : UInt64)
  | err (code : ErrCode) (reason : Bytes)
  | msg (d : Delivery)
  | info (lines : List Bytes)
deriving DecidableEq, Repr

/-- Whether a frame answers a request. -/
def Frame.isResponse : Frame → Bool
  | .msg _ => false
  | _ => true

/-- What a session answers a command with. -/
inductive Reply where
  | ok (id : UInt64)
  | dup (id : UInt64)
  | waitTimeout (id : UInt64)
  | notLeader (hint : Bytes)
  | failed (code : FailCode) (reason : Bytes)
  | info (lines : List Bytes)
deriving DecidableEq, Repr

def Reply.frame : Reply → Frame
  | .ok id => .ok id
  | .dup id => .dup id
  | .waitTimeout id => .err .waitTimeout (decimal id.toNat)
  | .notLeader hint => .err .notLeader hint
  | .failed code reason => .err (.fail code) reason
  | .info lines => .info lines

/-- The frames after it: a duplicate is also told `OK`. -/
def Reply.surplus : Reply → List Frame
  | .dup id => [.ok id]
  | _ => []

/-- The frames of a reply, in the order in which they are sent. -/
def Reply.frames (r : Reply) : List Frame := r.frame :: r.surplus

/-! ## The calls on a broker -/

/-- An error of a broker: a follower's refusal, or any other. -/
inductive CallError where
  | notLeader (hint : Bytes)
  | failed (reason : Bytes)
deriving DecidableEq, Repr

/-- An error of `PublishCtx`. When the wait for replicas runs out, the message has an id. -/
inductive PublishError where
  | waitTimeout (id : UInt64)
  | call (e : CallError)
deriving DecidableEq, Repr

/-- An error of `SubStartCheck`. -/
structure StartError where
  outOfRange : Bool
  reason : Bytes
deriving DecidableEq, Repr

/-- `PeerStatus`. -/
structure PeerStatus where
  id : Bytes
  matchIndex : UInt64
  lagEntries : UInt64
deriving DecidableEq, Repr

/-- `ReplicationStatus`. -/
structure ReplicationStatus where
  role : Bytes
  leaderID : Bytes := []
  term : UInt64 := 0
  commitIndex : UInt64 := 0
  applyIndex : UInt64 := 0
  lastLogIndex : UInt64 := 0
  peers : List PeerStatus := []
deriving DecidableEq, Repr

/-- The calls that a session makes on a broker with states `β` and subscriptions `ς`. -/
structure Calls (β ς : Type) where
  publish : β → PubCommand → β × Except PublishError ApplyResult
  createTopic : β → Bytes → ℤ → β × Except CallError Unit
  ack : β → Bytes → ℤ → Bytes → UInt64 → β × Except CallError Unit
  nack : β → Bytes → ℤ → Bytes → UInt64 → β × Except CallError Unit
  isLeader : β → Bool
  leaderHint : β → Bytes
  topicPartitions : β → Bytes → β × Except Bytes ℕ
  subStartCheck : β → SubCommand → β × Except StartError Unit
  subscribe : β → SubCommand → β × Option (List ς)
  setPaused : β → ς → Bool → β
  /-- The subscriptions are cancelled. -/
  cancel : β → List ς → β
  replicationStatus : β → ReplicationStatus

/-! ## The session -/

/-- `Session`, with the broker it calls. -/
structure Session (β ς : Type) where
  broker : β
  /-- `currentTopic`, which outlives the subscription. -/
  currentTopic : Bytes
  /-- `currentSubs`, when `currentCancel` is set. -/
  current : Option (List ς)

def Session.new {β : Type} (ς : Type) (broker : β) : Session β ς := ⟨broker, [], none⟩

/-- `sendIfNotLeader`, or the error of the command. -/
def CallError.reply (code : FailCode) : CallError → Reply
  | .notLeader hint => .notLeader hint
  | .failed reason => .failed code reason

/-- The lines that `handleInfo` sends. -/
def ReplicationStatus.lines (st : ReplicationStatus) : List Bytes :=
  let num (key : String) (v : UInt64) : Bytes := ascii key ++ decimal v.toNat
  let peer (p : PeerStatus) : List Bytes :=
    [ascii "replica_" ++ p.id ++ num "_match_index:" p.matchIndex,
      ascii "replica_" ++ p.id ++ num "_lag_entries:" p.lagEntries]
  (ascii "role:" ++ st.role) ::
    if st.role = ascii "standalone" then []
    else [ascii "leader:" ++ st.leaderID, num "term:" st.term,
        num "commit_index:" st.commitIndex, num "apply_index:" st.applyIndex,
        num "last_log_index:" st.lastLogIndex,
        ascii "connected_replicas:" ++ decimal st.peers.length] ++ st.peers.flatMap peer

namespace Session

variable {β ς : Type} (calls : Calls β ς) (s : Session β ς)

/-- `handlePub`. -/
def handlePub (c : PubCommand) : Session β ς × Reply :=
  let r := calls.publish s.broker c
  ({ s with broker := r.1 },
    match r.2 with
    | .error (.waitTimeout id) => .waitTimeout id
    | .error (.call e) => e.reply .pubFailed
    | .ok res => if res.dup then .dup res.msgID else .ok res.msgID)

/-- `handleCreate`. -/
def handleCreate (topic : Bytes) (partitions : ℤ) : Session β ς × Reply :=
  let r := calls.createTopic s.broker topic partitions
  ({ s with broker := r.1 },
    match r.2 with
    | .error e => e.reply .createFailed
    | .ok _ => .ok 0)

/-- The common text of `handleAck` and `handleNack`. -/
def handleSettle (verb : String) (code : FailCode)
    (call : β → Bytes → ℤ → Bytes → UInt64 → β × Except CallError Unit)
    (consumerID : Bytes) (partition : ℤ) (msgID : UInt64) : Session β ς × Reply :=
  if s.currentTopic = [] then (s, .failed .noSub (ascii (verb ++ " requires a prior SUB")))
  else
    let r := call s.broker s.currentTopic partition consumerID msgID
    ({ s with broker := r.1 },
      match r.2 with
      | .error e => e.reply code
      | .ok _ => .ok msgID)

/-- `handleAck`. -/
def handleAck : Bytes → ℤ → UInt64 → Session β ς × Reply :=
  s.handleSettle "ACK" .ackFailed calls.ack

/-- `handleNack`. -/
def handleNack : Bytes → ℤ → UInt64 → Session β ς × Reply :=
  s.handleSettle "NACK" .nackFailed calls.nack

/-- `handlePauseResume`. -/
def handlePauseResume (paused : Bool) : Session β ς × Reply :=
  match s.current.getD [] with
  | [] =>
    (s, .failed .noSub (ascii ((if paused then "PAUSE" else "RESUME") ++ " requires a prior SUB")))
  | subs =>
    ({ s with broker := subs.foldl (fun b sub => calls.setPaused b sub paused) s.broker }, .ok 0)

/-- The first part of `handleSub`: the subscription of the session, if there is one, ends. -/
def endSub : Session β ς :=
  match s.current with
  | none => s
  | some subs => { s with broker := calls.cancel s.broker subs, current := none }

/-- The rest of `handleSub`. The topic stays that of the last subscription that succeeded. -/
def startSub (c : SubCommand) : Session β ς × Reply :=
  if !c.stale && !calls.isLeader s.broker then (s, .notLeader (calls.leaderHint s.broker))
  else
    match calls.topicPartitions s.broker c.topic with
    | (b, .error reason) => ({ s with broker := b }, .failed .subFailed reason)
    | (b, .ok count) =>
      if !c.allPartitions && (c.partition < 0 || (count : ℤ) ≤ c.partition) then
        ({ s with broker := b }, .failed .subFailed (ascii "partition out of range"))
      else
        match calls.subStartCheck b c with
        | (b, .error e) =>
          ({ s with broker := b },
            .failed (if e.outOfRange then .outOfRange else .subFailed) e.reason)
        | (b, .ok _) =>
          -- The answer is sent before the call, whose error is not reported.
          match calls.subscribe b c with
          | (b, none) => ({ s with broker := b }, .ok 0)
          | (b, some subs) => (⟨b, c.topic, some subs⟩, .ok 0)

/-- `handleSub`. -/
def handleSub (c : SubCommand) : Session β ς × Reply := (s.endSub calls).startSub calls c

/-- `handleInfo`. -/
def handleInfo : Session β ς × Reply := (s, .info (calls.replicationStatus s.broker).lines)

/-- `handleCommand`. -/
def handleCommand : Command → Session β ς × Option Reply
  | .pub c => (s.handlePub calls c).map id some
  | .sub c => (s.handleSub calls c).map id some
  | .ack consumerID partition msgID => (s.handleAck calls consumerID partition msgID).map id some
  | .nack consumerID partition msgID => (s.handleNack calls consumerID partition msgID).map id some
  | .create topic partitions => (s.handleCreate calls topic partitions).map id some
  | .pause => (s.handlePauseResume calls true).map id some
  | .resume => (s.handlePauseResume calls false).map id some
  | .traceparent => (s, none)
  | .info => (s.handleInfo calls).map id some

/-- `handleParsed`, for what leaves the connection open: a command, or the reason why the parser
rejects what it has read. -/
def handleParsed : Except Bytes Command → Session β ς × Option Reply
  | .error reason => (s, some (.failed .invalid reason))
  | .ok cmd => s.handleCommand calls cmd

/-! ## The two parts of a subscribe

The `OK` of a subscribe is handed to the writer in the middle of `handleSub`. -/

/-- The part of `handleSub` before its `OK`, once the subscription before has ended: the refusal,
when there is one. -/
def admitSub (c : SubCommand) : Session β ς × Option Reply :=
  if !c.stale && !calls.isLeader s.broker then (s, some (.notLeader (calls.leaderHint s.broker)))
  else
    match calls.topicPartitions s.broker c.topic with
    | (b, .error reason) => ({ s with broker := b }, some (.failed .subFailed reason))
    | (b, .ok count) =>
      if !c.allPartitions && (c.partition < 0 || (count : ℤ) ≤ c.partition) then
        ({ s with broker := b }, some (.failed .subFailed (ascii "partition out of range")))
      else
        match calls.subStartCheck b c with
        | (b, .error e) =>
          ({ s with broker := b },
            some (.failed (if e.outOfRange then .outOfRange else .subFailed) e.reason))
        | (b, .ok _) => ({ s with broker := b }, none)

/-- The part after it. -/
def completeSub (c : SubCommand) : Session β ς :=
  match calls.subscribe s.broker c with
  | (b, none) => { s with broker := b }
  | (b, some subs) => ⟨b, c.topic, some subs⟩

/-- The two parts, with the `OK` between them, are the whole. -/
theorem startSub_eq (c : SubCommand) : s.startSub calls c =
    match s.admitSub calls c with
    | (s, some reply) => (s, reply)
    | (s, none) => (s.completeSub calls c, .ok 0) := by
  unfold startSub admitSub completeSub
  split_ifs
  · rfl
  · rcases calls.topicPartitions s.broker c.topic with ⟨b, reason | count⟩
    · rfl
    · dsimp only
      split_ifs
      · rfl
      · rcases calls.subStartCheck b c with ⟨b, e | u⟩
        · rfl
        · dsimp only
          rcases calls.subscribe b c with ⟨b, _ | subs⟩
          · rfl
          · rfl

/-! ## The topic of a session

Only a subscription that was opened changes it. -/

theorem currentTopic_endSub : (s.endSub calls).currentTopic = s.currentTopic := by
  unfold endSub
  split <;> rfl

theorem currentTopic_admitSub (c : SubCommand) :
    (s.admitSub calls c).1.currentTopic = s.currentTopic := by
  unfold admitSub
  split_ifs
  · rfl
  · rcases calls.topicPartitions s.broker c.topic with ⟨b, reason | count⟩
    · rfl
    · dsimp only
      split_ifs
      · rfl
      · rcases calls.subStartCheck b c with ⟨b, e | u⟩
        · rfl
        · rfl

theorem currentTopic_completeSub (c : SubCommand) :
    (s.completeSub calls c).currentTopic = s.currentTopic ∨
      (s.completeSub calls c).currentTopic = c.topic := by
  unfold completeSub
  split
  · exact .inl rfl
  · exact .inr rfl

theorem currentTopic_handleSettle (verb : String) (code : FailCode)
    (call : β → Bytes → ℤ → Bytes → UInt64 → β × Except CallError Unit)
    (consumerID : Bytes) (partition : ℤ) (msgID : UInt64) :
    (s.handleSettle verb code call consumerID partition msgID).1.currentTopic = s.currentTopic := by
  unfold handleSettle
  split_ifs <;> rfl

/-- Only a subscribe changes the topic. -/
theorem currentTopic_handleParsed {parsed : Except Bytes Command}
    (hparsed : ∀ c, parsed ≠ .ok (.sub c)) :
    (s.handleParsed calls parsed).1.currentTopic = s.currentTopic := by
  rcases parsed with reason | cmd
  · rfl
  · cases cmd with
    | sub c => exact absurd rfl (hparsed c)
    | ack consumerID partition msgID | nack consumerID partition msgID =>
      exact s.currentTopic_handleSettle _ _ _ consumerID partition msgID
    | pause | resume =>
      dsimp only [handleParsed, handleCommand, handlePauseResume]
      split <;> rfl
    | pub | create | traceparent | info => rfl

end Session

end ToyMQ.Server
