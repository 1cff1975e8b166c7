import ToyMQ.Broker.Window
import ToyMQ.Client.Connection

/-!
# The consume-and-ack loop

A client is subscribed, and its one consumer goroutine receives a delivery, calls its `Ack` or
`Nack` and waits for the response before it receives the next one. Responses and messages share one
stream, and the client's read loop puts the messages on a channel of bounded capacity. Once that
channel is full, a response behind one more message cannot be read until the consumer receives, and
the consumer receives only after it has the response.

The system is `Conn` over a broker that is one `Feed` for each partition of the subscription.
`deadlocked_forever` says that such a state is final, whatever the broker does, and
`ack_loop_deadlocks` is a run into one with the default window.
-/

namespace ToyMQ.Client

open Lib Server List Option
open Broker (BrokerError Consumer DeliveryAction Feed FeedAction)

/-! ## The broker -/

/-- The feeds of the subscription, by the numbers of their partitions. -/
abbrev Feeds := AList fun _ : ℕ => Feed

def Feeds.update (feeds : Feeds) (threshold partition : ℕ) (a : FeedAction) : Option Feeds :=
  (feeds.lookup partition).bind fun f =>
    (f.step threshold a).map fun f' => feeds.insert partition f'

/-- An ack or a nack, with what it returns. Nothing is in flight on a partition without a feed. -/
def Feeds.settle (feeds : Feeds) (threshold : ℕ) (partition : ℤ) (a : DeliveryAction)
    (result : Consumer → Except BrokerError Unit) (missing : BrokerError) :
    Feeds × Except BrokerError Unit :=
  match feeds.lookup partition.toNat with
  | none => (feeds, .error missing)
  | some f =>
    ((feeds.update threshold partition.toNat (.deliver a)).getD feeds, result f.delivery.consumer)

/-- What a loop depends on beside its state. -/
structure LoopEnv (ς : Type) where
  /-- The dead-letter threshold of the topic. -/
  threshold : ℕ
  consumerID : Bytes
  /-- The texts of the broker's errors. -/
  text : BrokerError → Bytes
  /-- The calls on the broker that the loop does not make. -/
  others : Calls Feeds ς
  residue : Bytes → List (Except Bytes Command)

/-- The calls of the session. -/
def LoopEnv.calls {ς : Type} (env : LoopEnv ς) : Calls Feeds ς :=
  { env.others with
    ack := fun feeds _ partition consumerID msgID =>
      (feeds.settle env.threshold partition (.ack msgID.toNat)
        (fun c => (c.ack msgID.toNat).map fun _ => ())
        (.ackNotInflight msgID.toNat consumerID)).map id
          (Except.mapError fun e => .failed (env.text e))
    nack := fun feeds _ partition consumerID msgID =>
      (feeds.settle env.threshold partition (.nack msgID.toNat)
        (fun c => (c.nackOrKill msgID.toNat env.threshold).map fun _ => ())
        (.nackNotInflight msgID.toNat consumerID)).map id
          (Except.mapError fun e => .failed (env.text e)) }

/-! ## The system -/

/-- A subscribed client with its consumer goroutine, its session and the broker behind it. -/
structure AckLoop (ς : Type) where
  conn : Conn Feeds ς
  /-- The delivery that the consumer works on, until its call has returned. -/
  current : Option Delivery
  /-- What a nack has handed back to the session's reader, which has yet to queue it. -/
  repush : Option Delivery
  /-- The tasks that the redelivery sweep has yet to queue. -/
  tasks : List Delivery

/-- The steps of the system. -/
inductive LoopAction where
  /-- The consumer receives a delivery. -/
  | take
  /-- It calls `Ack`, or `Nack`: the call registers, writes its frame, and returns. -/
  | call (ack : Bool)
  | write
  | ret
  /-- The session's reader handles a request, queues what a nack handed back, and responds. -/
  | serve
  | requeue
  | send
  /-- The session's writer. -/
  | poll
  | selectResp
  | selectMsg
  /-- The client's read loop. -/
  | dispatch
  /-- A publish, a step of a delivery goroutine up to its send, or retention. -/
  | feed (partition : ℕ) (a : FeedAction)
  /-- Delivery goroutine `i` of a partition sends the message that it has put in flight. -/
  | deliver (partition i : ℕ)
  /-- The redelivery sweep collects the expired messages of a partition. -/
  | collect (partition : ℕ) (expired : List ℕ)
  /-- It queues one of them, unless the channel is full. -/
  | redeliver

/-- The request of `Ack`, or of `Nack`. -/
def settleRequest (consumerID : Bytes) (d : Delivery) : Bool → Request
  | true => .ack consumerID d.partition d.msgID
  | false => .nack consumerID d.partition d.msgID

namespace AckLoop

variable {ς : Type} (env : LoopEnv ς)

/-- A client that has just subscribed. -/
def new (topic : Bytes) (subs : List ς) (feeds : Feeds) : AckLoop ς where
  conn := { Conn.new ς 1 feeds with
    subActive := true
    deliveryCh := some []
    session := ⟨feeds, topic, some subs⟩ }
  current := none
  repush := none
  tasks := []

def feeds (s : AckLoop ς) : Feeds := s.conn.session.broker

/-- The system after the broker has moved. -/
def setFeeds (s : AckLoop ς) (feeds : Feeds) : AckLoop ς :=
  { s with conn := { s.conn with session := { s.conn.session with broker := feeds } } }

/-- A step of the connection. -/
def via (s : AckLoop ς) (a : ConnAction Feeds) : Option (AckLoop ς) :=
  (s.conn.step env.calls env.residue a).map fun conn => { s with conn := conn }

/-- A send on the session's channel that drops the message when the channel is full. -/
def offer (s : AckLoop ς) (d : Delivery) : AckLoop ς := (s.via env (.enqueue d)).getD s

def handedBack (conn : Conn Feeds ς) : Option Delivery :=
  match conn.wire with
  | ⟨.ok (.nack _ partition msgID), _⟩ :: _ =>
    if conn.session.currentTopic = [] then none
    else
      (conn.session.broker.lookup partition.toNat).bind fun f =>
        match f.delivery.consumer.nackOrKill msgID.toNat env.threshold with
        | .ok (_, .redeliver inf) =>
          some ⟨conn.session.currentTopic, partition.toNat, msgID, inf.payload⟩
        | _ => none
  | _ => none

/-- The message that a delivery goroutine sends next: a copy of what it has put in flight, even when
that has been taken out of flight since. -/
def sends (s : AckLoop ς) (partition i : ℕ) : Option Delivery :=
  (s.feeds.lookup partition).bind fun f =>
    match f.phases[i]? with
    | some (.sending _ msgID) =>
      some ⟨s.conn.session.currentTopic, partition, UInt64.ofNat msgID,
        (f.delivery.log.records[msgID]?.map Wal.Record.payload).getD []⟩
    | _ => none

/-- Whether an action of a feed is a send, which goes through the channel. -/
def isSend (s : AckLoop ς) (partition : ℕ) : FeedAction → Bool
  | .deliver (.advance i) => (s.sends partition i).isSome
  | _ => false

/-- The tasks of a sweep over a partition. -/
def collected (s : AckLoop ς) (partition : ℕ) (expired : List ℕ) : List Delivery :=
  ((s.feeds.lookup partition).map fun f =>
    (f.delivery.consumer.redeliveries env.threshold expired).map fun task =>
      (⟨s.conn.session.currentTopic, partition, UInt64.ofNat task.1, task.2.payload⟩ :
        Delivery)).getD []

/-- A step of the system. -/
def step (s : AckLoop ς) : LoopAction → Option (AckLoop ς)
  | .take =>
    match s.conn.callers, s.current, s.conn.deliveryCh with
    | [.idle], none, some (d :: _) =>
      (s.via env .receive).map fun s' => { s' with current := some d }
    | _, _, _ => none
  | .call ack => s.current.bind fun d => s.via env (.call 0 (settleRequest env.consumerID d ack))
  | .write => s.via env (.write 0)
  | .ret => (s.via env (.ret 0)).map fun s' => { s' with current := none }
  | .serve =>
    if s.repush.isNone then
      (s.via env .serve).map fun s' => { s' with repush := handedBack env s.conn }
    else none
  | .requeue => s.repush.map fun d => { s.offer env d with repush := none }
  | .send => if s.repush.isNone then s.via env .send else none
  | .poll => s.via env .poll
  | .selectResp => s.via env .selectResp
  | .selectMsg => s.via env .selectMsg
  | .dispatch => s.via env .dispatch
  | .feed partition a =>
    if Feed.background a && !s.isSend partition a then
      (s.feeds.update env.threshold partition a).map s.setFeeds
    else none
  | .deliver partition i =>
    (s.sends partition i).bind fun d =>
      (s.via env (.enqueue d)).bind fun s' =>
        (s.feeds.update env.threshold partition (.deliver (.advance i))).map s'.setFeeds
  | .collect partition expired =>
    -- The loop over the map of messages in flight meets each of them once.
    if s.tasks = [] ∧ expired.Nodup then
      (s.feeds.update env.threshold partition (.deliver (.sweep expired))).map fun feeds =>
        { s.setFeeds feeds with tasks := s.collected env partition expired }
    else none
  | .redeliver =>
    match s.tasks with
    | [] => none
    | d :: tasks => some { s.offer env d with tasks := tasks }

end AckLoop

/-! ## Deadlock -/

/-- The one caller waits for a response that is in the stream behind a message, and the channel of
deliveries has no room for that message. -/
structure Conn.Deadlocked {β ς : Type} (s : Conn β ς) : Prop where
  full : ∃ ch, s.deliveryCh = some ch ∧ deliveryChBuf ≤ ch.length
  blocked : ∃ id d call rest, s.callers = [.waiting id] ∧
    s.pending.reqs[id]?.bind PendingReq.resp = none ∧ s.stream = ⟨.msg d, call⟩ :: rest ∧
    ∃ f ∈ rest, f.frame.isResponse = true ∧ f.call = some id

namespace Conn.Deadlocked

variable {β ς : Type} {calls : Calls β ς} {residue : Bytes → List (Except Bytes Command)}
  {s s' : Conn β ς}

/-- The stream only grows behind the message. -/
theorem of_append (h : s.Deadlocked) (hch : s'.deliveryCh = s.deliveryCh)
    (hcallers : s'.callers = s.callers) (hpending : s'.pending = s.pending) {more : List Sent}
    (hstream : s'.stream = s.stream ++ more) : s'.Deadlocked := by
  obtain ⟨id, d, call, rest, hwait, hnone, hhead, f, hf, hfor⟩ := h.blocked
  refine ⟨hch ▸ h.full, id, d, call, rest ++ more, hcallers ▸ hwait, hpending ▸ hnone, ?_, f,
    mem_append_left more hf, hfor⟩
  rw [hstream, hhead, cons_append]

/-- A deadlock lasts while the application does not receive. -/
theorem step (h : s.Deadlocked) {a : ConnAction β} (ha : a ≠ .receive)
    (hstep : s.step calls residue a = some s') : s'.Deadlocked := by
  obtain ⟨id, d, call, rest, hwait, hnone, hhead, -⟩ := h.blocked
  obtain ⟨ch, hch, hfull⟩ := h.full
  have hcaller : ∀ {i : ℕ} {ph : Phase}, s.callers[i]? = some ph → ph = .waiting id := by
    intro i ph hi
    rw [hwait] at hi
    exact mem_singleton.mp (mem_of_getElem? hi)
  cases Conn.step_cases hstep with
  | refused => exact h
  | call hi | write hi =>
    -- The only caller waits.
    cases hcaller hi
  | ret hi _ hf =>
    cases hcaller hi
    cases hnone.symm.trans hf
  | serve | send | enqueue | pollNone | others =>
    exact h.of_append rfl rfl rfl (append_nil _).symm
  | pollResp | selectResp | selectMsg => exact h.of_append rfl rfl rfl rfl
  | dropped _ hnil => cases hch.symm.trans hnil
  | delivered _ hch' =>
    -- The read loop has no room for the message.
    cases hch.symm.trans hch'
    omega
  | responded hstream hresp =>
    cases hhead.symm.trans hstream
    cases hresp
  | receive => exact absurd rfl ha

end Conn.Deadlocked

namespace AckLoop

variable {ς : Type} {env : LoopEnv ς} {s s' : AckLoop ς}

def Deadlocked (s : AckLoop ς) : Prop := s.conn.Deadlocked

theorem Deadlocked.via (h : s.Deadlocked) {a : ConnAction Feeds} (ha : a ≠ .receive)
    (hvia : s.via env a = some s') : s'.Deadlocked := by
  obtain ⟨conn, hconn, rfl⟩ := map_eq_some_iff.mp hvia
  exact h.step ha hconn

theorem Deadlocked.setFeeds (h : s.Deadlocked) (feeds : Feeds) : (s.setFeeds feeds).Deadlocked :=
  ⟨h.full, h.blocked⟩

theorem Deadlocked.offer (h : s.Deadlocked) (d : Delivery) : (s.offer env d).Deadlocked := by
  unfold AckLoop.offer
  cases hvia : s.via env (.enqueue d) with
  | none => exact h
  | some => exact h.via (by simp) hvia

/-- No step leaves a deadlock. -/
theorem Deadlocked.step (h : s.Deadlocked) {a : LoopAction} (hstep : s.step env a = some s') :
    s'.Deadlocked := by
  cases a with
  | take =>
    -- The consumer is inside its call.
    obtain ⟨id, d, call, rest, hwait, -⟩ := h.blocked
    dsimp only [AckLoop.step] at hstep
    rw [hwait] at hstep
    split at hstep
    next heq _ _ => cases heq
    · cases hstep
  | call =>
    obtain ⟨d, -, hvia⟩ := bind_eq_some_iff.mp hstep
    exact h.via (by simp) hvia
  | ret =>
    obtain ⟨t, hvia, rfl⟩ := map_eq_some_iff.mp hstep
    have ht : t.Deadlocked := h.via (by simp) hvia
    exact ht
  | serve =>
    dsimp only [AckLoop.step] at hstep
    split_ifs at hstep
    obtain ⟨t, hvia, rfl⟩ := map_eq_some_iff.mp hstep
    have ht : t.Deadlocked := h.via (by simp) hvia
    exact ht
  | requeue =>
    obtain ⟨d, -, rfl⟩ := map_eq_some_iff.mp hstep
    exact h.offer d
  | send =>
    dsimp only [AckLoop.step] at hstep
    split_ifs at hstep
    exact h.via (by simp) hstep
  | write | poll | selectResp | selectMsg | dispatch => exact h.via (by simp) hstep
  | feed | collect =>
    dsimp only [AckLoop.step] at hstep
    split_ifs at hstep
    obtain ⟨feeds, -, rfl⟩ := map_eq_some_iff.mp hstep
    exact h.setFeeds feeds
  | deliver =>
    obtain ⟨d, -, hrest⟩ := bind_eq_some_iff.mp hstep
    obtain ⟨t, hvia, hfeeds⟩ := bind_eq_some_iff.mp hrest
    obtain ⟨feeds, -, rfl⟩ := map_eq_some_iff.mp hfeeds
    exact Deadlocked.setFeeds (h.via (by simp) hvia) feeds
  | redeliver =>
    dsimp only [AckLoop.step] at hstep
    split at hstep
    · cases hstep
    · cases hstep
      exact h.offer _

/-- No run of the system leaves a deadlock. -/
theorem deadlocked_forever {ok : AckLoop ς → LoopAction → Prop} {as : List LoopAction}
    (hrun : Run (step env) ok s as s') (h : s.Deadlocked) : s'.Deadlocked :=
  hrun.invariant h fun _ _ _ _ hdead hstep => Deadlocked.step hdead hstep

/-! ## A run into a deadlock

The consumer receives the first message and calls `Ack`. Before the session answers, 65 more
messages leave the server: 64 of them fill the channel, and the last one is in the stream before the
response. -/

/-- `defaultRecvWindow`. -/
def defaultRecvWindow : ℕ := 256

/-- A broker without a dead-letter policy, on which all calls fail that the loop does not make. -/
def plainEnv : LoopEnv Unit where
  threshold := 0
  consumerID := [99]
  text _ := []
  others :=
    { publish := fun feeds _ => (feeds, .error (.call (.failed [])))
      createTopic := fun feeds _ _ => (feeds, .error (.failed []))
      ack := fun feeds _ _ _ _ => (feeds, .error (.failed []))
      nack := fun feeds _ _ _ _ => (feeds, .error (.failed []))
      isLeader := fun _ => true
      leaderHint := fun _ => []
      topicPartitions := fun feeds _ => (feeds, .error [])
      subStartCheck := fun feeds _ => (feeds, .error ⟨false, []⟩)
      subscribe := fun feeds _ => (feeds, none)
      setPaused := fun feeds _ _ => feeds
      cancel := fun feeds _ => feeds
      replicationStatus := fun _ => { role := [] } }
  residue _ := []

/-- A client that has just subscribed to the one partition of a new topic. -/
def plainLoop (window : ℕ) : AckLoop Unit :=
  new [116] [()] (AList.singleton 0 (.subscribed [99] window))

/-- A step of the delivery goroutine. -/
def work : LoopAction := .feed 0 (.deliver (.advance 0))

/-- `n` empty messages are published, and the goroutine opens its reader. -/
def publishes (n : ℕ) : List LoopAction :=
  (List.range n).map (fun i => .feed 0 (.deliver (.write ⟨UInt64.ofNat i, 0, [], [], 0, 0⟩))) ++
    [.feed 0 (.deliver (.commit n)), work, work]

/-- A message goes from the log to the stream. -/
def push : List LoopAction := [work, work, work, .deliver 0 0, .poll, .selectMsg]

/-- The consumer calls `Ack` for the first message, and `n` more reach the client before one more
message and the response. -/
def overtaken (n : ℕ) : List LoopAction :=
  publishes (n + 2) ++ push ++ [.dispatch, .take, .call true, .write] ++
    (List.replicate n (push ++ [.dispatch])).flatten ++ push ++ [.serve, .send, .poll]

set_option maxRecDepth 4000 in
theorem ack_loop_deadlocks :
    ∃ s, Run (step plainEnv) (fun _ _ => True) (plainLoop defaultRecvWindow)
      (overtaken deliveryChBuf) s ∧ s.Deadlocked := by
  refine exists_run_of_exec (P := fun s =>
    s.conn.callers = [.waiting 0] ∧ s.conn.pending.reqs = [⟨none, false⟩] ∧
    s.conn.stream.map (fun f => (f.frame, f.call)) =
      [(.msg ⟨[116], 0, 65, []⟩, none), (.ok 0, some 0)] ∧
    s.conn.deliveryCh.map List.length = some 64) (by decide +kernel) ?_
  rintro s - ⟨hcallers, hreqs, hstream, hch⟩
  obtain ⟨ch, hch, hlen⟩ := map_eq_some_iff.mp hch
  obtain ⟨⟨frame, call⟩, rest, hstream, hhead, hrest⟩ := map_eq_cons_iff.mp hstream
  obtain ⟨f, rest', rfl, hf, -⟩ := map_eq_cons_iff.mp hrest
  obtain ⟨rfl, rfl⟩ := Prod.mk.inj hhead
  obtain ⟨hframe, hcall⟩ := Prod.mk.inj hf
  refine ⟨⟨ch, hch, hlen.ge⟩, 0, _, _, _, hcallers, ?_, hstream, f, mem_cons_self, ?_, hcall⟩
  · rw [hreqs]
    rfl
  · rw [hframe]
    rfl

end AckLoop

end ToyMQ.Client
