import ToyMQ.Replication.StateMachine
import ToyMQ.Server.Session

/-!
# A standalone broker behind a session

The calls of a session on a broker without a raft node, on the state of `Broker.Node`. Every
operation runs inline, the broker is its own leader, and nothing is retained for less than ever,
so that a consumer can always start where it stopped.
-/

namespace ToyMQ.Server

open Lib Broker Replication

structure Subscription where
  topic : Bytes
  partition : ℕ
  consumerID : Bytes
deriving DecidableEq, Repr

/-- The time from which a message may be delivered; 0 without a delay. -/
def visibleAt (now delayMs : UInt64) : UInt64 :=
  if 0 < delayMs then now + delayMs * 1000000 else 0

/-- `PublishCtx` on a standalone broker. -/
def publishCtx (n : Node) (topic dedupeKey routingKey : Bytes) (partition : ℤ)
    (partitionSet : Bool) (payload : Bytes) (delayMs : UInt64) :
    Node × Except BrokerError ApplyResult :=
  match localRoute n topic partition partitionSet routingKey with
  | (n, .error e) => (n, .error e)
  | (n, .ok i) => n.applyPublish topic i n.clock (visibleAt n.clock delayMs) 0 dedupeKey payload

/-- `CreateTopic` on a standalone broker. -/
def createTopic (n : Node) (name : Bytes) (partitions : ℤ) : Node × Except BrokerError Unit :=
  if partitions < 1 then (n, .error (.badPartitions partitions))
  else n.createTopicLocal name partitions

/-- `NackCtx` on a standalone broker. A message that has used up its deliveries goes to the
dead-letter topic, and an error on the way is only logged. -/
def nackCtx (n : Node) (topic : Bytes) (partition : ℤ) (consumerID : Bytes) (msgID : ℕ) :
    Node × Except BrokerError Unit :=
  match n.applyNack topic partition consumerID msgID with
  | (n, .error e) => (n, .error e)
  | (n, .ok (.redeliver _)) => (n, .ok ())
  | (n, .ok (.killed inf)) =>
    let dlqTopic := topic ++ dlqSuffix
    ((publishCtx (createTopic n dlqTopic 1).1 dlqTopic [] [] 0 false inf.payload 0).1, .ok ())

/-- The partitions that `selectPartitions` resolves a subscribe to. -/
def selected (n : Node) (c : SubCommand) : Node × List ℕ :=
  let opened := n.getOrCreateTopic c.topic
  (opened.1,
    if c.allPartitions then List.range opened.2.partitions.length
    else ((opened.2.at c.partition).toOption.map fun _ => c.partition.toNat).toList)

/-- `Subscribe` on a standalone broker; in `SubStartCheck` the consumers are only created. -/
def subscribe (n : Node) (c : SubCommand) (subscribed : Bool) : Node × List Subscription :=
  let sel := selected n c
  (sel.2.foldl (fun n i =>
      (n.withConsumer c.topic i c.consumerID fun con =>
        .ok ({ con with subscribed := con.subscribed || subscribed }, ())).1) sel.1,
    sel.2.map fun i => ⟨c.topic, i, c.consumerID⟩)

/-- The calls on a standalone broker, whose errors are printed by `text`. -/
def standalone (text : BrokerError → Bytes) : Calls Node Subscription where
  publish n c :=
    (publishCtx n c.topic c.dedupeKey c.routingKey c.partition c.partitionSet c.payload
      c.delayMs).map id (Except.mapError fun e => .call (.failed (text e)))
  createTopic n topic partitions :=
    (createTopic n topic partitions).map id (Except.mapError fun e => .failed (text e))
  ack n topic partition consumerID msgID :=
    (n.applyAck topic partition consumerID msgID.toNat).map id
      (Except.mapError fun e => .failed (text e))
  nack n topic partition consumerID msgID :=
    (nackCtx n topic partition consumerID msgID.toNat).map id
      (Except.mapError fun e => .failed (text e))
  isLeader _ := true
  leaderHint _ := []
  topicPartitions n topic :=
    ((n.getOrCreateTopic topic).1, .ok (n.getOrCreateTopic topic).2.partitions.length)
  subStartCheck n c := ((subscribe n c false).1, .ok ())
  subscribe n c := (subscribe n c true).map id some
  setPaused n sub paused :=
    (n.modifyConsumer sub.topic sub.partition sub.consumerID
      fun _ con => some { con with paused := paused }).getD n
  cancel n _ := n
  replicationStatus _ := { role := ascii "standalone" }

end ToyMQ.Server
