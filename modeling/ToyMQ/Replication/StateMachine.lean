import ToyMQ.Broker.Node
import ToyMQ.Lib.Run

/-!
# The replicated state machine

`apply` is `BrokerSM.Apply`: it runs one committed command on the broker. The commands of the log
are meant to be applied without any further coordination, so that the apply goroutine never waits
for raft. Dead-lettering breaks this. A nack that kills its message moves it to the dead-letter
topic through the same calls as a client's publish, and with a raft node attached these propose.
On the leader the first proposal waits for the goroutine that makes it; on any other node both are
refused and the message is in neither topic.

`apply_local_iff` says exactly when this happens, for every state of the broker and every
command; `apply_blocks` is a run that gets there.
-/

namespace ToyMQ.Replication

open Lib Broker

/-- `Kind`. -/
inductive Kind where
  | publish
  | ack
  | nack
  | createTopic
deriving DecidableEq, Repr

/-- `Envelope`. The fields that a kind does not use are zero. -/
structure Envelope where
  kind : Kind
  topic : Bytes
  partition : ℤ := 0
  dedupeKey : Bytes := []
  tsNs : UInt64 := 0
  visibleAtNs : UInt64 := 0
  consumerID : Bytes := []
  msgID : UInt64 := 0
  payload : Bytes := []
  partitions : ℤ := 0
deriving DecidableEq, Repr

/-- A committed entry of the replicated log, decoded. -/
structure Entry where
  index : UInt64
  env : Envelope
deriving DecidableEq, Repr

/-- What became of a call of `Apply`. -/
structure ApplyRun where
  /-- The broker when the call returned, or where it waits. -/
  node : Node
  /-- What the call proposed, in order. -/
  proposals : List Envelope
  /-- The value that the call returned; none when it waits forever. -/
  outcome : Option (Except BrokerError (Option ApplyResult))

/-- `CreateTopic` proposes this for a dead-letter topic. -/
def dlqCreate (dlqTopic : Bytes) : Envelope :=
  { kind := .createTopic, topic := dlqTopic, partitions := 1 }

/-- `proposePublish` proposes this for a message without a key or a delay. -/
def dlqPublish (clock : UInt64) (dlqTopic : Bytes) (partition : ℕ) (payload : Bytes) : Envelope :=
  { kind := .publish, topic := dlqTopic, partition := partition, tsNs := clock, payload := payload }

/-- The local part of `PublishCtx`: the topic is opened when it is new, and the partition
chosen. -/
def localRoute (n : Node) (topic : Bytes) (partition : ℤ) (explicit : Bool)
    (routingKey : Bytes) : Node × Except BrokerError ℕ :=
  let opened := n.getOrCreateTopic topic
  let routed := opened.2.route partition explicit routingKey
  ({ opened.1 with topics := opened.1.topics.insert topic routed.1 }, routed.2)

/-- `dlqMoveCtx` inside `Apply`, which then returns `outcome`. On the leader the proposal of
`CreateTopic` waits for the apply goroutine, which is the caller; on any other node it is refused,
its error is ignored, and the proposal of the publish is refused as well. -/
def dlqMove (n : Node) (srcTopic payload : Bytes)
    (outcome : Except BrokerError (Option ApplyResult)) : ApplyRun :=
  let dlqTopic := srcTopic ++ dlqSuffix
  if n.isLeader then ⟨n, [dlqCreate dlqTopic], none⟩
  else
    match localRoute n dlqTopic 0 false [] with
    | (n, .error _) => ⟨n, [dlqCreate dlqTopic], some outcome⟩
    | (n, .ok partition) =>
      ⟨n, [dlqCreate dlqTopic, dlqPublish n.clock dlqTopic partition payload], some outcome⟩

/-- `ApplyNack`. -/
def applyNack (n : Node) (topic : Bytes) (partition : ℤ) (consumerID : Bytes) (msgID : ℕ) :
    ApplyRun :=
  match n.applyNack topic partition consumerID msgID with
  | (n, .error e) => ⟨n, [], some (.error e)⟩
  | (n, .ok (.redeliver _)) => ⟨n, [], some (.ok none)⟩
  | (n, .ok (.killed inf)) => dlqMove n topic inf.payload (.ok none)

/-- `Apply`. -/
def apply (n : Node) (entry : Entry) : ApplyRun :=
  let env := entry.env
  match env.kind with
  | .publish =>
    let r := n.applyPublish env.topic env.partition env.tsNs env.visibleAtNs entry.index
      env.dedupeKey env.payload
    ⟨r.1, [], some (r.2.map some)⟩
  | .ack =>
    let r := n.applyAck env.topic env.partition env.consumerID env.msgID.toNat
    ⟨r.1, [], some (r.2.map fun _ => none)⟩
  | .nack => applyNack n env.topic env.partition env.consumerID env.msgID.toNat
  | .createTopic =>
    let r := n.createTopicLocal env.topic env.partitions
    ⟨r.1, [], some (r.2.map fun _ => none)⟩

/-! ## When a command proposes -/

/-- The in-flight message that a command is about, if the consumer has it. -/
def inflightOf (n : Node) (env : Envelope) : Option Inflight :=
  match (n.partitionAt env.topic env.partition).2 with
  | .error _ => none
  | .ok p => (p.getOrCreateConsumer env.consumerID).inflight.lookup env.msgID.toNat

/-- The command is a nack of a message that was delivered as often as the dead-letter threshold
of its topic allows. -/
def Kills (n : Node) (env : Envelope) : Prop :=
  env.kind = .nack ∧ ∃ inf, inflightOf n env = some inf ∧
    0 < n.config.dlqThreshold env.topic ∧ n.config.dlqThreshold env.topic ≤ inf.attempts

/-- The call returned, and proposed nothing on the way. -/
def ApplyRun.Local (r : ApplyRun) : Prop := r.outcome.isSome ∧ r.proposals = []

theorem not_local_dlqMove (n : Node) (srcTopic payload : Bytes)
    (outcome : Except BrokerError (Option ApplyResult)) :
    ¬ (dlqMove n srcTopic payload outcome).Local := by
  unfold dlqMove ApplyRun.Local
  dsimp only
  split_ifs
  · simp
  · split <;> simp

theorem local_applyNack_iff (n : Node) (env : Envelope) :
    (applyNack n env.topic env.partition env.consumerID env.msgID.toNat).Local ↔
      ∀ inf, inflightOf n env = some inf →
        ¬ (0 < n.config.dlqThreshold env.topic ∧
          n.config.dlqThreshold env.topic ≤ inf.attempts) := by
  unfold applyNack Node.applyNack Node.withConsumer inflightOf
  -- The cases follow the nack: no such partition, not in flight, and the two verdicts.
  rcases hat : n.partitionAt env.topic env.partition with ⟨n', e | p⟩
  · simp [ApplyRun.Local]
  · dsimp only
    unfold Consumer.nackOrKill
    cases hinf : (p.getOrCreateConsumer env.consumerID).inflight.lookup env.msgID.toNat with
    | none => simp [ApplyRun.Local]
    | some =>
      simp only [Option.some.injEq, forall_eq']
      unfold Inflight.verdict
      split_ifs with hdead
      · simp only [hdead, and_self, not_true_eq_false, iff_false]
        exact not_local_dlqMove _ _ _ _
      · simp [ApplyRun.Local, hdead]

/-- Applying a command returns without a proposal exactly when the command does not kill a
message. -/
theorem apply_local_iff (n : Node) (entry : Entry) :
    (apply n entry).Local ↔ ¬ Kills n entry.env := by
  unfold apply Kills
  dsimp only
  cases hkind : entry.env.kind with
  | publish | ack | createTopic => simp [ApplyRun.Local]
  | nack =>
    simp only [true_and, not_exists, not_and]
    rw [local_applyNack_iff]
    simp only [not_and]

/-! ## Steps of a node

Besides the commands of the log, a node takes steps of its own for the clients connected to it:
these open topics, deliver and take back messages, and never touch the log. -/

/-- The steps of a node that are not replicated. -/
inductive LocalAction where
  /-- A subscribe, publish or status request names a topic. -/
  | ensureTopic (topic : Bytes)
  /-- A publish is routed, before it is proposed. -/
  | route (topic : Bytes) (partition : ℤ) (explicit : Bool) (routingKey : Bytes)
  | subscribe (topic : Bytes) (partition : ℤ) (consumerID : Bytes)
  /-- The delivery goroutine registers record `k` of the log. -/
  | deliver (topic : Bytes) (partition : ℕ) (consumerID : Bytes) (k : ℕ)
  /-- The delivery goroutine is cancelled with a message it could not send. -/
  | rollback (topic : Bytes) (partition : ℕ) (consumerID : Bytes) (msgID : ℕ)
  | setPaused (topic : Bytes) (partition : ℕ) (consumerID : Bytes) (paused : Bool)
  /-- The redelivery sweep reaches a consumer, some of whose messages have expired. The move of
  the dead ones is a routed publish. -/
  | sweep (topic : Bytes) (partition : ℕ) (consumerID : Bytes) (expired : List ℕ)
  /-- The raft node wins or loses an election. -/
  | setLeader (isLeader : Bool)
  | tick (clock : UInt64)

/-- A local step. A delivery may register any record of the log, which covers every position that
a reader can have. -/
def localStep (n : Node) : LocalAction → Option Node
  | .ensureTopic topic => some (n.getOrCreateTopic topic).1
  | .route topic partition explicit routingKey =>
    some (localRoute n topic partition explicit routingKey).1
  | .subscribe topic partition consumerID =>
    some (n.withConsumer topic partition consumerID
      fun c => .ok ({ c with subscribed := true }, ())).1
  | .deliver topic partition consumerID k =>
    n.modifyConsumer topic partition consumerID fun p c =>
      if c.subscribed then p.log[k]?.map fun rec => c.register rec.msgID.toNat rec.payload
      else none
  | .rollback topic partition consumerID msgID =>
    n.modifyConsumer topic partition consumerID fun _ c => some (c.rollback msgID)
  | .setPaused topic partition consumerID paused =>
    n.modifyConsumer topic partition consumerID fun _ c => some { c with paused := paused }
  | .sweep topic partition consumerID expired =>
    n.modifyConsumer topic partition consumerID fun _ c =>
      some (c.collectExpired (n.config.dlqThreshold topic) expired)
  | .setLeader isLeader => some { n with isLeader := isLeader }
  | .tick clock => some { n with clock := clock }

/-- A step of a node: local, or the next entry of the log. -/
inductive Action where
  | loc (a : LocalAction)
  | apply (entry : Entry)

/-- A step of a node. An entry whose application waits forever is never behind it. -/
def step (n : Node) : Action → Option Node
  | .loc a => localStep n a
  | .apply entry => if (apply n entry).outcome.isSome then some (apply n entry).node else none

/-- A message published, delivered once and nacked, where one delivery is the limit. -/
def killRun : List Action :=
  [.apply ⟨1, { kind := .publish, topic := [116], payload := [109] }⟩,
    .loc (.subscribe [116] 0 [99]), .loc (.deliver [116] 0 [99] 0), .loc (.setLeader true)]

/-- On the leader, applying the nack of a message that has used up its deliveries never
returns. -/
theorem apply_blocks : ∃ n, Run step (fun _ _ => True) (.new ⟨8, 1, 4, 1⟩) killRun n ∧
    (apply n ⟨2, { kind := .nack, topic := [116], consumerID := [99], msgID := 0 }⟩).outcome =
      none ∧
    (apply n ⟨2, { kind := .nack, topic := [116], consumerID := [99], msgID := 0 }⟩).proposals =
      [dlqCreate [116, 46, 100, 108, 113]] := by
  refine exists_run_of_exec (P := fun n =>
    let r := apply n ⟨2, { kind := .nack, topic := [116], consumerID := [99], msgID := 0 }⟩
    r.outcome.isNone ∧ r.proposals = [dlqCreate [116, 46, 100, 108, 113]]) (by decide +kernel) ?_
  rintro n - ⟨houtcome, hproposals⟩
  exact ⟨Option.isNone_iff_eq_none.mp houtcome, hproposals⟩

end ToyMQ.Replication
