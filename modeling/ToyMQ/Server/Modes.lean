import ToyMQ.Replication.Envelope
import ToyMQ.Server.Standalone

/-!
# Standalone and replicated execution

A broker without a raft node runs a command inline; one with a raft node encodes it, and the state
machine decodes the entry and applies it. The two are meant to be the same but for the stamp that a
replicated record carries.

The parser lets through every 64-bit partition number, and the envelope holds 32 bits of it. The two
executions have the same outcome and leave the same state when these numbers fit
(`sameResult_of_narrow`). Otherwise the entry is the command at another number, and `modes_agree`
says exactly when that makes no difference, in every state of the broker and for everything the
parser admits. `modes_differ` is an ack of a partition that does not exist, which the replicated
broker takes for one of a partition that does.
-/

namespace ToyMQ.Server

open Lib Broker Replication List Option

/-- What a client is told of a command that changes the broker. -/
abbrev Outcome := Except BrokerError (Option ApplyResult)

/-! ## The two executions -/

/-- The command on a standalone broker; nothing for a command that changes no broker. -/
def inline (n : Node) (currentTopic : Bytes) : Command → Option (Node × Outcome)
  | .pub c =>
    some ((publishCtx n c.topic c.dedupeKey c.routingKey c.partition c.partitionSet c.payload
      c.delayMs).map id (Except.map some))
  | .ack consumerID partition msgID =>
    some ((n.applyAck currentTopic partition consumerID msgID.toNat).map id
      (Except.map fun _ => none))
  | .nack consumerID partition msgID =>
    some ((nackCtx n currentTopic partition consumerID msgID.toNat).map id
      (Except.map fun _ => none))
  | .create topic partitions =>
    some ((createTopic n topic partitions).map id (Except.map fun _ => none))
  | _ => none

/-- A proposal that commits at `index`, on the node that made it. `Apply` panics when it cannot
decode the entry, and there is no outcome then. -/
def propose (n : Node) (index : UInt64) (env : Envelope) : Option (Node × Outcome) :=
  match decode (encode env) with
  | .error _ => none
  | .ok env =>
    (apply n ⟨index, env⟩).outcome.map fun outcome => ((apply n ⟨index, env⟩).node, outcome)

/-- The envelope of `proposePublish`. -/
def publishEnvelope (clock : UInt64) (c : PubCommand) (partition : ℕ) : Envelope :=
  { kind := .publish, topic := c.topic, partition := int32 partition, dedupeKey := c.dedupeKey
    tsNs := clock, visibleAtNs := visibleAt clock c.delayMs, payload := c.payload }

/-- The envelopes of `AckCtx` and `NackCtx`. -/
def settleEnvelope (kind : Kind) (topic : Bytes) (partition : ℤ) (consumerID : Bytes)
    (msgID : UInt64) : Envelope :=
  { kind := kind, topic := topic, partition := int32 partition, consumerID := consumerID
    msgID := msgID }

/-- The envelope of `CreateTopic`. -/
def createEnvelope (topic : Bytes) (partitions : ℤ) : Envelope :=
  { kind := .createTopic, topic := topic, partitions := int32 partitions }

/-- The command on the leader of a replicated broker, where its proposal commits at `index`. A
publish is routed first, and a creation checked. -/
def replicated (n : Node) (index : UInt64) (currentTopic : Bytes) :
    Command → Option (Node × Outcome)
  | .pub c =>
    match localRoute n c.topic c.partition c.partitionSet c.routingKey with
    | (n, .error e) => some (n, .error e)
    | (n, .ok i) => propose n index (publishEnvelope n.clock c i)
  | .ack consumerID partition msgID =>
    propose n index (settleEnvelope .ack currentTopic partition consumerID msgID)
  | .nack consumerID partition msgID =>
    propose n index (settleEnvelope .nack currentTopic partition consumerID msgID)
  | .create topic partitions =>
    if partitions < 1 then some (n, .error (.badPartitions partitions))
    else propose n index (createEnvelope topic partitions)
  | _ => none

/-! ## What the parser admits -/

/-- The commands that change a broker, as `ReadCommand` returns them: their words are on one line,
and their numbers are in the range that is checked there. -/
def Admitted : Command → Prop
  | .pub c =>
    c.topic.length ≤ maxLineLength ∧ c.dedupeKey.length ≤ maxLineLength ∧
      c.payload.length ≤ defaultMaxPayload ∧ 0 ≤ c.partition ∧ c.partition < 2 ^ 63
  | .ack consumerID partition _ | .nack consumerID partition _ =>
    consumerID.length ≤ maxLineLength ∧ 0 ≤ partition ∧ partition < 2 ^ 63
  | .create topic partitions =>
    topic.length ≤ maxLineLength ∧ 1 ≤ partitions ∧ partitions < 2 ^ 63
  | _ => False

/-- The partition that a command goes to, or the count it asks for, is a number of 32 bits. -/
def Narrow (n : Node) : Command → Prop
  | .pub c => ∀ i, (localRoute n c.topic c.partition c.partitionSet c.routingKey).2 = .ok i →
      i < 2 ^ 31
  | .ack _ partition _ | .nack _ partition _ => partition < 2 ^ 31
  | .create _ partitions => partitions < 2 ^ 31
  | _ => True

/-! ## Brokers that differ by the stamps of their records -/

/-- The record as a standalone broker writes it. -/
def unstamped (rec : Wal.Record) : Wal.Record := { rec with raftIndex := 0 }

def unstampedPartition (p : Partition) : Partition := { p with log := p.log.map unstamped }

def unstampedTopic (t : Topic) : Topic :=
  { t with partitions := t.partitions.map unstampedPartition }

/-- The brokers are the same but for the raft indexes in their records. -/
structure SameButStamps (n n' : Node) : Prop where
  config : n'.config = n.config
  topics : ∀ t, (n'.topics.lookup t).map unstampedTopic = (n.topics.lookup t).map unstampedTopic
  appliedHighWater : n'.appliedHighWater = n.appliedHighWater
  isLeader : n'.isLeader = n.isLeader
  clock : n'.clock = n.clock

theorem SameButStamps.refl (n : Node) : SameButStamps n n := ⟨rfl, fun _ => rfl, rfl, rfl, rfl⟩

/-- Storing partitions that differ by stamps. -/
theorem SameButStamps.setPartition (n : Node) (topic : Bytes) (i : ℕ) {p p' : Partition}
    (h : unstampedPartition p' = unstampedPartition p) :
    SameButStamps (n.setPartition topic i p) (n.setPartition topic i p') := by
  unfold Node.setPartition
  split
  · exact .refl n
  · refine ⟨rfl, fun t => ?_, rfl, rfl, rfl⟩
    by_cases ht : t = topic
    · rw [ht, AList.lookup_insert, AList.lookup_insert]
      simp only [map_some, unstampedTopic, map_set, h]
    · rw [AList.lookup_insert_ne ht, AList.lookup_insert_ne ht]

variable {dedupeKey payload : Bytes}

/-- A record fits with a stamp when it fits without. -/
theorem fits_nextRecord_iff (p : Partition) (tsNs visibleAtNs raftIndex : UInt64)
    (hkey : dedupeKey.length ≤ maxLineLength) (hpayload : payload.length ≤ defaultMaxPayload) :
    Wal.Fits (p.nextRecord tsNs visibleAtNs raftIndex dedupeKey payload) ↔
      dedupeKey.length ≤ 65535 := by
  have htrailer : ∀ rec, (Wal.trailer rec).length ≤ 16 := by
    intro rec
    unfold Wal.trailer
    split_ifs <;> simp
  have hsize : (Wal.inner (p.nextRecord tsNs visibleAtNs raftIndex dedupeKey payload)).length + 4 ≤
      Wal.maxRecordSize := by
    have htr := htrailer (p.nextRecord tsNs visibleAtNs raftIndex dedupeKey payload)
    simp only [Wal.inner, Wal.header, length_append, length_leBytes, Partition.nextRecord]
      at htr ⊢
    unfold maxLineLength at hkey
    unfold defaultMaxPayload at hpayload
    unfold Wal.maxRecordSize
    omega
  exact and_iff_left hsize

/-- A publish does the same with a stamp as without. -/
theorem applyPublish_stamp (p : Partition) (tsNs visibleAtNs raftIndex : UInt64)
    (hkey : dedupeKey.length ≤ maxLineLength) (hpayload : payload.length ≤ defaultMaxPayload) :
    (p.applyPublish tsNs visibleAtNs raftIndex dedupeKey payload).2 =
        (p.applyPublish tsNs visibleAtNs 0 dedupeKey payload).2 ∧
      unstampedPartition (p.applyPublish tsNs visibleAtNs raftIndex dedupeKey payload).1 =
        unstampedPartition (p.applyPublish tsNs visibleAtNs 0 dedupeKey payload).1 := by
  unfold Partition.applyPublish
  rcases DedupeIndex.find p.dedupe dedupeKey with ⟨_ | existing, dedupe⟩
  · simp only [fits_nextRecord_iff p _ _ _ hkey hpayload]
    split_ifs
    · refine ⟨rfl, ?_⟩
      simp only [unstampedPartition, map_append, map_cons, map_nil]
      rfl
    · exact ⟨rfl, rfl⟩
  · exact ⟨rfl, rfl⟩

/-! ## Agreement -/

/-- The two executions have the same outcome, and leave the same broker but for stamps. -/
def SameResult (left right : Option (Node × Outcome)) : Prop :=
  ∃ n n' outcome, left = some (n, outcome) ∧ right = some (n', outcome) ∧ SameButStamps n n'

theorem SameResult.refl (n : Node) (outcome : Outcome) :
    SameResult (some (n, outcome)) (some (n, outcome)) :=
  ⟨n, n, outcome, rfl, rfl, .refl n⟩

variable {env : Envelope} {n : Node} {v : ℤ}

/-- A proposal is the application of its envelope. -/
theorem propose_eq (h : env.Sendable) (n : Node) (index : UInt64) :
    propose n index env =
      (apply n ⟨index, env⟩).outcome.map fun outcome =>
        ((apply n ⟨index, env⟩).node, outcome) := by
  rw [propose, decode_encode h]

/-- A publish at a fresh index does what one without an index does. -/
theorem sameResult_applyPublish {index : UInt64} (hfresh : n.appliedHighWater < index)
    (topic : Bytes) (partition : ℤ) (tsNs visibleAtNs : UInt64)
    (hkey : dedupeKey.length ≤ maxLineLength) (hpayload : payload.length ≤ defaultMaxPayload) :
    (n.applyPublish topic partition tsNs visibleAtNs index dedupeKey payload).2 =
        (n.applyPublish topic partition tsNs visibleAtNs 0 dedupeKey payload).2 ∧
      SameButStamps (n.applyPublish topic partition tsNs visibleAtNs 0 dedupeKey payload).1
        (n.applyPublish topic partition tsNs visibleAtNs index dedupeKey payload).1 := by
  unfold Node.applyPublish
  rw [if_neg (fun h => UInt64.not_le.mpr hfresh h.2), if_neg (fun h => h.1 rfl)]
  rcases n.partitionAt topic partition with ⟨opened, e | p⟩
  · exact ⟨rfl, .refl opened⟩
  · obtain ⟨houtcome, hsame⟩ := applyPublish_stamp p tsNs visibleAtNs index hkey hpayload
    exact ⟨houtcome, .setPartition opened topic _ hsame⟩

theorem appliedHighWater_localRoute (n : Node) (topic : Bytes) (partition : ℤ) (explicit : Bool)
    (routingKey : Bytes) :
    (localRoute n topic partition explicit routingKey).1.appliedHighWater =
      n.appliedHighWater := by
  unfold localRoute Node.getOrCreateTopic
  split <;> rfl

/-- An admitted command fits an envelope. -/
theorem sendable_of_lengths (hpartition : IsInt32 env.partition)
    (hpartitions : IsInt32 env.partitions) (htopic : env.topic.length ≤ maxLineLength)
    (hkey : env.dedupeKey.length ≤ maxLineLength)
    (hconsumer : env.consumerID.length ≤ maxLineLength)
    (hpayload : env.payload.length ≤ defaultMaxPayload) : env.Sendable := by
  refine ⟨hpartition, hpartitions, ?_⟩
  rw [length_encode]
  unfold maxLineLength at htopic hkey hconsumer
  unfold defaultMaxPayload at hpayload
  unfold maxEnvelopeSize
  omega

theorem isInt32_zero : IsInt32 0 := by decide

theorem isInt32_of_nonneg (hpos : 0 ≤ v) (hlt : v < 2 ^ 31) : IsInt32 v := by
  unfold IsInt32
  omega

/-! ## What an entry does at the number it holds -/

section

variable {n : Node} {index : UInt64} {currentTopic consumerID : Bytes} {partition : ℤ}
  {msgID : UInt64}

variable {topic : Bytes} {partitions : ℤ} {c : PubCommand} {routed : Node} {i : ℕ}

/-- The proposal of an ack or a nack applies it to the partition that 32 bits of its number
name. -/
theorem propose_settle {kind : Kind} (htopic : topic.length ≤ maxLineLength)
    (hconsumer : consumerID.length ≤ maxLineLength) :
    propose n index (settleEnvelope kind topic partition consumerID msgID) =
      let r := apply n ⟨index, settleEnvelope kind topic partition consumerID msgID⟩
      r.outcome.map fun outcome => (r.node, outcome) :=
  propose_eq (sendable_of_lengths (isInt32_int32 _) isInt32_zero htopic (Nat.zero_le _) hconsumer
    (Nat.zero_le _)) n index

theorem replicated_ack (htopic : currentTopic.length ≤ maxLineLength)
    (hadm : Admitted (.ack consumerID partition msgID)) :
    replicated n index currentTopic (.ack consumerID partition msgID) =
      some ((n.applyAck currentTopic (int32 partition) consumerID msgID.toNat).map id
        (Except.map fun _ => none)) := by
  rw [replicated, propose_settle htopic hadm.1]
  rfl

/-- Without a dead-letter policy a nack kills nothing. -/
theorem applyNack_ne_killed {msgID : ℕ} (hdlq : n.config.dlqAfterNacks ≤ 0) (m : Node)
    (inf : Inflight) : n.applyNack topic partition consumerID msgID ≠ (m, .ok (.killed inf)) := by
  have hzero : n.config.dlqThreshold topic = 0 := by simp [Config.dlqThreshold, hdlq]
  unfold Node.applyNack Node.withConsumer Consumer.nackOrKill
  rw [hzero]
  rcases n.partitionAt topic partition with ⟨opened, e | p⟩
  · simp
  · dsimp only
    cases (p.getOrCreateConsumer consumerID).inflight.lookup msgID with
    | none => simp
    | some => simp [Inflight.verdict_zero]

theorem nackCtx_eq {msgID : ℕ} (hdlq : n.config.dlqAfterNacks ≤ 0) :
    nackCtx n currentTopic partition consumerID msgID =
      (n.applyNack currentTopic partition consumerID msgID).map id (Except.map fun _ => ()) := by
  unfold nackCtx
  rcases hres : n.applyNack currentTopic partition consumerID msgID with ⟨m, e | inf | inf⟩
  · rfl
  · rfl
  · exact absurd hres (applyNack_ne_killed hdlq m inf)

theorem replicated_nack (hdlq : n.config.dlqAfterNacks ≤ 0)
    (htopic : currentTopic.length ≤ maxLineLength)
    (hadm : Admitted (.nack consumerID partition msgID)) :
    replicated n index currentTopic (.nack consumerID partition msgID) =
      some ((nackCtx n currentTopic (int32 partition) consumerID msgID.toNat).map id
        (Except.map fun _ => none)) := by
  rw [replicated, propose_settle htopic hadm.1, nackCtx_eq hdlq]
  simp only [apply, settleEnvelope, applyNack]
  rcases hres : n.applyNack currentTopic (int32 partition) consumerID msgID.toNat with
    ⟨m, e | inf | inf⟩
  · rfl
  · rfl
  · exact absurd hres (applyNack_ne_killed hdlq m inf)

theorem inline_create (hadm : Admitted (.create topic partitions)) :
    inline n currentTopic (.create topic partitions) =
      some ((n.createTopicLocal topic partitions).map id (Except.map fun _ => none)) := by
  obtain ⟨-, hpos, -⟩ := hadm
  rw [inline, createTopic, if_neg (by omega)]

theorem replicated_create (hadm : Admitted (.create topic partitions)) :
    replicated n index currentTopic (.create topic partitions) =
      some ((n.createTopicLocal topic (int32 partitions)).map id
        (Except.map fun _ => none)) := by
  obtain ⟨htopic, hpos, -⟩ := hadm
  have hsend : (createEnvelope topic partitions).Sendable :=
    sendable_of_lengths isInt32_zero (isInt32_int32 _) htopic (Nat.zero_le _) (Nat.zero_le _)
      (Nat.zero_le _)
  rw [replicated, if_neg (by omega), propose_eq hsend]
  rfl

theorem replicated_pub (hadm : Admitted (.pub c))
    (hroute : localRoute n c.topic c.partition c.partitionSet c.routingKey = (routed, .ok i)) :
    replicated n index currentTopic (.pub c) =
      some ((routed.applyPublish c.topic (int32 i) routed.clock (visibleAt routed.clock c.delayMs)
        index c.dedupeKey c.payload).map id (Except.map some)) := by
  obtain ⟨htopic, hkey, hpayload, -, -⟩ := hadm
  have hsend : (publishEnvelope routed.clock c i).Sendable :=
    sendable_of_lengths (isInt32_int32 _) isInt32_zero htopic hkey (Nat.zero_le _) hpayload
  rw [replicated, hroute]
  dsimp only
  rw [propose_eq hsend]
  simp only [apply, publishEnvelope, map_some]
  rfl

theorem appliedHighWater_lt_of_route (hfresh : n.appliedHighWater < index)
    (hroute : localRoute n c.topic c.partition c.partitionSet c.routingKey = (routed, .ok i)) :
    routed.appliedHighWater < index := by
  have hmark := appliedHighWater_localRoute n c.topic c.partition c.partitionSet c.routingKey
  rw [hroute] at hmark
  exact hmark.trans_lt hfresh

/-- A number of 32 bits is the one that the entry holds, and the executions have the same outcome,
errors included, and leave the same broker but for stamps. -/
theorem sameResult_of_narrow {cmd : Command} (hdlq : n.config.dlqAfterNacks ≤ 0)
    (hfresh : n.appliedHighWater < index) (htopic : currentTopic.length ≤ maxLineLength)
    (hadm : Admitted cmd) (hnarrow : Narrow n cmd) :
    SameResult (inline n currentTopic cmd) (replicated n index currentTopic cmd) := by
  cases cmd with
  | pub c =>
    rcases hroute : localRoute n c.topic c.partition c.partitionSet c.routingKey with
      ⟨routed, e | i⟩
    · simp only [inline, replicated, publishCtx, hroute]
      exact .refl _ _
    · have hlt : i < 2 ^ 31 := hnarrow i (by rw [hroute])
      have hint : int32 (i : ℤ) = i :=
        int32_eq_self (isInt32_of_nonneg (by omega) (by omega))
      obtain ⟨houtcome, hsame⟩ := sameResult_applyPublish
        (appliedHighWater_lt_of_route hfresh hroute) c.topic i routed.clock
        (visibleAt routed.clock c.delayMs) hadm.2.1 hadm.2.2.1
      rw [replicated_pub hadm hroute, hint]
      simp only [inline, publishCtx, hroute]
      exact ⟨_, _, _, rfl, congrArg some (Prod.ext rfl (congrArg (Except.map some) houtcome)),
        hsame⟩
  | ack =>
    rw [replicated_ack htopic hadm, int32_eq_self (isInt32_of_nonneg hadm.2.1 hnarrow)]
    exact .refl _ _
  | nack =>
    rw [replicated_nack hdlq htopic hadm, int32_eq_self (isInt32_of_nonneg hadm.2.1 hnarrow)]
    exact .refl _ _
  | create =>
    obtain ⟨-, hpos, -⟩ := id hadm
    rw [replicated_create hadm, inline_create hadm,
      int32_eq_self (isInt32_of_nonneg (by omega) hnarrow)]
    exact .refl _ _
  | sub | pause | resume | traceparent | info => exact hadm.elim

end

/-! ## What a command leaves behind -/

/-- The records of a partition without their stamps. -/
def recordsIn (n : Node) (t : Bytes) (i : ℕ) : Option (List Wal.Record) :=
  (n.partition? t i).map fun p => p.log.map unstamped

/-- A consumer of a partition; one that no command has named is a new one. -/
def consumerIn (n : Node) (t : Bytes) (i : ℕ) (consumerID : Bytes) : Option Consumer :=
  (n.partition? t i).map fun p => p.getOrCreateConsumer consumerID

/-- The number of partitions of a topic that is open. -/
def countOf (n : Node) (t : Bytes) : Option ℕ :=
  (n.topics.lookup t).map fun tp => tp.partitions.length

/-- The brokers have the same topics with the same partition counts, the same records but for their
stamps, and the same consumers. -/
structure SameState (n n' : Node) : Prop where
  counts : countOf n' = countOf n
  records : recordsIn n' = recordsIn n
  consumers : consumerIn n' = consumerIn n

/-- Both executions fail, or both succeed with the same id and duplicate flag; and they leave the
same state. -/
def SameEffect (left right : Option (Node × Outcome)) : Prop :=
  ∃ n n' a b, left = some (n, a) ∧ right = some (n', b) ∧ a.toOption = b.toOption ∧ SameState n n'

namespace SameState

variable {n n' n'' : Node}

theorem refl (n : Node) : SameState n n := ⟨rfl, rfl, rfl⟩

theorem symm (h : SameState n n') : SameState n' n :=
  ⟨h.counts.symm, h.records.symm, h.consumers.symm⟩

theorem trans (h : SameState n n') (h' : SameState n' n'') : SameState n n'' :=
  ⟨h'.counts.trans h.counts, h'.records.trans h.records, h'.consumers.trans h.consumers⟩

end SameState

variable {n' : Node}

/-- What is compared does not depend on the stamps. -/
theorem SameButStamps.sameState (h : SameButStamps n n') : SameState n n' := by
  have hcount (m : Node) (t : Bytes) : countOf m t =
      ((m.topics.lookup t).map unstampedTopic).map fun tp => tp.partitions.length := by
    simp [countOf, unstampedTopic, Function.comp_def]
  have hrecords (m : Node) (t : Bytes) (i : ℕ) : recordsIn m t i =
      ((m.topics.lookup t).map unstampedTopic).bind fun tp =>
        tp.partitions[i]?.map Partition.log := by
    cases hm : m.topics.lookup t <;>
      simp [recordsIn, Node.partition?, hm, unstampedTopic, unstampedPartition, Function.comp_def]
  have hconsumers (m : Node) (t : Bytes) (i : ℕ) (id : Bytes) : consumerIn m t i id =
      ((m.topics.lookup t).map unstampedTopic).bind fun tp =>
        tp.partitions[i]?.map fun p => p.getOrCreateConsumer id := by
    cases hm : m.topics.lookup t <;>
      simp [consumerIn, Node.partition?, hm, unstampedTopic, unstampedPartition,
        Function.comp_def, Partition.getOrCreateConsumer]
  refine ⟨?_, ?_, ?_⟩
  · funext t
    rw [hcount, hcount, h.topics]
  · funext t i
    rw [hrecords, hrecords, h.topics]
  · funext t i id
    rw [hconsumers, hconsumers, h.topics]

theorem SameResult.sameEffect {left right : Option (Node × Outcome)} (h : SameResult left right) :
    SameEffect left right := by
  obtain ⟨n, n', outcome, hleft, hright, hsame⟩ := h
  exact ⟨n, n', outcome, outcome, hleft, hright, rfl, hsame.sameState⟩

theorem sameEffect_some_iff {a b : Outcome} :
    SameEffect (some (n, a)) (some (n', b)) ↔ a.toOption = b.toOption ∧ SameState n n' := by
  constructor
  · rintro ⟨m, m', a', b', hleft, hright, hsame⟩
    cases hleft
    cases hright
    exact hsame
  · exact fun h => ⟨n, n', a, b, rfl, rfl, h⟩

section

variable {m : Node} {topic : Bytes} {i : ℕ} {p p' : Partition}

theorem countOf_setPartition (m : Node) (topic : Bytes) (i : ℕ) (p' : Partition) :
    countOf (m.setPartition topic i p') = countOf m := by
  funext t
  unfold countOf Node.setPartition
  split
  · rfl
  next tp htp =>
    by_cases ht : t = topic
    · rw [ht, AList.lookup_insert, htp, map_some, map_some, length_set]
    · rw [AList.lookup_insert_ne ht]

theorem recordsIn_setPartition (hp : m.partition? topic i = some p) (t : Bytes) (j : ℕ) :
    recordsIn (m.setPartition topic i p') t j =
      if t = topic ∧ j = i then some (p'.log.map unstamped) else recordsIn m t j := by
  unfold recordsIn
  rw [Node.partition?_setPartition hp]
  split_ifs <;> rfl

theorem consumerIn_setPartition (hp : m.partition? topic i = some p) (t : Bytes) (j : ℕ)
    (id : Bytes) :
    consumerIn (m.setPartition topic i p') t j id =
      if t = topic ∧ j = i then some (p'.getOrCreateConsumer id) else consumerIn m t j id := by
  unfold consumerIn
  rw [Node.partition?_setPartition hp]
  split_ifs <;> rfl

/-- A partition that keeps its records and its consumers may be replaced. -/
theorem SameState.setPartition (hp : m.partition? topic i = some p)
    (hlog : p'.log.map unstamped = p.log.map unstamped)
    (hconsumers : ∀ id, p'.getOrCreateConsumer id = p.getOrCreateConsumer id) :
    SameState m (m.setPartition topic i p') := by
  refine ⟨countOf_setPartition m topic i p', ?_, ?_⟩
  · funext t j
    rw [recordsIn_setPartition hp]
    split_ifs with hat
    · rw [hat.1, hat.2, recordsIn, hp, map_some, hlog]
    · rfl
  · funext t j id
    rw [consumerIn_setPartition hp]
    split_ifs with hat
    · rw [hat.1, hat.2, consumerIn, hp, map_some, hconsumers]
    · rfl

end

/-! ## Acks and nacks at two numbers -/

/-- The consumer has the message in flight in that partition. -/
def HasInflight (n : Node) (topic : Bytes) (partition : ℤ) (consumerID : Bytes) (msgID : ℕ) :
    Prop :=
  ∃ p, (n.partitionAt topic partition).2 = .ok p ∧
    msgID ∈ (p.getOrCreateConsumer consumerID).inflight

/-- What an ack and a nack have in common: they are accepted when the message is in flight, and an
accepted one changes the consumer. -/
structure Settles {α : Type} (msgID : ℕ) (f : Consumer → Except BrokerError (Consumer × α)) :
    Prop where
  isOk_iff : ∀ c, (f c).isOk = true ↔ msgID ∈ c.inflight
  changes : ∀ c c' a, f c = .ok (c', a) → c' ≠ c

theorem settles_ack (msgID : ℕ) :
    Settles msgID fun c => (c.ack msgID).map fun c' => (c', ()) where
  isOk_iff c := by
    unfold Consumer.ack
    split_ifs with hmem <;> simpa [Except.map, Except.isOk, Except.toBool] using hmem
  changes c c' a h := by
    unfold Consumer.ack at h
    split_ifs at h with hmem
    · cases h
      intro heq
      have hgone : msgID ∉ c.inflight := by
        rw [← congrArg Consumer.inflight heq]
        exact fun h => (AList.mem_erase.mp h).1 rfl
      exact hgone hmem
    · cases h

theorem settles_nack (msgID : ℕ) : Settles msgID fun c => c.nackOrKill msgID 0 where
  isOk_iff c := by
    unfold Consumer.nackOrKill
    rw [← AList.lookup_isSome]
    cases c.inflight.lookup msgID <;> simp [Except.isOk, Except.toBool]
  changes c c' a h := by
    unfold Consumer.nackOrKill at h
    cases hinf : c.inflight.lookup msgID with
    | none => simp [hinf] at h
    | some =>
      simp only [hinf, Inflight.verdict_zero, Consumer.settle, Except.ok.injEq,
        Prod.mk.injEq] at h
      obtain ⟨rfl, -⟩ := h
      intro heq
      -- The entry has one attempt more than before.
      have hlookup := congrArg (fun c : Consumer => c.inflight.lookup msgID) heq
      simp only [AList.lookup_insert, hinf, Option.some.injEq] at hlookup
      exact Nat.succ_ne_self _ (congrArg Inflight.attempts hlookup)

section

variable {n : Node} {topic consumerID : Bytes} {msgID : ℕ} {α : Type}
  {f : Consumer → Except BrokerError (Consumer × α)}

variable {partition : ℤ}

theorem withConsumer_of_not_hasInflight (hf : Settles msgID f)
    (h : ¬ HasInflight n topic partition consumerID msgID) :
    (n.withConsumer topic partition consumerID f).2.isOk = false ∧
      SameState (n.getOrCreateTopic topic).1 (n.withConsumer topic partition consumerID f).1 := by
  have hat : n.partitionAt topic partition =
      ((n.getOrCreateTopic topic).1, (n.partitionAt topic partition).2) := rfl
  unfold Node.withConsumer
  rw [hat]
  cases hp : (n.partitionAt topic partition).2 with
  | error => exact ⟨rfl, .refl _⟩
  | ok p =>
    cases hres : f (p.getOrCreateConsumer consumerID) with
    | error =>
      simp only [hres]
      refine ⟨rfl, .setPartition (Node.partitionAt_ok hp) rfl fun id => ?_⟩
      by_cases hid : id = consumerID
      · subst hid
        simp [Partition.getOrCreateConsumer, Partition.setConsumer]
      · simp [Partition.getOrCreateConsumer, Partition.setConsumer, AList.lookup_insert_ne hid]
    | ok => exact absurd ⟨p, hp, (hf.isOk_iff _).mp (by rw [hres]; rfl)⟩ h

theorem withConsumer_of_hasInflight (hf : Settles msgID f)
    (h : HasInflight n topic partition consumerID msgID) :
    (n.withConsumer topic partition consumerID f).2.isOk = true ∧ 0 ≤ partition ∧
      consumerIn (n.withConsumer topic partition consumerID f).1 topic partition.toNat consumerID ≠
        consumerIn (n.getOrCreateTopic topic).1 topic partition.toNat consumerID := by
  obtain ⟨p, hp, hmem⟩ := h
  have hat : n.partitionAt topic partition = ((n.getOrCreateTopic topic).1, .ok p) :=
    Prod.ext rfl hp
  have hread := Node.partitionAt_ok hp
  cases hres : f (p.getOrCreateConsumer consumerID) with
  | error =>
    have hok := (hf.isOk_iff _).mpr hmem
    rw [hres] at hok
    cases hok
  | ok r =>
    unfold Node.withConsumer
    simp only [hat, hres]
    refine ⟨rfl, (Topic.at_eq_ok_iff.mp hp).1, ?_⟩
    rw [consumerIn_setPartition hread, if_pos ⟨rfl, rfl⟩, consumerIn, hread, map_some]
    intro heq
    refine hf.changes _ r.1 r.2 hres ?_
    simpa [Partition.getOrCreateConsumer, Partition.setConsumer] using heq

theorem consumerIn_withConsumer_of_ne {i : ℕ} (hi : i ≠ partition.toNat) :
    consumerIn (n.withConsumer topic partition consumerID f).1 topic i consumerID =
      consumerIn (n.getOrCreateTopic topic).1 topic i consumerID :=
  Node.withConsumer_induction
    (P := fun m => consumerIn m topic i consumerID =
      consumerIn (n.getOrCreateTopic topic).1 topic i consumerID) rfl fun p c hread _ => by
    rw [consumerIn_setPartition hread, if_neg fun hat => hi hat.2]

/-- The same command at two partition numbers has the same effect exactly if it is refused at
both. -/
theorem withConsumer_agree_iff (hf : Settles msgID f) {partition' : ℤ}
    (hne : partition ≠ partition') :
    ((n.withConsumer topic partition consumerID f).2.isOk =
        (n.withConsumer topic partition' consumerID f).2.isOk ∧
      SameState (n.withConsumer topic partition consumerID f).1
        (n.withConsumer topic partition' consumerID f).1) ↔
    ¬ HasInflight n topic partition consumerID msgID ∧
      ¬ HasInflight n topic partition' consumerID msgID := by
  by_cases h : HasInflight n topic partition consumerID msgID <;>
    by_cases h' : HasInflight n topic partition' consumerID msgID
  · obtain ⟨-, hpos, hchanged⟩ := withConsumer_of_hasInflight hf h
    obtain ⟨-, hpos', -⟩ := withConsumer_of_hasInflight hf h'
    refine ⟨fun hsame => absurd ?_ hchanged, fun hnone => absurd h hnone.1⟩
    rw [← hsame.2.consumers, consumerIn_withConsumer_of_ne (by omega)]
  · obtain ⟨hok, -⟩ := withConsumer_of_hasInflight hf h
    obtain ⟨hok', -⟩ := withConsumer_of_not_hasInflight hf h'
    simp [h, hok, hok']
  · obtain ⟨hok, -⟩ := withConsumer_of_not_hasInflight hf h
    obtain ⟨hok', -⟩ := withConsumer_of_hasInflight hf h'
    simp [h', hok, hok']
  · obtain ⟨hok, hsame⟩ := withConsumer_of_not_hasInflight hf h
    obtain ⟨hok', hsame'⟩ := withConsumer_of_not_hasInflight hf h'
    simp [h, h', hok, hok', hsame.symm.trans hsame']

end

/-! ## Publishes and creations at two numbers -/

/-- What a publish that writes nothing returns: the id of the message that its key stands for, or
nothing when it is refused. There is no such answer when the publish appends a record. -/
def unwritten (n : Node) (topic : Bytes) (partition : ℤ) (dedupeKey : Bytes) :
    Option (Option UInt64) :=
  match (n.partitionAt topic partition).2 with
  | .error _ => some none
  | .ok p =>
    match (p.dedupe.find dedupeKey).1 with
    | some existing => some (some existing)
    | none => if dedupeKey.length ≤ 65535 then none else some none

section

variable {n : Node} {topic dedupeKey payload : Bytes} {tsNs visibleAtNs raftIndex : UInt64}

variable {partition partition' : ℤ}

theorem applyPublish_of_unwritten_eq_some {r : Option UInt64}
    (hfresh : ¬ (raftIndex ≠ 0 ∧ raftIndex ≤ n.appliedHighWater))
    (hkey : dedupeKey.length ≤ maxLineLength) (hpayload : payload.length ≤ defaultMaxPayload)
    (h : unwritten n topic partition dedupeKey = some r) :
    (n.applyPublish topic partition tsNs visibleAtNs raftIndex dedupeKey payload).2.toOption =
        r.map (fun id => ⟨id, true⟩) ∧
      SameState (n.getOrCreateTopic topic).1
        (n.applyPublish topic partition tsNs visibleAtNs raftIndex dedupeKey payload).1 := by
  unfold unwritten at h
  cases hp : (n.partitionAt topic partition).2 with
  | error =>
    rw [Node.applyPublish_of_error hfresh hp]
    simp only [hp, Option.some.injEq] at h
    exact ⟨by rw [← h]; rfl, .refl _⟩
  | ok p =>
    rw [Node.applyPublish_of_ok hfresh hp, Partition.applyPublish]
    simp only [hp] at h
    rcases hfind : DedupeIndex.find p.dedupe dedupeKey with ⟨_ | existing, dedupe⟩
    · simp only [hfind] at h
      split_ifs at h with hlen
      cases h
      simp only [fits_nextRecord_iff p _ _ _ hkey hpayload, if_neg hlen]
      exact ⟨rfl, .setPartition (Node.partitionAt_ok hp) rfl fun _ => rfl⟩
    · simp only [hfind, Option.some.injEq] at h
      subst h
      exact ⟨rfl, .setPartition (Node.partitionAt_ok hp) rfl fun _ => rfl⟩

theorem applyPublish_of_unwritten_eq_none
    (hfresh : ¬ (raftIndex ≠ 0 ∧ raftIndex ≤ n.appliedHighWater))
    (hkey : dedupeKey.length ≤ maxLineLength) (hpayload : payload.length ≤ defaultMaxPayload)
    (h : unwritten n topic partition dedupeKey = none) :
    0 ≤ partition ∧
      recordsIn (n.applyPublish topic partition tsNs visibleAtNs raftIndex dedupeKey payload).1
          topic partition.toNat ≠
        recordsIn (n.getOrCreateTopic topic).1 topic partition.toNat := by
  unfold unwritten at h
  cases hp : (n.partitionAt topic partition).2 with
  | error => simp [hp] at h
  | ok p =>
    rw [Node.applyPublish_of_ok hfresh hp, Partition.applyPublish]
    have hread := Node.partitionAt_ok hp
    simp only [hp] at h
    rcases hfind : DedupeIndex.find p.dedupe dedupeKey with ⟨_ | existing, dedupe⟩
    · simp only [hfind, ite_eq_left_iff, reduceCtorEq, imp_false, not_not] at h
      simp only [fits_nextRecord_iff p _ _ _ hkey hpayload, if_pos h]
      refine ⟨(Topic.at_eq_ok_iff.mp hp).1, ?_⟩
      rw [recordsIn_setPartition hread, if_pos ⟨rfl, rfl⟩, recordsIn, hread, map_some]
      simp
    · simp [hfind] at h

theorem recordsIn_applyPublish_of_ne (hfresh : ¬ (raftIndex ≠ 0 ∧ raftIndex ≤ n.appliedHighWater))
    (hpos : 0 ≤ partition) (hne : partition ≠ partition') :
    recordsIn (n.applyPublish topic partition' tsNs visibleAtNs raftIndex dedupeKey payload).1
        topic partition.toNat =
      recordsIn (n.getOrCreateTopic topic).1 topic partition.toNat := by
  cases hp : (n.partitionAt topic partition').2 with
  | error => rw [Node.applyPublish_of_error hfresh hp]
  | ok =>
    have hpos' := (Topic.at_eq_ok_iff.mp hp).1
    rw [Node.applyPublish_of_ok hfresh hp, recordsIn_setPartition (Node.partitionAt_ok hp),
      if_neg fun hat => by omega]

/-- The same publish to two partition numbers has the same effect exactly if it writes nothing at
either and returns the same answer. -/
theorem applyPublish_agree_iff (hne : partition ≠ partition')
    (hfresh : ¬ (raftIndex ≠ 0 ∧ raftIndex ≤ n.appliedHighWater))
    (hkey : dedupeKey.length ≤ maxLineLength) (hpayload : payload.length ≤ defaultMaxPayload) :
    let left := n.applyPublish topic partition tsNs visibleAtNs 0 dedupeKey payload
    let right := n.applyPublish topic partition' tsNs visibleAtNs raftIndex dedupeKey payload
    (left.2.toOption = right.2.toOption ∧ SameState left.1 right.1) ↔
      ∃ r, unwritten n topic partition dedupeKey = some r ∧
        unwritten n topic partition' dedupeKey = some r := by
  intro left right
  have hzero : ¬ ((0 : UInt64) ≠ 0 ∧ 0 ≤ n.appliedHighWater) := fun h => h.1 rfl
  cases hl : unwritten n topic partition dedupeKey with
  | none =>
    obtain ⟨hpos, hchanged⟩ := applyPublish_of_unwritten_eq_none hzero hkey hpayload hl
    refine ⟨fun hsame => absurd ?_ hchanged, by simp⟩
    exact (congrFun (congrFun hsame.2.records topic) _).symm.trans
      (recordsIn_applyPublish_of_ne hfresh hpos hne)
  | some =>
    cases hr : unwritten n topic partition' dedupeKey with
    | none =>
      obtain ⟨hpos, hchanged⟩ := applyPublish_of_unwritten_eq_none hfresh hkey hpayload hr
      refine ⟨fun hsame => absurd ?_ hchanged, by simp⟩
      exact (congrFun (congrFun hsame.2.records topic) _).trans
        (recordsIn_applyPublish_of_ne hzero hpos hne.symm)
    | some =>
      obtain ⟨hleft, hsame⟩ := applyPublish_of_unwritten_eq_some hzero hkey hpayload hl
      obtain ⟨hright, hsame'⟩ := applyPublish_of_unwritten_eq_some hfresh hkey hpayload hr
      have hinj : Function.Injective fun id : UInt64 => (⟨id, true⟩ : ApplyResult) :=
        fun _ _ h => congrArg ApplyResult.msgID h
      rw [show left.2.toOption = _ from hleft, show right.2.toOption = _ from hright,
        (map_injective hinj).eq_iff, and_iff_left (hsame.symm.trans hsame')]
      simp [eq_comm]

end

/-- A creation finds the topic with neither count or both, or would give a new topic the same count
in both cases. -/
def SameCount (n : Node) (topic : Bytes) (partitions partitions' : ℤ) : Prop :=
  match countOf n topic with
  | some count => count = partitions ↔ count = partitions'
  | none => n.config.partitionCount partitions = n.config.partitionCount partitions'

theorem createTopicLocal_agree_iff (n : Node) (topic : Bytes) (partitions partitions' : ℤ) :
    ((n.createTopicLocal topic partitions).2.isOk =
        (n.createTopicLocal topic partitions').2.isOk ∧
      SameState (n.createTopicLocal topic partitions).1
        (n.createTopicLocal topic partitions').1) ↔
    SameCount n topic partitions partitions' := by
  unfold SameCount countOf
  cases hlookup : n.topics.lookup topic with
  | some tp =>
    have hres (count : ℤ) : (n.createTopicLocal topic count).1 = n ∧
        ((n.createTopicLocal topic count).2.isOk = true ↔ tp.partitions.length = count) := by
      unfold Node.createTopicLocal
      simp only [hlookup]
      split_ifs with hne
      · exact ⟨rfl, by simpa [Except.isOk, Except.toBool] using hne⟩
      · exact ⟨rfl, by simpa [Except.isOk, Except.toBool] using hne⟩
    rw [(hres partitions).1, (hres partitions').1, and_iff_left (SameState.refl n),
      Bool.eq_iff_iff, (hres partitions).2, (hres partitions').2]
    rfl
  | none =>
    simp only [Node.createTopicLocal, hlookup, map_none]
    refine ⟨fun hsame => ?_, fun hcount => ?_⟩
    · have hcounts := congrFun hsame.2.counts topic
      simpa [countOf, Config.openTopic] using hcounts.symm
    · rw [Config.openTopic, hcount]
      exact ⟨trivial, .refl _⟩

/-! ## When the executions agree -/

/-- The command does the same at its number and at the 32 bits of it that the entry holds: an ack or
a nack is refused at both, a publish writes nothing at either, and a creation asks for counts that
come to the same. -/
def Harmless (n : Node) (currentTopic : Bytes) : Command → Prop
  | .pub c => ∀ routed i,
      localRoute n c.topic c.partition c.partitionSet c.routingKey = (routed, .ok i) →
      ∃ r, unwritten routed c.topic i c.dedupeKey = some r ∧
        unwritten routed c.topic (int32 i) c.dedupeKey = some r
  | .ack consumerID partition msgID | .nack consumerID partition msgID =>
    ¬ HasInflight n currentTopic partition consumerID msgID.toNat ∧
      ¬ HasInflight n currentTopic (int32 partition) consumerID msgID.toNat
  | .create topic partitions => SameCount n topic partitions (int32 partitions)
  | _ => True

theorem ne_int32 (h : ¬ v < 2 ^ 31) : v ≠ int32 v := by
  have hlt := (isInt32_int32 v).2
  omega

theorem sameEffect_map_iff {α : Type} {left right : Node × Except BrokerError α} :
    SameEffect (some (left.map id (Except.map fun _ => none)))
        (some (right.map id (Except.map fun _ => none))) ↔
      left.2.isOk = right.2.isOk ∧ SameState left.1 right.1 := by
  obtain ⟨n, a⟩ := left
  obtain ⟨n', b⟩ := right
  refine sameEffect_some_iff.trans (and_congr_left fun _ => ?_)
  cases a <;> cases b <;> simp [Except.map, Except.toOption, Except.isOk, Except.toBool]

theorem sameEffect_some_map_iff {left right : Node × Except BrokerError ApplyResult} :
    SameEffect (some (left.map id (Except.map some))) (some (right.map id (Except.map some))) ↔
      left.2.toOption = right.2.toOption ∧ SameState left.1 right.1 := by
  obtain ⟨n, a⟩ := left
  obtain ⟨n', b⟩ := right
  refine sameEffect_some_iff.trans (and_congr_left fun _ => ?_)
  cases a <;> cases b <;> simp [Except.map, Except.toOption]

/-- In every state of a broker without a dead-letter policy, a command that the parser admits has
the same effect inline and through the log, where it commits at an index that the broker has not
seen, exactly if its partition number or count is one of 32 bits or the 32 bits that the entry holds
do no harm: both fail, or both succeed with the same id and duplicate flag, and they leave the same
records but for their stamps, the same partition counts and the same consumers. -/
theorem modes_agree {n : Node} {index : UInt64} {currentTopic : Bytes} {cmd : Command}
    (hdlq : n.config.dlqAfterNacks ≤ 0) (hfresh : n.appliedHighWater < index)
    (htopic : currentTopic.length ≤ maxLineLength) (hadm : Admitted cmd) :
    SameEffect (inline n currentTopic cmd) (replicated n index currentTopic cmd) ↔
      Narrow n cmd ∨ Harmless n currentTopic cmd := by
  by_cases hnarrow : Narrow n cmd
  · exact iff_of_true (sameResult_of_narrow hdlq hfresh htopic hadm hnarrow).sameEffect
      (.inl hnarrow)
  rw [or_iff_right hnarrow]
  cases cmd with
  | pub c =>
    obtain ⟨i, hi, hwide⟩ : ∃ i,
        (localRoute n c.topic c.partition c.partitionSet c.routingKey).2 = .ok i ∧
          ¬ i < 2 ^ 31 := by simpa [Narrow] using hnarrow
    obtain ⟨routed, hroute⟩ : ∃ routed,
        localRoute n c.topic c.partition c.partitionSet c.routingKey = (routed, .ok i) :=
      ⟨_, Prod.ext rfl hi⟩
    have hnew : ¬ (index ≠ 0 ∧ index ≤ routed.appliedHighWater) := fun hold =>
      UInt64.not_le.mpr (appliedHighWater_lt_of_route hfresh hroute) hold.2
    rw [replicated_pub hadm hroute]
    simp only [inline, publishCtx, hroute]
    refine sameEffect_some_map_iff.trans
      ((applyPublish_agree_iff (ne_int32 (by omega)) hnew hadm.2.1 hadm.2.2.1).trans ?_)
    simp [Harmless, hroute]
  | ack =>
    rw [replicated_ack htopic hadm, inline, sameEffect_map_iff]
    exact withConsumer_agree_iff (settles_ack _) (ne_int32 hnarrow)
  | nack =>
    have hzero : n.config.dlqThreshold currentTopic = 0 := by simp [Config.dlqThreshold, hdlq]
    have hisOk (x : Except BrokerError Verdict) : (x.map fun _ => ()).isOk = x.isOk := by
      cases x <;> rfl
    rw [replicated_nack hdlq htopic hadm, inline, sameEffect_map_iff, nackCtx_eq hdlq,
      nackCtx_eq hdlq]
    simp only [Prod.map_snd, Prod.map_fst, hisOk, id, Node.applyNack, hzero]
    exact withConsumer_agree_iff (settles_nack _) (ne_int32 hnarrow)
  | create topic partitions =>
    rw [replicated_create hadm, inline_create hadm, sameEffect_map_iff]
    exact createTopicLocal_agree_iff n topic partitions (int32 partitions)
  | sub | pause | resume | traceparent | info => exact hadm.elim

/-- A broker with one message, which was delivered to a consumer. -/
def delivered : Option Node :=
  let published := publishCtx (.new ⟨8, 1, 4, 0⟩) [116] [] [] 0 false [109] 0
  (localStep published.1 (.subscribe [116] 0 [99])).bind fun n =>
    localStep n (.deliver [116] 0 [99] 0)

/-- What comes of a command: its outcome, and the offsets of the consumer in that broker. -/
def ackResult (r : Option (Node × Outcome)) : Option (Outcome × Option Offsets) :=
  r.map fun r =>
    (r.2, (r.1.partition? [116] 0).map fun p => (p.getOrCreateConsumer [99]).offsets)

instance : DecidableEq (Outcome × Option Offsets) := inferInstance

/-- The ack of a delivered message is recorded in both modes. -/
theorem modes_agree_delivered :
    ∃ n, delivered = some n ∧
      ackResult (inline n [116] (.ack [99] 0 0)) = some (.ok none, some ⟨true, 0, ∅⟩) ∧
      SameEffect (inline n [116] (.ack [99] 0 0)) (replicated n 1 [116] (.ack [99] 0 0)) := by
  obtain ⟨n, hn, hdlq, hfresh, hinline⟩ : ∃ n, delivered = some n ∧
      n.config.dlqAfterNacks ≤ 0 ∧ n.appliedHighWater < 1 ∧
      ackResult (inline n [116] (.ack [99] 0 0)) = some (.ok none, some ⟨true, 0, ∅⟩) := by
    decide +kernel
  have hadm : Admitted (.ack [99] 0 0) := by
    refine ⟨?_, ?_, ?_⟩ <;> decide
  have hnarrow : Narrow n (.ack [99] 0 0) := show (0 : ℤ) < 2 ^ 31 by decide
  exact ⟨n, hn, hinline, (modes_agree hdlq hfresh (by decide) hadm).mpr (.inl hnarrow)⟩

/-- An ack names a partition that does not exist. Inline it is refused; the envelope keeps 32 bits
of the number, and through the log the ack is recorded for partition 0. -/
theorem modes_differ :
    ∃ n, delivered = some n ∧ n.config.dlqAfterNacks ≤ 0 ∧ n.appliedHighWater < 1 ∧
      Admitted (.ack [99] 4294967296 0) ∧
      ackResult (inline n [116] (.ack [99] 4294967296 0)) =
        some (.error (.partitionRange 4294967296 1), some .new) ∧
      ackResult (replicated n 1 [116] (.ack [99] 4294967296 0)) =
        some (.ok none, some ⟨true, 0, ∅⟩) := by
  have hadm : Admitted (.ack [99] 4294967296 0) := by
    refine ⟨?_, ?_, ?_⟩ <;> decide
  obtain ⟨n, hn, hdlq, hfresh, hresults⟩ : ∃ n, delivered = some n ∧
      n.config.dlqAfterNacks ≤ 0 ∧ n.appliedHighWater < 1 ∧
      ackResult (inline n [116] (.ack [99] 4294967296 0)) =
        some (.error (.partitionRange 4294967296 1), some .new) ∧
      ackResult (replicated n 1 [116] (.ack [99] 4294967296 0)) =
        some (.ok none, some ⟨true, 0, ∅⟩) := by
    decide +kernel
  exact ⟨n, hn, hdlq, hfresh, hadm, hresults⟩

end ToyMQ.Server
