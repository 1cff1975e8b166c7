import ToyMQ.Broker.Consumer
import ToyMQ.Lib.Lru
import ToyMQ.Wal.Record

/-!
# Topics and partitions of a broker

The in-memory state of a broker and the deterministic operations on it: opening a topic, selecting
a partition, the tail of a publish, an ack and a nack. A topic that is named for the first time is
opened with the default partition count by every operation but an explicit creation, even when the
partition asked for then turns out not to exist.

A partition's log is the list of its records in order. The log numbers them from 0 and appends
return once the record is committed, so that between two operations the list is all there is to
say about it.
-/

namespace ToyMQ.Broker

open Lib Option

/-- The options of a broker that its state depends on. -/
structure Config where
  dedupeCap : ℕ
  defaultPartitions : ℤ
  recvWindow : ℕ
  /-- `--dlq-after-nacks`; dead-lettering is off unless it is positive. -/
  dlqAfterNacks : ℤ
deriving DecidableEq, Repr

/-- `DedupeIndex`: the ids of the original publishes by their dedupe keys. -/
abbrev DedupeIndex := Lru Bytes UInt64

/-- `Partition`. -/
structure Partition where
  log : List Wal.Record
  dedupe : DedupeIndex
  consumers : AList fun _ : Bytes => Consumer
  window : ℕ

/-- `Topic`. -/
structure Topic where
  partitions : List Partition
  /-- The round-robin cursor of publishes without a key. -/
  rr : UInt64

/-- `Broker`, for a broker with a raft node attached. -/
structure Node where
  config : Config
  topics : AList fun _ : Bytes => Topic
  /-- The highest raft index among the records recovered when the broker was opened. -/
  appliedHighWater : UInt64
  /-- Whether the raft node leads the cluster. -/
  isLeader : Bool
  /-- The clock that a leader stamps proposals with. -/
  clock : UInt64

/-- A broker opened on an empty directory. -/
def Node.new (config : Config) : Node := ⟨config, ∅, 0, false, 0⟩

/-! ## Opening topics -/

/-- `openPartition` on an empty directory. -/
def Config.openPartition (cfg : Config) : Partition :=
  ⟨[], .empty cfg.dedupeCap, ∅, cfg.recvWindow⟩

/-- The partition count that `openTopicLocked` gives a topic that is not on disk. -/
def Config.partitionCount (cfg : Config) (wantCount : ℤ) : ℕ :=
  let count := if 0 < wantCount then wantCount else cfg.defaultPartitions
  (if count < 1 then 1 else count).toNat

/-- `openTopicLocked` for a topic that is not on disk. -/
def Config.openTopic (cfg : Config) (wantCount : ℤ) : Topic :=
  ⟨List.replicate (cfg.partitionCount wantCount) cfg.openPartition, 0⟩

/-- `getOrCreateTopic`. Every topic on disk was opened with the broker, so that a topic that is
not open is a new one. -/
def Node.getOrCreateTopic (n : Node) (name : Bytes) : Node × Topic :=
  match n.topics.lookup name with
  | some t => (n, t)
  | none =>
    let t := n.config.openTopic 0
    ({ n with topics := n.topics.insert name t }, t)

/-- `createTopicLocal`. -/
def Node.createTopicLocal (n : Node) (name : Bytes) (partitions : ℤ) :
    Node × Except BrokerError Unit :=
  match n.topics.lookup name with
  | some t =>
    if t.partitions.length ≠ partitions then
      (n, .error (.topicExists t.partitions.length partitions))
    else (n, .ok ())
  | none => ({ n with topics := n.topics.insert name (n.config.openTopic partitions) }, .ok ())

/-- The range check of `partitionAt` and `route`. -/
def Topic.at (t : Topic) (partition : ℤ) : Except BrokerError Partition :=
  if partition < 0 then .error (.partitionRange partition t.partitions.length)
  else
    match t.partitions[partition.toNat]? with
    | none => .error (.partitionRange partition t.partitions.length)
    | some p => .ok p

/-- `partitionAt`. -/
def Node.partitionAt (n : Node) (topic : Bytes) (partition : ℤ) :
    Node × Except BrokerError Partition :=
  ((n.getOrCreateTopic topic).1, (n.getOrCreateTopic topic).2.at partition)

def Node.partition? (n : Node) (topic : Bytes) (i : ℕ) : Option Partition :=
  (n.topics.lookup topic).bind fun t => t.partitions[i]?

/-- The broker with one partition changed. -/
def Node.setPartition (n : Node) (topic : Bytes) (i : ℕ) (p : Partition) : Node :=
  match n.topics.lookup topic with
  | none => n
  | some t =>
    { n with topics := n.topics.insert topic { t with partitions := t.partitions.set i p } }

/-! ## Routing -/

/-- The FNV-1a hash. -/
def fnv1a (bs : Bytes) : UInt32 :=
  bs.foldl (fun h b => (h ^^^ b.toUInt32) * 16777619) 2166136261

-- The test vector of the hash on one letter.
example : fnv1a [97] = 0xE40C292C := by decide

/-- `route`: an explicit partition, or the one a routing key hashes to, or the next in turn. -/
def Topic.route (t : Topic) (partition : ℤ) (explicit : Bool) (routingKey : Bytes) :
    Topic × Except BrokerError ℕ :=
  let n := t.partitions.length
  if explicit then (t, (t.at partition).map fun _ => partition.toNat)
  else if n = 1 then (t, .ok 0)
  else if routingKey ≠ [] then (t, .ok (fnv1a routingKey % UInt32.ofNat n).toNat)
  else ({ t with rr := t.rr + 1 }, .ok (t.rr % UInt64.ofNat n).toNat)

/-! ## Publishing -/

/-- What a publish returns: the id of the message, and whether it was a duplicate. -/
structure ApplyResult where
  msgID : UInt64
  dup : Bool
deriving DecidableEq, Repr

def DedupeIndex.find (d : DedupeIndex) (dedupeKey : Bytes) : Option UInt64 × DedupeIndex :=
  if dedupeKey ≠ [] then d.lookup dedupeKey else (none, d)

/-- The insertion into the dedupe index, also that of `rebuildIndexes`. -/
def DedupeIndex.note (d : DedupeIndex) (dedupeKey : Bytes) (msgID : UInt64) : DedupeIndex :=
  if dedupeKey ≠ [] then d.insert dedupeKey msgID else d

/-- The record that a publish appends. -/
def Partition.nextRecord (p : Partition) (tsNs visibleAtNs raftIndex : UInt64)
    (dedupeKey payload : Bytes) : Wal.Record :=
  ⟨UInt64.ofNat p.log.length, tsNs, dedupeKey, payload, visibleAtNs, raftIndex⟩

/-- `applyPublish`. -/
def Partition.applyPublish (p : Partition) (tsNs visibleAtNs raftIndex : UInt64)
    (dedupeKey payload : Bytes) : Partition × Except BrokerError ApplyResult :=
  match p.dedupe.find dedupeKey with
  | (some existing, dedupe) => ({ p with dedupe := dedupe }, .ok ⟨existing, true⟩)
  | (none, _) =>
    let rec' := p.nextRecord tsNs visibleAtNs raftIndex dedupeKey payload
    if Wal.Fits rec' then
      ({ p with log := p.log ++ [rec'], dedupe := p.dedupe.note dedupeKey rec'.msgID },
        .ok ⟨rec'.msgID, false⟩)
    else (p, .error .tooLarge)

/-- `ApplyPublish`. -/
def Node.applyPublish (n : Node) (topic : Bytes) (partition : ℤ)
    (tsNs visibleAtNs raftIndex : UInt64) (dedupeKey payload : Bytes) :
    Node × Except BrokerError ApplyResult :=
  if raftIndex ≠ 0 ∧ raftIndex ≤ n.appliedHighWater then (n, .ok ⟨0, false⟩)
  else
    match n.partitionAt topic partition with
    | (n, .error e) => (n, .error e)
    | (n, .ok p) =>
      let r := p.applyPublish tsNs visibleAtNs raftIndex dedupeKey payload
      (n.setPartition topic partition.toNat r.1, r.2)

/-! ## Acks and nacks -/

/-- `getOrCreateConsumer`. -/
def Partition.getOrCreateConsumer (p : Partition) (consumerID : Bytes) : Consumer :=
  (p.consumers.lookup consumerID).getD (.new consumerID p.window)

/-- The partition with one consumer changed or created. -/
def Partition.setConsumer (p : Partition) (consumerID : Bytes) (c : Consumer) : Partition :=
  { p with consumers := p.consumers.insert consumerID c }

/-- Runs `f` on a consumer of a partition, both of which are looked up first; the consumer is
created even when `f` then fails. -/
def Node.withConsumer {α : Type} (n : Node) (topic : Bytes) (partition : ℤ) (consumerID : Bytes)
    (f : Consumer → Except BrokerError (Consumer × α)) : Node × Except BrokerError α :=
  match n.partitionAt topic partition with
  | (n, .error e) => (n, .error e)
  | (n, .ok p) =>
    let c := p.getOrCreateConsumer consumerID
    match f c with
    | .error e => (n.setPartition topic partition.toNat (p.setConsumer consumerID c), .error e)
    | .ok (c', a) => (n.setPartition topic partition.toNat (p.setConsumer consumerID c'), .ok a)

/-- `applyAck`. -/
def Node.applyAck (n : Node) (topic : Bytes) (partition : ℤ) (consumerID : Bytes) (msgID : ℕ) :
    Node × Except BrokerError Unit :=
  n.withConsumer topic partition consumerID fun c => (c.ack msgID).map fun c' => (c', ())

/-- The suffix of dead-letter topics. -/
def dlqSuffix : Bytes := [46, 100, 108, 113]

/-- `isDLQTopic`. -/
def isDLQTopic (name : Bytes) : Bool := dlqSuffix.isSuffixOf name

/-- `dlqThreshold`. -/
def Config.dlqThreshold (cfg : Config) (topic : Bytes) : ℕ :=
  if cfg.dlqAfterNacks ≤ 0 || isDLQTopic topic then 0 else cfg.dlqAfterNacks.toNat

/-- The part of `applyNack` that decides on the message. -/
def Node.applyNack (n : Node) (topic : Bytes) (partition : ℤ) (consumerID : Bytes) (msgID : ℕ) :
    Node × Except BrokerError Verdict :=
  n.withConsumer topic partition consumerID fun c =>
    c.nackOrKill msgID (n.config.dlqThreshold topic)

/-- Runs `f` on a consumer that exists, with the partition it belongs to. -/
def Node.modifyConsumer (n : Node) (topic : Bytes) (i : ℕ) (consumerID : Bytes)
    (f : Partition → Consumer → Option Consumer) : Option Node :=
  (n.partition? topic i).bind fun p =>
    (p.consumers.lookup consumerID).bind fun c =>
      (f p c).map fun c' => n.setPartition topic i (p.setConsumer consumerID c')

/-! ## Reading a partition back -/

/-- Looking a topic up opens it if it is new. -/
theorem Node.lookup_getOrCreateTopic (n : Node) (topic : Bytes) :
    (n.getOrCreateTopic topic).1.topics.lookup topic = some (n.getOrCreateTopic topic).2 := by
  unfold Node.getOrCreateTopic
  split
  next t ht => exact ht
  · exact AList.lookup_insert _

variable {topic t : Bytes} {partition : ℤ} {p : Partition} {n : Node} {i : ℕ}

theorem Node.lookup_getOrCreateTopic_ne (n : Node) (h : t ≠ topic) :
    (n.getOrCreateTopic topic).1.topics.lookup t = n.topics.lookup t := by
  unfold Node.getOrCreateTopic
  split
  · rfl
  · exact AList.lookup_insert_ne h

@[simp]
theorem Node.config_getOrCreateTopic (n : Node) (topic : Bytes) :
    (n.getOrCreateTopic topic).1.config = n.config := by
  unfold Node.getOrCreateTopic
  split <;> rfl

theorem Node.appliedHighWater_getOrCreateTopic (n : Node) (topic : Bytes) :
    (n.getOrCreateTopic topic).1.appliedHighWater = n.appliedHighWater := by
  unfold Node.getOrCreateTopic
  split <;> rfl

/-- The range check passes for the partitions of the topic. -/
theorem Topic.at_eq_ok_iff {t : Topic} :
    t.at partition = .ok p ↔ 0 ≤ partition ∧ t.partitions[partition.toNat]? = some p := by
  unfold Topic.at
  by_cases hneg : partition < 0
  · simp [hneg]
  · rw [if_neg hneg]
    cases t.partitions[partition.toNat]? <;> simp [Int.not_lt.mp hneg]

/-- The partition returned can be read there afterwards. -/
theorem Node.partitionAt_ok (h : (n.partitionAt topic partition).2 = .ok p) :
    (n.getOrCreateTopic topic).1.partition? topic partition.toNat = some p := by
  unfold Node.partition?
  rw [n.lookup_getOrCreateTopic]
  exact (Topic.at_eq_ok_iff.mp h).2

/-- A change of a partition is seen there alone. -/
theorem Node.partition?_setPartition (hp : n.partition? topic i = some p) (p' : Partition)
    (t : Bytes) (j : ℕ) :
    (n.setPartition topic i p').partition? t j =
      if t = topic ∧ j = i then some p' else n.partition? t j := by
  obtain ⟨tp, htp, hi⟩ := bind_eq_some_iff.mp hp
  have hlen : i < tp.partitions.length := (List.getElem?_eq_some_iff.mp hi).1
  unfold Node.setPartition Node.partition?
  rw [htp]
  by_cases ht : t = topic
  · subst ht
    rw [AList.lookup_insert, htp, bind_some, bind_some, List.getElem?_set]
    by_cases hj : j = i
    · subst hj
      simp [hlen]
    · simp [hj, Ne.symm hj]
  · rw [AList.lookup_insert_ne ht, if_neg (fun h => ht h.1)]

/-! ## What holds of every partition -/

/-- Every partition of the broker satisfies `Q`. -/
def Node.Each (n : Node) (Q : Bytes → ℕ → Partition → Prop) : Prop :=
  ∀ t i p, n.partition? t i = some p → Q t i p

namespace Node.Each

variable {n : Node} {Q : Bytes → ℕ → Partition → Prop}

variable {topic : Bytes}

/-- A topic that is opened adds new partitions. -/
theorem insert_new (h : n.Each Q) (hnew : ∀ i, Q topic i n.config.openPartition) (want : ℤ) :
    Node.Each { n with topics := n.topics.insert topic (n.config.openTopic want) } Q := by
  intro t i p hp
  unfold Node.partition? at hp
  by_cases ht : t = topic
  · subst ht
    rw [AList.lookup_insert, bind_some] at hp
    have hfresh : p = n.config.openPartition :=
      List.eq_of_mem_replicate (List.mem_of_getElem? hp)
    rw [hfresh]
    exact hnew i
  · rw [AList.lookup_insert_ne ht] at hp
    exact h t i p hp

theorem getOrCreateTopic (h : n.Each Q) (hnew : ∀ i, Q topic i n.config.openPartition) :
    (n.getOrCreateTopic topic).1.Each Q := by
  unfold Node.getOrCreateTopic
  split
  · exact h
  · exact h.insert_new hnew 0

theorem createTopicLocal (h : n.Each Q) (hnew : ∀ i, Q topic i n.config.openPartition)
    (partitions : ℤ) : (n.createTopicLocal topic partitions).1.Each Q := by
  unfold Node.createTopicLocal
  split
  · split_ifs <;> exact h
  · exact h.insert_new hnew partitions

/-- A changed partition has to satisfy `Q` again. -/
theorem setPartition (h : n.Each Q) {i : ℕ} {p p' : Partition} (hp : n.partition? topic i = some p)
    (hp' : Q topic i p') : (n.setPartition topic i p').Each Q := by
  intro t j q hq
  rw [Node.partition?_setPartition hp] at hq
  split_ifs at hq with hat
  · obtain ⟨rfl, rfl⟩ := hat
    exact Option.some.inj hq ▸ hp'
  · exact h t j q hq

end Node.Each

@[simp]
theorem Node.config_setPartition (n : Node) (topic : Bytes) (i : ℕ) (p : Partition) :
    (n.setPartition topic i p).config = n.config := by
  unfold Node.setPartition
  split <;> rfl

@[simp]
theorem Node.config_createTopicLocal (n : Node) (topic : Bytes) (partitions : ℤ) :
    (n.createTopicLocal topic partitions).1.config = n.config := by
  unfold Node.createTopicLocal
  split
  · split_ifs <;> rfl
  · rfl

/-! ## What a publish does -/

/-- The tail of a publish finds a duplicate, or appends a record, or refuses one that does not fit
a frame. -/
theorem Partition.applyPublish_cases (p : Partition) (tsNs visibleAtNs raftIndex : UInt64)
    (dedupeKey payload : Bytes) :
    (∃ id, dedupeKey ≠ [] ∧ p.dedupe.get? dedupeKey = some id ∧
      p.applyPublish tsNs visibleAtNs raftIndex dedupeKey payload =
        ({ p with dedupe := (p.dedupe.lookup dedupeKey).2 }, .ok ⟨id, true⟩)) ∨
    ((dedupeKey = [] ∨ p.dedupe.get? dedupeKey = none) ∧
      let rec' := p.nextRecord tsNs visibleAtNs raftIndex dedupeKey payload
      if Wal.Fits rec' then
        p.applyPublish tsNs visibleAtNs raftIndex dedupeKey payload =
          ({ p with log := p.log ++ [rec'], dedupe := p.dedupe.note dedupeKey rec'.msgID },
            .ok ⟨rec'.msgID, false⟩)
      else
        p.applyPublish tsNs visibleAtNs raftIndex dedupeKey payload = (p, .error .tooLarge)) := by
  unfold Partition.applyPublish DedupeIndex.find
  by_cases hnil : dedupeKey = []
  · refine .inr ⟨.inl hnil, ?_⟩
    simp only [hnil, ne_eq, not_true_eq_false, if_false]
    split_ifs <;> rfl
  · rw [if_pos hnil]
    have hlookup := p.dedupe.lookup_fst dedupeKey
    rcases hres : p.dedupe.lookup dedupeKey with ⟨_ | id, d⟩
    · rw [hres] at hlookup
      refine .inr ⟨.inr hlookup.symm, ?_⟩
      dsimp only
      split_ifs <;> rfl
    · rw [hres] at hlookup
      exact .inl ⟨id, hnil, hlookup.symm, rfl⟩

section

variable {n : Node} {topic : Bytes} {partition : ℤ} {tsNs visibleAtNs raftIndex : UInt64}
  {dedupeKey payload : Bytes}

/-- A publish out of range opens the topic. -/
theorem Node.applyPublish_of_error {e : BrokerError}
    (hfresh : ¬ (raftIndex ≠ 0 ∧ raftIndex ≤ n.appliedHighWater))
    (he : (n.partitionAt topic partition).2 = .error e) :
    n.applyPublish topic partition tsNs visibleAtNs raftIndex dedupeKey payload =
      ((n.getOrCreateTopic topic).1, .error e) := by
  have hat : n.partitionAt topic partition = ((n.getOrCreateTopic topic).1, .error e) :=
    Prod.ext rfl he
  rw [Node.applyPublish, if_neg hfresh, hat]

/-- A publish is applied to the partition found. -/
theorem Node.applyPublish_of_ok {p : Partition}
    (hfresh : ¬ (raftIndex ≠ 0 ∧ raftIndex ≤ n.appliedHighWater))
    (hp : (n.partitionAt topic partition).2 = .ok p) :
    n.applyPublish topic partition tsNs visibleAtNs raftIndex dedupeKey payload =
      ((n.getOrCreateTopic topic).1.setPartition topic partition.toNat
          (p.applyPublish tsNs visibleAtNs raftIndex dedupeKey payload).1,
        (p.applyPublish tsNs visibleAtNs raftIndex dedupeKey payload).2) := by
  have hat : n.partitionAt topic partition = ((n.getOrCreateTopic topic).1, .ok p) :=
    Prod.ext rfl hp
  rw [Node.applyPublish, if_neg hfresh, hat]

variable {P : Node → Prop}

theorem Node.applyPublish_induction (hskip : P n) (hopen : P (n.getOrCreateTopic topic).1)
    (hset : ∀ p, (n.getOrCreateTopic topic).1.partition? topic partition.toNat = some p →
      P ((n.getOrCreateTopic topic).1.setPartition topic partition.toNat
        (p.applyPublish tsNs visibleAtNs raftIndex dedupeKey payload).1)) :
    P (n.applyPublish topic partition tsNs visibleAtNs raftIndex dedupeKey payload).1 := by
  by_cases hfresh : raftIndex ≠ 0 ∧ raftIndex ≤ n.appliedHighWater
  · rwa [Node.applyPublish, if_pos hfresh]
  · cases hp : (n.partitionAt topic partition).2 with
    | error => rwa [Node.applyPublish_of_error hfresh hp]
    | ok p =>
      rw [Node.applyPublish_of_ok hfresh hp]
      exact hset p (Node.partitionAt_ok hp)

/-- What holds of a broker after a topic is opened, and after one consumer of the partition is
stored as it was found or as `f` returns it, holds after the operation on that consumer. -/
theorem Node.withConsumer_induction {α : Type} {consumerID : Bytes}
    {f : Consumer → Except BrokerError (Consumer × α)} (hopen : P (n.getOrCreateTopic topic).1)
    (hset : ∀ p c, (n.getOrCreateTopic topic).1.partition? topic partition.toNat = some p →
      (c = p.getOrCreateConsumer consumerID ∨
        ∃ a, f (p.getOrCreateConsumer consumerID) = .ok (c, a)) →
      P ((n.getOrCreateTopic topic).1.setPartition topic partition.toNat
        (p.setConsumer consumerID c))) : P (n.withConsumer topic partition consumerID f).1 := by
  have hat : n.partitionAt topic partition =
      ((n.getOrCreateTopic topic).1, (n.partitionAt topic partition).2) := rfl
  unfold Node.withConsumer
  rw [hat]
  cases hp : (n.partitionAt topic partition).2 with
  | error => exact hopen
  | ok p =>
    dsimp only
    split
    · exact hset p _ (Node.partitionAt_ok hp) (.inl rfl)
    next c a hf => exact hset p _ (Node.partitionAt_ok hp) (.inr ⟨a, hf⟩)

end

/-! ## Consumers -/

def Node.consumer? (n : Node) (topic : Bytes) (i : ℕ) (consumerID : Bytes) : Option Consumer :=
  (n.partition? topic i).bind fun p => p.consumers.lookup consumerID

/-- A topic that is opened has no consumers. -/
theorem Node.consumer?_insert_new (h : n.topics.lookup topic = none) (count : ℤ) :
    { n with topics := n.topics.insert topic (n.config.openTopic count) }.consumer? =
      n.consumer? := by
  funext t i c
  unfold Node.consumer? Node.partition?
  by_cases ht : t = topic
  · rw [ht, AList.lookup_insert, h, bind_some, Config.openTopic, List.getElem?_replicate]
    split_ifs <;> rfl
  · rw [AList.lookup_insert_ne ht]

@[simp]
theorem Node.consumer?_getOrCreateTopic (n : Node) (topic : Bytes) :
    (n.getOrCreateTopic topic).1.consumer? = n.consumer? := by
  unfold Node.getOrCreateTopic
  split
  · rfl
  next h => exact Node.consumer?_insert_new h 0

@[simp]
theorem Node.consumer?_createTopicLocal (n : Node) (topic : Bytes) (partitions : ℤ) :
    (n.createTopicLocal topic partitions).1.consumer? = n.consumer? := by
  unfold Node.createTopicLocal
  split
  · split_ifs <;> rfl
  next h => exact Node.consumer?_insert_new h partitions

/-- A change that leaves a partition's consumers leaves all. -/
theorem Node.consumer?_setPartition {p' : Partition} (hp : n.partition? topic i = some p)
    (hconsumers : p'.consumers = p.consumers) :
    (n.setPartition topic i p').consumer? = n.consumer? := by
  funext t j c
  unfold Node.consumer?
  rw [Node.partition?_setPartition hp]
  split_ifs with hat
  · obtain ⟨rfl, rfl⟩ := hat
    rw [hp, bind_some, bind_some, hconsumers]
  · rfl

theorem Partition.consumers_applyPublish (p : Partition) (tsNs visibleAtNs raftIndex : UInt64)
    (dedupeKey payload : Bytes) :
    (p.applyPublish tsNs visibleAtNs raftIndex dedupeKey payload).1.consumers = p.consumers := by
  unfold Partition.applyPublish
  split
  · rfl
  · dsimp only
    split_ifs <;> rfl

/-- A publish leaves the consumers alone. -/
theorem Node.consumer?_applyPublish (n : Node) (topic : Bytes) (partition : ℤ)
    (tsNs visibleAtNs raftIndex : UInt64) (dedupeKey payload : Bytes) :
    (n.applyPublish topic partition tsNs visibleAtNs raftIndex dedupeKey payload).1.consumer? =
      n.consumer? := by
  refine Node.applyPublish_induction (P := fun m => m.consumer? = n.consumer?) rfl
    (n.consumer?_getOrCreateTopic topic) fun p hread => ?_
  rw [Node.consumer?_setPartition hread (p.consumers_applyPublish _ _ _ _ _),
    n.consumer?_getOrCreateTopic]

/-- The consumers of other topics are left alone. -/
theorem Node.consumer?_withConsumer {α : Type} (n : Node) (ht : t ≠ topic) (partition : ℤ)
    (consumerID : Bytes) (f : Consumer → Except BrokerError (Consumer × α)) :
    (n.withConsumer topic partition consumerID f).1.consumer? t = n.consumer? t := by
  refine Node.withConsumer_induction (P := fun m => m.consumer? t = n.consumer? t) ?_
    fun p c hread _ => ?_
  · rw [n.consumer?_getOrCreateTopic]
  · funext j d
    unfold Node.consumer?
    rw [Node.partition?_setPartition hread, if_neg fun hat => ht hat.1]
    exact congrFun (congrFun (congrFun (n.consumer?_getOrCreateTopic topic) t) j) d

end ToyMQ.Broker
