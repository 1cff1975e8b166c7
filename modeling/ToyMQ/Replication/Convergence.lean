import ToyMQ.Replication.StateMachine

/-!
# Convergence of consumer offsets

Two nodes apply the same log, and each delivers messages to its own clients in between. The
offsets of their consumers are meant to depend on the log alone. An ack, however, is accepted only
for a message in flight, and messages are in flight where they were delivered: in general on one
node. That node records the ack and the others refuse it.

`offsets_of_apply` and `lasting_offsets` say what a step does to the offsets: an accepted ack is the
only one that changes them. `offsets_converge` follows for the runs in which every acked
message is in flight on both nodes or on neither, and `offsets_diverge` is the run of a single
delivery and its ack.
-/

namespace ToyMQ.Broker

open Lib Option

/-- The offsets of a consumer; those of a new one when it does not exist. -/
def Partition.offsets (p : Partition) (consumerID : Bytes) : Offsets :=
  ((p.consumers.lookup consumerID).map Consumer.offsets).getD .new

def Node.offsets (n : Node) (topic : Bytes) (i : ℕ) (consumerID : Bytes) : Offsets :=
  ((n.partition? topic i).map fun p => p.offsets consumerID).getD .new

/-- The offsets after an accepted ack. -/
def ackAt (o : Bytes → ℕ → Bytes → Offsets) (topic : Bytes) (i : ℕ) (consumerID : Bytes)
    (msgID : ℕ) : Bytes → ℕ → Bytes → Offsets := fun t j c =>
  if (t = topic ∧ j = i) ∧ c = consumerID then (o t j c).ack msgID else o t j c

/-! ## Operations that leave the offsets alone -/

theorem Partition.offsets_getOrCreateConsumer (p : Partition) (consumerID : Bytes) :
    (p.getOrCreateConsumer consumerID).offsets = p.offsets consumerID := by
  unfold Partition.getOrCreateConsumer Partition.offsets
  cases p.consumers.lookup consumerID <;> rfl

theorem Partition.offsets_setConsumer (p : Partition) (consumerID : Bytes) (c : Consumer)
    (d : Bytes) :
    (p.setConsumer consumerID c).offsets d =
      if d = consumerID then c.offsets else p.offsets d := by
  unfold Partition.setConsumer Partition.offsets
  split_ifs with hd
  · rw [hd, AList.lookup_insert]
    rfl
  · rw [AList.lookup_insert_ne hd]

theorem Node.offsets_eq (n : Node) (topic : Bytes) (i : ℕ) (consumerID : Bytes) :
    n.offsets topic i consumerID =
      ((n.consumer? topic i consumerID).map Consumer.offsets).getD .new := by
  unfold Node.offsets Node.consumer?
  cases n.partition? topic i <;> rfl

variable {n n' : Node} {topic : Bytes} {i : ℕ} {p : Partition}

/-- What leaves the consumers alone leaves their offsets. -/
theorem Node.offsets_congr (h : n'.consumer? = n.consumer?) : n'.offsets = n.offsets := by
  funext t i c
  rw [n'.offsets_eq, n.offsets_eq, h]

@[simp]
theorem Node.offsets_getOrCreateTopic (n : Node) (topic : Bytes) :
    (n.getOrCreateTopic topic).1.offsets = n.offsets :=
  Node.offsets_congr (n.consumer?_getOrCreateTopic topic)

@[simp]
theorem Node.offsets_createTopicLocal (n : Node) (topic : Bytes) (partitions : ℤ) :
    (n.createTopicLocal topic partitions).1.offsets = n.offsets :=
  Node.offsets_congr (n.consumer?_createTopicLocal topic partitions)

/-- A changed partition changes its own offsets alone. -/
theorem Node.offsets_setPartition (hp : n.partition? topic i = some p) (p' : Partition) (t : Bytes)
    (j : ℕ) (c : Bytes) :
    (n.setPartition topic i p').offsets t j c =
      if t = topic ∧ j = i then p'.offsets c else n.offsets t j c := by
  unfold Node.offsets
  rw [Node.partition?_setPartition hp]
  split_ifs <;> rfl

/-- A changed consumer changes its own offsets alone. -/
theorem Node.offsets_setConsumer (hp : n.partition? topic i = some p) (consumerID : Bytes)
    (c : Consumer) (t : Bytes) (j : ℕ) (d : Bytes) :
    (n.setPartition topic i (p.setConsumer consumerID c)).offsets t j d =
      if (t = topic ∧ j = i) ∧ d = consumerID then c.offsets else n.offsets t j d := by
  rw [Node.offsets_setPartition hp, Partition.offsets_setConsumer]
  by_cases hat : t = topic ∧ j = i
  · obtain ⟨rfl, rfl⟩ := hat
    simp only [and_self, true_and, if_true]
    split_ifs
    · rfl
    · unfold Node.offsets
      rw [hp]
      rfl
  · rw [if_neg hat, if_neg (fun h => hat h.1)]

section WithConsumer

variable {α : Type} {f : Consumer → Except BrokerError (Consumer × α)}

/-- What an operation on a consumer does to the offsets: nothing when there is no such partition
or the operation fails, and else what it does to those of the consumer. -/
theorem Node.offsets_withConsumer (n : Node) (topic : Bytes) (partition : ℤ)
    (consumerID : Bytes) :
    (n.withConsumer topic partition consumerID f).1.offsets =
      match (n.partitionAt topic partition).2 with
      | .error _ => n.offsets
      | .ok p =>
        match f (p.getOrCreateConsumer consumerID) with
        | .error _ => n.offsets
        | .ok (c', _) => fun t j d =>
          if (t = topic ∧ j = partition.toNat) ∧ d = consumerID then c'.offsets
          else n.offsets t j d := by
  unfold Node.withConsumer
  have hat : n.partitionAt topic partition =
      ((n.getOrCreateTopic topic).1, (n.partitionAt topic partition).2) := rfl
  rw [hat]
  cases hp : (n.partitionAt topic partition).2 with
  | error => exact n.offsets_getOrCreateTopic topic
  | ok p =>
    have hread := Node.partitionAt_ok hp
    dsimp only
    cases hf : f (p.getOrCreateConsumer consumerID) with
    | error =>
      -- The consumer is stored as it was found, or new.
      funext t j d
      dsimp only
      rw [Node.offsets_setConsumer hread, p.offsets_getOrCreateConsumer,
        n.offsets_getOrCreateTopic]
      split_ifs with hd
      · obtain ⟨⟨rfl, rfl⟩, rfl⟩ := hd
        rw [← n.offsets_getOrCreateTopic t]
        unfold Node.offsets
        rw [hread]
        rfl
      · rfl
    | ok =>
      funext t j d
      exact (Node.offsets_setConsumer hread _ _ t j d).trans
        (by rw [n.offsets_getOrCreateTopic])

theorem Node.offsets_of_partitionAt {n : Node} {topic : Bytes} {partition : ℤ} {p : Partition}
    (hp : (n.partitionAt topic partition).2 = .ok p) (consumerID : Bytes) :
    (p.getOrCreateConsumer consumerID).offsets =
      n.offsets topic partition.toNat consumerID := by
  rw [p.offsets_getOrCreateConsumer, ← n.offsets_getOrCreateTopic topic]
  unfold Node.offsets
  rw [Node.partitionAt_ok hp]
  rfl

end WithConsumer

end ToyMQ.Broker

namespace ToyMQ.Replication

open Lib Broker Option

/-! ## What a step does to the offsets -/

/-- The node accepts the ack of a command: the message is in flight for the consumer. -/
def Accepts (n : Node) (env : Envelope) : Prop := (inflightOf n env).isSome

instance (n : Node) (env : Envelope) : Decidable (Accepts n env) :=
  inferInstanceAs (Decidable (_ = true))

/-- The offsets after a command that the node accepts, if it is an ack. -/
def ackedBy (o : Bytes → ℕ → Bytes → Offsets) (env : Envelope) : Bytes → ℕ → Bytes → Offsets :=
  ackAt o env.topic env.partition.toNat env.consumerID env.msgID.toNat

/-- An ack succeeds exactly when the message is in flight. -/
theorem isOk_applyAck_iff (n : Node) (env : Envelope) :
    (n.applyAck env.topic env.partition env.consumerID env.msgID.toNat).2.isOk ↔
      Accepts n env := by
  unfold Accepts inflightOf Node.applyAck Node.withConsumer
  rcases n.partitionAt env.topic env.partition with ⟨n', e | p⟩
  · simp [Except.isOk, Except.toBool]
  · dsimp only
    unfold Consumer.ack
    rw [AList.lookup_isSome]
    split_ifs with hmem <;> simp [hmem, Except.map, Except.isOk, Except.toBool]

/-- An accepted ack changes the offsets of its consumer. -/
theorem offsets_applyAck (n : Node) (env : Envelope) :
    (n.applyAck env.topic env.partition env.consumerID env.msgID.toNat).1.offsets =
      if Accepts n env then ackedBy n.offsets env else n.offsets := by
  unfold Node.applyAck
  rw [n.offsets_withConsumer]
  cases hp : (n.partitionAt env.topic env.partition).2 with
  | error =>
    have hacc : ¬ Accepts n env := by simp [Accepts, inflightOf, hp]
    rw [if_neg hacc]
  | ok p =>
    have hacc : Accepts n env ↔
        env.msgID.toNat ∈ (p.getOrCreateConsumer env.consumerID).inflight := by
      unfold Accepts inflightOf
      rw [hp]
      exact AList.lookup_isSome
    dsimp only
    unfold Consumer.ack
    by_cases hmem : env.msgID.toNat ∈ (p.getOrCreateConsumer env.consumerID).inflight
    · rw [if_pos hmem, if_pos (hacc.mpr hmem)]
      funext t j d
      dsimp only [Except.map]
      unfold ackedBy ackAt
      split_ifs with hd
      · obtain ⟨⟨rfl, rfl⟩, rfl⟩ := hd
        rw [Node.offsets_of_partitionAt hp]
      · rfl
    · rw [if_neg hmem, if_neg (fun h => hmem (hacc.mp h))]
      rfl

/-- A publish leaves the offsets alone. -/
theorem offsets_applyPublish (n : Node) (topic : Bytes) (partition : ℤ)
    (tsNs visibleAtNs raftIndex : UInt64) (dedupeKey payload : Bytes) :
    (n.applyPublish topic partition tsNs visibleAtNs raftIndex dedupeKey payload).1.offsets =
      n.offsets :=
  Node.offsets_congr (n.consumer?_applyPublish topic partition _ _ _ _ _)

/-! ## What local operations keep -/

/-- Routing leaves the partitions alone. -/
theorem partitions_route (t : Topic) (partition : ℤ) (explicit : Bool) (routingKey : Bytes) :
    (t.route partition explicit routingKey).1.partitions = t.partitions := by
  unfold Topic.route
  dsimp only
  split_ifs <;> rfl

theorem partitions_localRoute (n : Node) (topic : Bytes) (partition : ℤ) (explicit : Bool)
    (routingKey t : Bytes) :
    ((localRoute n topic partition explicit routingKey).1.topics.lookup t).map Topic.partitions =
      ((n.getOrCreateTopic topic).1.topics.lookup t).map Topic.partitions := by
  unfold localRoute
  by_cases ht : t = topic
  · rw [ht, AList.lookup_insert, n.lookup_getOrCreateTopic, map_some, map_some,
      partitions_route]
  · rw [AList.lookup_insert_ne ht]

theorem partition?_congr {n n' : Node} (h : ∀ t, (n'.topics.lookup t).map Topic.partitions =
    (n.topics.lookup t).map Topic.partitions) : n'.partition? = n.partition? := by
  funext t i
  have ht := congrArg (fun o => Option.bind o fun ps => ps[i]?) (h t)
  simp only [Option.bind_map] at ht
  exact ht

theorem partition?_localRoute (n : Node) (topic : Bytes) (partition : ℤ) (explicit : Bool)
    (routingKey t : Bytes) (i : ℕ) :
    (localRoute n topic partition explicit routingKey).1.partition? t i =
      (n.getOrCreateTopic topic).1.partition? t i :=
  congrFun₂ (partition?_congr (partitions_localRoute n topic partition explicit routingKey)) t i

/-- A relation between brokers that lasts while topics are opened, and while nothing else changes
but the cursors of topics, the leadership and the clock. -/
structure Opening (R : Node → Node → Prop) : Prop where
  trans : ∀ {n n' n'' : Node}, R n n' → R n' n'' → R n n''
  opened : ∀ n topic, R n (n.getOrCreateTopic topic).1
  turned : ∀ {n n' : Node}, n'.config = n.config → n'.appliedHighWater = n.appliedHighWater →
    (∀ t, (n'.topics.lookup t).map Topic.partitions =
      (n.topics.lookup t).map Topic.partitions) → R n n'

/-- One that lasts also while consumers are replaced, each as `K` allows. -/
structure Lasting (K : Consumer → Consumer → Prop) (R : Node → Node → Prop) : Prop
    extends Opening R where
  stored : ∀ {n : Node} {topic : Bytes} {i : ℕ} {p : Partition}, n.partition? topic i = some p →
    ∀ consumerID c, K (p.getOrCreateConsumer consumerID) c →
      R n (n.setPartition topic i (p.setConsumer consumerID c))
  /-- What leaves the offsets alone is allowed. -/
  of_offsets : ∀ {c c' : Consumer}, c'.offsets = c.offsets → K c c'

section

variable {R : Node → Node → Prop} {K : Consumer → Consumer → Prop} {n n' : Node} {topic : Bytes}
  {partition : ℤ} {consumerID : Bytes}

theorem Opening.refl (h : Opening R) (n : Node) : R n n := h.turned rfl rfl fun _ => rfl

theorem Opening.localRoute (h : Opening R) (n : Node) (topic : Bytes) (partition : ℤ)
    (explicit : Bool) (routingKey : Bytes) :
    R n (localRoute n topic partition explicit routingKey).1 :=
  h.trans (h.opened n topic)
    (h.turned rfl rfl (partitions_localRoute n topic partition explicit routingKey))

theorem Opening.dlqMove (h : Opening R) (n : Node) (srcTopic payload : Bytes)
    (outcome : Except BrokerError (Option ApplyResult)) :
    R n (dlqMove n srcTopic payload outcome).node := by
  have hroute := h.localRoute n (srcTopic ++ dlqSuffix) 0 false []
  have hrefl := h.refl n
  unfold Replication.dlqMove
  dsimp only
  split_ifs
  · exact hrefl
  · split <;> simp_all

/-- A nack changes a consumer, and the move to the dead-letter topic may follow. -/
theorem Opening.applyNack (h : Opening R) {m : Node} {msgID : ℕ}
    (hnack : R m (n.applyNack topic partition consumerID msgID).1) :
    R m (applyNack n topic partition consumerID msgID).node := by
  unfold Replication.applyNack
  split
  next heq => rwa [heq] at hnack
  next heq => rwa [heq] at hnack
  next heq =>
    rw [heq] at hnack
    exact h.trans hnack (h.dlqMove _ _ _ _)

theorem Lasting.withConsumer (h : Lasting K R) {α : Type}
    {f : Consumer → Except BrokerError (Consumer × α)}
    (hf : ∀ c c' a, f c = .ok (c', a) → K c c') :
    R (n.getOrCreateTopic topic).1 (n.withConsumer topic partition consumerID f).1 := by
  refine Node.withConsumer_induction (h.refl _) fun p c hp hc => h.stored hp consumerID c ?_
  rcases hc with rfl | ⟨a, ha⟩
  · exact h.of_offsets rfl
  · exact hf _ _ a ha

theorem Lasting.applyNack (h : Lasting K R) (n : Node) (topic : Bytes) (partition : ℤ)
    (consumerID : Bytes) (msgID : ℕ) :
    R (n.getOrCreateTopic topic).1 (applyNack n topic partition consumerID msgID).node :=
  h.toOpening.applyNack (h.withConsumer fun _ _ _ hc =>
    h.of_offsets (Consumer.offsets_nackOrKill hc))

theorem Lasting.modifyConsumer (h : Lasting K R) {i : ℕ}
    {f : Partition → Consumer → Option Consumer}
    (hf : ∀ p c c', f p c = some c' → c'.offsets = c.offsets)
    (hn : n.modifyConsumer topic i consumerID f = some n') : R n n' := by
  obtain ⟨p, hp, hn⟩ := bind_eq_some_iff.mp hn
  obtain ⟨c, hc, hn⟩ := bind_eq_some_iff.mp hn
  obtain ⟨c', hc', rfl⟩ := map_eq_some_iff.mp hn
  refine h.stored hp consumerID c' (h.of_offsets ((hf p c c' hc').trans ?_))
  rw [Partition.getOrCreateConsumer, hc]
  rfl

/-- No local step changes more. -/
theorem Lasting.of_localStep (h : Lasting K R) {a : LocalAction}
    (hn : localStep n a = some n') : R n n' := by
  cases a with
  | ensureTopic topic =>
    cases hn
    exact h.opened n topic
  | route topic partition explicit routingKey =>
    cases hn
    exact h.localRoute n topic partition explicit routingKey
  | subscribe topic =>
    cases hn
    refine h.trans (h.opened n topic) (h.withConsumer ?_)
    rintro c c' a ⟨⟩
    exact h.of_offsets rfl
  | deliver =>
    refine h.modifyConsumer ?_ hn
    intro p c c' hc
    split_ifs at hc
    obtain ⟨rec', -, rfl⟩ := map_eq_some_iff.mp hc
    rfl
  | rollback | setPaused =>
    refine h.modifyConsumer ?_ hn
    rintro p c c' ⟨⟩
    rfl
  | sweep =>
    refine h.modifyConsumer ?_ hn
    rintro p c c' ⟨⟩
    exact c.offsets_collectExpired _ _
  | setLeader | tick =>
    cases hn
    exact h.turned rfl rfl fun _ => rfl

end

theorem opening_consumer? (t : Bytes) : Opening fun n n' => n'.consumer? t = n.consumer? t where
  trans h h' := h'.trans h
  opened n topic := congrFun (n.consumer?_getOrCreateTopic topic) t
  turned _ _ h := by
    funext i c
    rw [Node.consumer?, Node.consumer?, partition?_congr h]

theorem lasting_offsets :
    Lasting (fun c c' => c'.offsets = c.offsets) fun n n' => n'.offsets = n.offsets where
  trans h h' := h'.trans h
  opened n topic := n.offsets_getOrCreateTopic topic
  turned hconfig hmark h :=
    Node.offsets_congr (funext fun t => (opening_consumer? t).turned hconfig hmark h)
  stored {n topic i p} hp consumerID c hc := by
    funext t j d
    rw [Node.offsets_setConsumer hp, hc, p.offsets_getOrCreateConsumer]
    split_ifs with hd
    · obtain ⟨⟨rfl, rfl⟩, rfl⟩ := hd
      rw [Node.offsets, hp]
      rfl
    · rfl
  of_offsets h := h

theorem offsets_applyNack (n : Node) (topic : Bytes) (partition : ℤ) (consumerID : Bytes)
    (msgID : ℕ) :
    (applyNack n topic partition consumerID msgID).node.offsets = n.offsets :=
  (lasting_offsets.applyNack n topic partition consumerID msgID).trans
    (n.offsets_getOrCreateTopic topic)

/-- Only an accepted ack changes offsets. -/
theorem offsets_of_apply (n : Node) (entry : Entry) :
    (apply n entry).node.offsets =
      if entry.env.kind = .ack ∧ Accepts n entry.env then ackedBy n.offsets entry.env
      else n.offsets := by
  unfold apply
  dsimp only
  cases hkind : entry.env.kind with
  | publish => simp [offsets_applyPublish]
  | ack => simp [offsets_applyAck]
  | nack => simp [offsets_applyNack]
  | createTopic => simp

/-! ## Two nodes -/

/-- Two nodes that have applied the same log, with the outcomes of its acks on either of them. -/
structure Pair where
  left : Node
  right : Node
  acks : List (Bool × Bool)

/-- A step of one of the two nodes, or the next entry of the log on both. -/
inductive PairAction where
  | left (a : LocalAction)
  | right (a : LocalAction)
  | apply (entry : Entry)

/-- Whether a call of `Apply` returned success. -/
def ApplyRun.succeeded (r : ApplyRun) : Bool :=
  match r.outcome with
  | some (.ok _) => true
  | _ => false

/-- A step of the pair. The nodes share nothing but the log, so that the order of the steps of one
with respect to those of the other does not matter and the two applications of an entry can be put
together. -/
def Pair.step (s : Pair) : PairAction → Option Pair
  | .left a => (localStep s.left a).map fun n => { s with left := n }
  | .right a => (localStep s.right a).map fun n => { s with right := n }
  | .apply entry =>
    let l := apply s.left entry
    let r := apply s.right entry
    if l.outcome.isSome && r.outcome.isSome then
      some ⟨l.node, r.node,
        if entry.env.kind = .ack then s.acks ++ [(l.succeeded, r.succeeded)] else s.acks⟩
    else none

/-- An ack is applied only while its message is in flight on both nodes or on neither. -/
def SameInflight (s : Pair) : PairAction → Prop
  | .left _ => True
  | .right _ => True
  | .apply entry => entry.env.kind = .ack →
      (Accepts s.left entry.env ↔ Accepts s.right entry.env)

/-- The nodes agree on the offsets, and have agreed on every ack. -/
structure Agree (s : Pair) : Prop where
  offsets : s.left.offsets = s.right.offsets
  acks : ∀ a ∈ s.acks, a.1 = a.2

/-- Two brokers on empty directories, whatever their options. -/
def Pair.new (left right : Config) : Pair := ⟨.new left, .new right, []⟩

/-- The entries that a node applies in a run. -/
def entries : List Action → List Entry
  | [] => []
  | .loc _ :: as => entries as
  | .apply entry :: as => entry :: entries as

/-- Any two runs of single nodes that apply the same entries are the two sides of a run of the
pair. -/
theorem pairRun_of_runs {l l' r r' : Node} {as bs : List Action}
    (hl : Run step (fun _ _ => True) l as l') (hr : Run step (fun _ _ => True) r bs r')
    (hentries : entries as = entries bs) (acks : List (Bool × Bool)) :
    ∃ cs acks', Run Pair.step (fun _ _ => True) ⟨l, r, acks⟩ cs ⟨l', r', acks'⟩ := by
  -- The left node's local steps are taken first, then the right node's, then the entry on both.
  induction hl generalizing r bs acks with
  | nil l =>
    induction hr with
    | nil r => exact ⟨[], acks, .nil _⟩
    | @cons r r₁ r' b bs _ hstep _ ih =>
      cases b with
      | apply => cases hentries
      | loc b =>
        obtain ⟨cs, acks', hcs⟩ := ih hentries
        exact ⟨.right b :: cs, acks', .cons trivial (congrArg (Option.map _) hstep) hcs⟩
  | @cons l l₁ l' a as _ hstep hl ih =>
    cases a with
    | loc a =>
      obtain ⟨cs, acks', hcs⟩ := ih hr hentries acks
      exact ⟨.left a :: cs, acks', .cons trivial (congrArg (Option.map _) hstep) hcs⟩
    | apply entry =>
      induction hr with
      | nil r => cases hentries
      | @cons r r₁ r' b bs _ hstep' hr ih' =>
        cases b with
        | loc b =>
          obtain ⟨cs, acks', hcs⟩ := ih' ih hentries
          exact ⟨.right b :: cs, acks', .cons trivial (congrArg (Option.map _) hstep') hcs⟩
        | apply =>
          obtain ⟨rfl, hrest⟩ := List.cons.inj hentries
          simp only [Replication.step, ite_none_right_eq_some, Option.some.injEq]
            at hstep hstep'
          obtain ⟨hsome, rfl⟩ := hstep
          obtain ⟨hsome', rfl⟩ := hstep'
          obtain ⟨cs, acks', hcs⟩ := ih hr hrest _
          refine ⟨.apply entry :: cs, acks', .cons trivial ?_ hcs⟩
          unfold Pair.step
          dsimp only
          rw [hsome, hsome']
          rfl

/-- An applied ack succeeds where its message is in flight. -/
theorem succeeded_apply_iff {entry : Entry} (hkind : entry.env.kind = .ack) :
    (apply n entry).succeeded ↔ Accepts n entry.env := by
  rw [← isOk_applyAck_iff]
  unfold apply ApplyRun.succeeded
  simp only [hkind]
  cases (n.applyAck entry.env.topic entry.env.partition entry.env.consumerID
    entry.env.msgID.toNat).2 <;> simp [Except.map, Except.isOk, Except.toBool]

/-- A step that acks on both nodes alike keeps the agreement. -/
theorem Agree.of_step {s s' : Pair} {a : PairAction} (hok : SameInflight s a) (h : Agree s)
    (hstep : s.step a = some s') : Agree s' := by
  cases a with
  | left =>
    obtain ⟨n, hn, rfl⟩ := map_eq_some_iff.mp hstep
    exact ⟨(lasting_offsets.of_localStep hn).trans h.offsets, h.acks⟩
  | right =>
    obtain ⟨n, hn, rfl⟩ := map_eq_some_iff.mp hstep
    exact ⟨h.offsets.trans (lasting_offsets.of_localStep hn).symm, h.acks⟩
  | apply =>
    unfold Pair.step at hstep
    dsimp only at hstep
    split_ifs at hstep with hret hkind
    · cases hstep
      constructor
      · rw [offsets_of_apply, offsets_of_apply, h.offsets]
        simp only [hkind, true_and, hok hkind]
      · intro a ha
        rcases List.mem_append.mp ha with ha | ha
        · exact h.acks a ha
        · rw [List.mem_singleton.mp ha, Bool.eq_iff_iff, succeeded_apply_iff hkind,
            succeeded_apply_iff hkind]
          exact hok hkind
    · cases hstep
      constructor
      · rw [offsets_of_apply, offsets_of_apply, h.offsets]
        simp only [hkind, false_and, if_false]
      · exact h.acks

/-- Two nodes that apply the same log from empty directories, and take any local steps, agree on
the offsets of every consumer and on the outcome of every ack, as long as each acked message is in
flight on both nodes or on neither when its ack is applied. -/
theorem offsets_converge {left right : Config} {as : List PairAction} {s : Pair}
    (hrun : Run Pair.step SameInflight (.new left right) as s) :
    (∀ topic i consumerID,
        s.left.offsets topic i consumerID = s.right.offsets topic i consumerID) ∧
      ∀ a ∈ s.acks, a.1 = a.2 := by
  have hnew : Agree (.new left right) := ⟨rfl, by simp [Pair.new]⟩
  have hagree : Agree s := hrun.invariant hnew fun _ _ _ hok h hstep => h.of_step hok hstep
  exact ⟨fun topic i consumerID => by rw [hagree.offsets], hagree.acks⟩

/-- A message is published and acked; the left node has delivered it in between, and the right one
has taken the steps `right`. -/
def publishAck (right : List LocalAction) : List PairAction :=
  .apply ⟨1, { kind := .publish, topic := [116], payload := [109] }⟩ ::
    .left (.subscribe [116] 0 [99]) :: .left (.deliver [116] 0 [99] 0) ::
      (right.map .right ++ [.apply ⟨2, { kind := .ack, topic := [116], consumerID := [99] }⟩])

instance (s : Pair) : DecidablePred (SameInflight s) := fun a =>
  match a with
  | .left _ => isTrue trivial
  | .right _ => isTrue trivial
  | .apply _ => inferInstanceAs (Decidable (_ → _))

/-- Both nodes have delivered the message, and record its ack. -/
theorem offsets_converge_publishAck :
    ∃ s, Run Pair.step SameInflight (.new ⟨8, 1, 4, 0⟩ ⟨8, 2, 4, 3⟩)
        (publishAck [.subscribe [116] 0 [99], .deliver [116] 0 [99] 0]) s ∧
      s.left.offsets [116] 0 [99] = ⟨true, 0, ∅⟩ ∧
      ((∀ topic i consumerID,
          s.left.offsets topic i consumerID = s.right.offsets topic i consumerID) ∧
        ∀ a ∈ s.acks, a.1 = a.2) := by
  exact exists_run_of_exec (by decide +kernel) fun _ hrun hleft => ⟨hleft, offsets_converge hrun⟩

/-- One node has delivered the message and the other has not: the ack succeeds on the first, fails
on the second, and the offsets differ from then on. -/
theorem offsets_diverge :
    ∃ s, Run Pair.step (fun _ _ => True) (.new ⟨8, 1, 4, 0⟩ ⟨8, 1, 4, 0⟩) (publishAck []) s ∧
      s.acks = [(true, false)] ∧
      s.left.offsets [116] 0 [99] = ⟨true, 0, ∅⟩ ∧
      s.right.offsets [116] 0 [99] = .new := by
  decide +kernel

end ToyMQ.Replication
