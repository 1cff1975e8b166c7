import ToyMQ.Replication.Shape
import ToyMQ.Server.Modes

/-!
# Publishing again

A client that does not learn the outcome of a publish sends it again under the same dedupe key. The
broker looks the key up in the partition that the publish is routed to. With a partition number or a
routing key, or on a topic with one partition, this is the partition of the first attempt, and the
key is still in its index as long as fewer other keys than it holds were published to the topic.

`retry_is_duplicate` shows that the retry then appends nothing and is answered with the first id, on
a standalone broker and on the leader of a cluster. Otherwise partitions are taken in turn:
`retry_in_turn` is a retry that comes to the next one and is stored a second time.
-/

namespace ToyMQ.Server

open Lib Broker Replication List Option

/-! ## Calls of a broker -/

/-- A command with the time at which it is served, and the index at which it commits where the
broker has a raft node. -/
structure Call where
  clock : UInt64
  index : UInt64
  currentTopic : Bytes
  command : Command

/-- The command on a standalone broker or, with `raft`, on the leader of a cluster. -/
def call (raft : Bool) (n : Node) (a : Call) : Option (Node × Outcome) :=
  let n := { n with clock := a.clock }
  if raft then replicated n a.index a.currentTopic a.command
  else inline n a.currentTopic a.command

def callStep (raft : Bool) (n : Node) (a : Call) : Option Node := (call raft n a).map Prod.fst

/-- The number under which a publish that is routed to partition `i` reaches the broker. -/
def sent (raft : Bool) (i : ℕ) : ℤ := if raft then int32 i else i

def routeAndApply (raft : Bool) (n : Node) (index : UInt64) (c : PubCommand) :
    Node × Except BrokerError ApplyResult :=
  match localRoute n c.topic c.partition c.partitionSet c.routingKey with
  | (n, .error e) => (n, .error e)
  | (n, .ok i) =>
    n.applyPublish c.topic (sent raft i) n.clock (visibleAt n.clock c.delayMs)
      (if raft then index else 0) c.dedupeKey c.payload

variable {raft : Bool} {n : Node}

/-- In both modes a publish is routed, and then applied to the partition it was routed to. -/
theorem call_pub {a : Call} {c : PubCommand} (ha : a.command = .pub c) (hadm : Admitted (.pub c)) :
    call raft n a = some ((routeAndApply raft { n with clock := a.clock } a.index c).map id
      (Except.map some)) := by
  obtain ⟨htopic, hkey, hpayload, -, -⟩ := hadm
  unfold call routeAndApply
  rw [ha]
  -- The broker at the time of the call gets a name, so that routing it is not unfolded.
  generalize { n with clock := a.clock } = m
  cases raft with
  | false =>
    rw [if_neg Bool.false_ne_true, inline, publishCtx]
    rcases localRoute m c.topic c.partition c.partitionSet c.routingKey with ⟨routed, e | i⟩
    · rfl
    · rfl
  | true =>
    simp only [if_true, replicated, sent]
    rcases localRoute m c.topic c.partition c.partitionSet c.routingKey with ⟨routed, e | i⟩
    · rfl
    · -- The envelope comes back from the log as it was proposed.
      have hsend : (publishEnvelope routed.clock c i).Sendable :=
        sendable_of_lengths (isInt32_int32 _) isInt32_zero htopic hkey (Nat.zero_le _) hpayload
      dsimp only
      rw [propose_eq hsend]
      simp only [apply, publishEnvelope, map_some]
      rfl

/-! ## What a publish changes -/

section

variable {raft : Bool} {n : Node} {index : UInt64} {c : PubCommand}

variable {t : Bytes} {i : ℕ} {p : Partition}

/-- A topic with partitions is there already. -/
theorem getOrCreateTopic_of_partition? (h : n.partition? t i = some p) :
    (n.getOrCreateTopic t).1 = n ∧ (n.getOrCreateTopic t).2.partitions[i]? = some p := by
  obtain ⟨tp, htp, hi⟩ := bind_eq_some_iff.mp h
  unfold Node.getOrCreateTopic
  rw [htp]
  exact ⟨rfl, hi⟩

/-- Looking a topic up changes no partition. -/
theorem partition?_getOrCreateTopic (h : n.partition? t i = some p) (topic : Bytes) :
    (n.getOrCreateTopic topic).1.partition? t i = some p := by
  by_cases ht : t = topic
  · rw [← ht, (getOrCreateTopic_of_partition? h).1, h]
  · unfold Node.partition?
    rw [n.lookup_getOrCreateTopic_ne ht]
    exact h

/-- A publish to a partition that exists is applied to it. -/
theorem applyPublish_of_partition? {topic : Bytes} {partition : ℤ}
    {tsNs visibleAtNs raftIndex : UInt64} {dedupeKey payload : Bytes}
    (hfresh : ¬ (raftIndex ≠ 0 ∧ raftIndex ≤ n.appliedHighWater)) (hpos : 0 ≤ partition)
    (hp : n.partition? topic partition.toNat = some p) :
    n.applyPublish topic partition tsNs visibleAtNs raftIndex dedupeKey payload =
      (n.setPartition topic partition.toNat
          (p.applyPublish tsNs visibleAtNs raftIndex dedupeKey payload).1,
        (p.applyPublish tsNs visibleAtNs raftIndex dedupeKey payload).2) := by
  obtain ⟨hopen, hget⟩ := getOrCreateTopic_of_partition? hp
  rw [Node.applyPublish_of_ok hfresh (Topic.at_eq_ok_iff.mpr ⟨hpos, hget⟩), hopen]

/-- A publish is at an index that is not skipped, or at none. -/
theorem not_skipped {mark : UInt64} (hfresh : raft = true → mark < index) :
    ¬ ((if raft then index else 0) ≠ 0 ∧ (if raft then index else 0) ≤ mark) := by
  cases raft with
  | false => exact fun h => h.1 rfl
  | true => exact fun h => UInt64.not_le.mpr (hfresh rfl) h.2

/-- A routed publish changes the partition it is routed to alone. -/
theorem routeAndApply_of_ok (hfresh : raft = true → n.appliedHighWater < index)
    (hroute : (localRoute n c.topic c.partition c.partitionSet c.routingKey).2 = .ok i)
    (hpos : 0 ≤ sent raft i)
    (hp : (n.getOrCreateTopic c.topic).1.partition? c.topic (sent raft i).toNat = some p) :
    ∃ tsNs visibleAtNs raftIndex,
      let r := p.applyPublish tsNs visibleAtNs raftIndex c.dedupeKey c.payload
      (routeAndApply raft n index c).2 = r.2 ∧
        ∀ t j, (routeAndApply raft n index c).1.partition? t j =
          if t = c.topic ∧ j = (sent raft i).toNat then some r.1
          else (n.getOrCreateTopic c.topic).1.partition? t j := by
  have hmark := appliedHighWater_localRoute n c.topic c.partition c.partitionSet c.routingKey
  have hparts := partition?_localRoute n c.topic c.partition c.partitionSet c.routingKey
  unfold routeAndApply
  rcases hres : localRoute n c.topic c.partition c.partitionSet c.routingKey with ⟨routed, _ | i'⟩
  · rw [hres] at hroute
    cases hroute
  · rw [hres] at hroute hmark hparts
    cases hroute
    dsimp only at hmark hparts ⊢
    -- Routing has moved the cursor of the topic, and its partitions are those of a lookup.
    rw [← hparts] at hp
    rw [applyPublish_of_partition? (not_skipped (hmark ▸ hfresh)) hpos hp]
    refine ⟨_, _, _, rfl, fun t j => ?_⟩
    rw [Node.partition?_setPartition hp, hparts]

/-- A publish is refused, or applied where it is routed to. -/
theorem routeAndApply_cases (hfresh : raft = true → n.appliedHighWater < index) :
    (∃ e, (routeAndApply raft n index c).2 = .error e ∧
      ∀ t j, (routeAndApply raft n index c).1.partition? t j =
        (n.getOrCreateTopic c.topic).1.partition? t j) ∨
    ∃ i p, (localRoute n c.topic c.partition c.partitionSet c.routingKey).2 = .ok i ∧
      0 ≤ sent raft i ∧
      (n.getOrCreateTopic c.topic).1.partition? c.topic (sent raft i).toNat = some p := by
  have hparts := partition?_localRoute n c.topic c.partition c.partitionSet c.routingKey
  rcases hres : localRoute n c.topic c.partition c.partitionSet c.routingKey with ⟨routed, e | i⟩
  · rw [hres] at hparts
    refine .inl ⟨e, ?_, ?_⟩
    · rw [routeAndApply, hres]
    · rw [routeAndApply, hres]
      exact hparts
  · by_cases hexists : 0 ≤ sent raft i ∧
        ∃ p, (n.getOrCreateTopic c.topic).1.partition? c.topic (sent raft i).toNat = some p
    · obtain ⟨hpos, p, hp⟩ := hexists
      exact .inr ⟨i, p, rfl, hpos, hp⟩
    · -- The number is out of range, on a topic that routing has opened.
      have hmark := appliedHighWater_localRoute n c.topic c.partition c.partitionSet c.routingKey
      have hlookup := partitions_localRoute n c.topic c.partition c.partitionSet c.routingKey
        c.topic
      rw [hres] at hparts hmark hlookup
      rw [n.lookup_getOrCreateTopic] at hlookup
      obtain ⟨tp, htp, -⟩ := map_eq_some_iff.mp hlookup
      have hopen : routed.getOrCreateTopic c.topic = (routed, tp) := by
        rw [Node.getOrCreateTopic, htp]
      have hat : routed.partitionAt c.topic (sent raft i) = (routed, tp.at (sent raft i)) := by
        rw [Node.partitionAt, hopen]
      rw [routeAndApply, hres]
      dsimp only
      rw [Node.applyPublish, if_neg (not_skipped (hmark ▸ hfresh)), hat]
      cases hp : tp.at (sent raft i) with
      | error e => exact .inl ⟨e, rfl, hparts⟩
      | ok p =>
        obtain ⟨hpos, hget⟩ := Topic.at_eq_ok_iff.mp hp
        refine absurd ⟨hpos, p, ?_⟩ hexists
        rw [← hparts, Node.partition?, htp]
        exact hget

theorem opens_applyPublish (n : Node) (topic : Bytes) (partition : ℤ)
    (tsNs visibleAtNs raftIndex : UInt64) (dedupeKey payload : Bytes) :
    Opens n (n.applyPublish topic partition tsNs visibleAtNs raftIndex dedupeKey payload).1 := by
  have hopen := (OpensOnly.getOrCreateTopic n topic).toOpens
  exact Node.applyPublish_induction (.refl _) hopen fun p _ => hopen.trans (.setPartition _ _ _ _)

/-- A publish changes no option and no partition count. -/
theorem opens_routeAndApply : Opens n (routeAndApply raft n index c).1 := by
  have hroute := (OpensOnly.lasting.localRoute n c.topic c.partition c.partitionSet
    c.routingKey).toOpens
  unfold routeAndApply
  rcases hres : localRoute n c.topic c.partition c.partitionSet c.routingKey with ⟨routed, e | i⟩
  · rw [hres] at hroute
    exact hroute
  · rw [hres] at hroute
    exact hroute.trans (opens_applyPublish _ _ _ _ _ _ _ _)

/-! ## Routing again -/

def Pinned (n : Node) (c : PubCommand) : Prop :=
  c.partitionSet = true ∨ c.routingKey ≠ [] ∨ expected n c.topic = 1

theorem expected_eq_length (n : Node) (topic : Bytes) :
    expected n topic = (n.getOrCreateTopic topic).2.partitions.length := by
  have hshape := shape_getOrCreateTopic_self n topic
  unfold shape Data.ofNode at hshape
  dsimp only at hshape
  rw [n.lookup_getOrCreateTopic] at hshape
  exact (Option.some.inj hshape).symm

/-- The range check only looks at the count. -/
theorem at_map_congr {t t' : Topic} (hlen : t.partitions.length = t'.partitions.length)
    (partition : ℤ) (i : ℕ) :
    (t.at partition).map (fun _ => i) = (t'.at partition).map fun _ => i := by
  unfold Topic.at
  rw [hlen]
  split_ifs
  · rfl
  · by_cases hin : partition.toNat < t.partitions.length
    · rw [getElem?_eq_getElem hin, getElem?_eq_getElem (hlen ▸ hin)]
      rfl
    · rw [getElem?_eq_none (Nat.not_lt.mp hin),
        getElem?_eq_none (hlen ▸ Nat.not_lt.mp hin)]

/-- Brokers with the same count route a pinned publish alike. -/
theorem localRoute_pinned {n' : Node} (hpin : Pinned n c)
    (hcount : expected n' c.topic = expected n c.topic) :
    (localRoute n' c.topic c.partition c.partitionSet c.routingKey).2 =
      (localRoute n c.topic c.partition c.partitionSet c.routingKey).2 := by
  unfold Pinned at hpin
  rw [expected_eq_length] at hpin
  rw [expected_eq_length, expected_eq_length] at hcount
  unfold localRoute Topic.route
  dsimp only
  rw [hcount]
  split_ifs with hexplicit hone hkey
  · exact at_map_congr hcount _ _
  · rfl
  · rfl
  · -- A publish that goes to the partitions in turn is not pinned.
    exact absurd hpin (by simp [hexplicit, hone, hkey])

end

/-! ## The capacity of the indexes -/

/-- Every dedupe index has the capacity that the broker is configured with. -/
structure Sized (cfg : Config) (n : Node) : Prop where
  config_eq : n.config = cfg
  cap_eq : n.Each fun _ _ p => p.dedupe.cap = cfg.dedupeCap

theorem cap_applyPublish (p : Partition) (tsNs visibleAtNs raftIndex : UInt64)
    (dedupeKey payload : Bytes) :
    (p.applyPublish tsNs visibleAtNs raftIndex dedupeKey payload).1.dedupe.cap =
      p.dedupe.cap := by
  rcases p.applyPublish_cases tsNs visibleAtNs raftIndex dedupeKey payload with
    ⟨_, -, -, heq⟩ | ⟨-, hres⟩
  · rw [heq]
    exact Lru.cap_lookup _ _
  · dsimp only at hres
    split_ifs at hres
    · rw [hres]
      unfold DedupeIndex.note
      split_ifs
      · exact Lru.cap_insert _ _ _
      · rfl
    · rw [hres]

namespace Sized

variable {cfg : Config} {n : Node}

theorem cap_openPartition (h : Sized cfg n) :
    n.config.openPartition.dedupe.cap = cfg.dedupeCap := by
  rw [h.config_eq]
  rfl

theorem getOrCreateTopic (h : Sized cfg n) (topic : Bytes) :
    Sized cfg (n.getOrCreateTopic topic).1 :=
  ⟨(n.config_getOrCreateTopic topic).trans h.config_eq,
    h.cap_eq.getOrCreateTopic fun _ => h.cap_openPartition⟩

theorem createTopicLocal (h : Sized cfg n) (topic : Bytes) (partitions : ℤ) :
    Sized cfg (n.createTopicLocal topic partitions).1 :=
  ⟨(n.config_createTopicLocal topic partitions).trans h.config_eq,
    h.cap_eq.createTopicLocal (fun _ => h.cap_openPartition) partitions⟩

theorem setPartition (h : Sized cfg n) {topic : Bytes} {i : ℕ} {p p' : Partition}
    (hp : n.partition? topic i = some p) (hcap : p'.dedupe.cap = p.dedupe.cap) :
    Sized cfg (n.setPartition topic i p') :=
  ⟨(n.config_setPartition topic i p').trans h.config_eq,
    h.cap_eq.setPartition hp (hcap.trans (h.cap_eq topic i p hp))⟩

theorem lasting (cfg : Config) :
    Lasting (fun _ _ => True) fun n n' => Sized cfg n → Sized cfg n' where
  trans h h' := h' ∘ h
  opened _ topic h := h.getOrCreateTopic topic
  turned hconfig _ hparts h := by
    refine ⟨hconfig.trans h.config_eq, fun t i p hp => h.cap_eq t i p ?_⟩
    rwa [partition?_congr hparts] at hp
  stored hp _ _ _ h := h.setPartition hp rfl
  of_offsets _ := trivial

theorem applyPublish (h : Sized cfg n) (topic : Bytes) (partition : ℤ)
    (tsNs visibleAtNs raftIndex : UInt64) (dedupeKey payload : Bytes) :
    Sized cfg (n.applyPublish topic partition tsNs visibleAtNs raftIndex dedupeKey payload).1 := by
  have hopen := h.getOrCreateTopic topic
  exact Node.applyPublish_induction h hopen fun p hp =>
    hopen.setPartition hp (cap_applyPublish _ _ _ _ _ _)

theorem withConsumer {α : Type} (h : Sized cfg n) (topic : Bytes) (partition : ℤ)
    (consumerID : Bytes) (f : Consumer → Except BrokerError (Consumer × α)) :
    Sized cfg (n.withConsumer topic partition consumerID f).1 :=
  (lasting cfg).withConsumer (fun _ _ _ _ => trivial) (h.getOrCreateTopic topic)

theorem publishCtx (h : Sized cfg n) (topic dedupeKey routingKey : Bytes) (partition : ℤ)
    (partitionSet : Bool) (payload : Bytes) (delayMs : UInt64) :
    Sized cfg
      (publishCtx n topic dedupeKey routingKey partition partitionSet payload delayMs).1 := by
  have hroute := (lasting cfg).localRoute n topic partition partitionSet routingKey h
  unfold Server.publishCtx
  rcases hres : Replication.localRoute n topic partition partitionSet routingKey with
    ⟨routed, e | i⟩
  · rw [hres] at hroute
    exact hroute
  · rw [hres] at hroute
    exact applyPublish hroute _ _ _ _ _ _ _

theorem createTopic (h : Sized cfg n) (name : Bytes) (partitions : ℤ) :
    Sized cfg (createTopic n name partitions).1 := by
  unfold Server.createTopic
  split_ifs
  · exact h
  · exact h.createTopicLocal name partitions

theorem nackCtx (h : Sized cfg n) (topic : Bytes) (partition : ℤ) (consumerID : Bytes) (msgID : ℕ) :
    Sized cfg (nackCtx n topic partition consumerID msgID).1 := by
  have hnack : Sized cfg (n.applyNack topic partition consumerID msgID).1 :=
    h.withConsumer topic partition consumerID _
  unfold Server.nackCtx
  rcases hres : n.applyNack topic partition consumerID msgID with ⟨m, e | inf | inf⟩
  · rw [hres] at hnack
    exact hnack
  · rw [hres] at hnack
    exact hnack
  · rw [hres] at hnack
    exact publishCtx (createTopic hnack _ _) _ _ _ _ _ _ _

theorem apply (h : Sized cfg n) (e : Entry) : Sized cfg (apply n e).node := by
  unfold Replication.apply
  dsimp only
  cases e.env.kind with
  | publish => exact h.applyPublish _ _ _ _ _ _ _
  | ack => exact h.withConsumer _ _ _ _
  | createTopic => exact h.createTopicLocal _ _
  | nack => exact (lasting cfg).applyNack n _ _ _ _ (h.getOrCreateTopic _)

variable {r : Node × Outcome}

theorem propose (h : Sized cfg n) {index : UInt64} {env : Envelope}
    (hr : propose n index env = some r) : Sized cfg r.1 := by
  unfold Server.propose at hr
  split at hr
  · cases hr
  · obtain ⟨outcome, -, rfl⟩ := map_eq_some_iff.mp hr
    exact h.apply _

/-- No command changes the capacity of an index. -/
theorem call (h : Sized cfg n) {raft : Bool} {a : Call} (hr : call raft n a = some r) :
    Sized cfg r.1 := by
  have hclock : Sized cfg { n with clock := a.clock } := ⟨h.config_eq, h.cap_eq⟩
  unfold Server.call at hr
  split_ifs at hr
  · cases hcmd : a.command with
    | pub c =>
      have hroute := (lasting cfg).localRoute _ c.topic c.partition c.partitionSet c.routingKey
        hclock
      simp only [hcmd, replicated] at hr
      split at hr
      next heq =>
        cases hr
        rw [heq] at hroute
        exact hroute
      next heq =>
        rw [heq] at hroute
        exact propose hroute hr
    | ack | nack =>
      rw [hcmd] at hr
      exact hclock.propose hr
    | create =>
      simp only [hcmd, replicated] at hr
      split_ifs at hr
      · cases hr
        exact hclock
      · exact hclock.propose hr
    | sub | pause | resume | traceparent | info =>
      rw [hcmd] at hr
      cases hr
  · cases hcmd : a.command with
    | pub =>
      rw [hcmd] at hr
      cases hr
      exact hclock.publishCtx _ _ _ _ _ _ _
    | ack =>
      rw [hcmd] at hr
      cases hr
      change Sized cfg (Node.applyAck _ _ _ _ _).1
      exact hclock.withConsumer _ _ _ _
    | nack =>
      rw [hcmd] at hr
      cases hr
      exact hclock.nackCtx _ _ _ _
    | create =>
      rw [hcmd] at hr
      cases hr
      exact hclock.createTopic _ _
    | sub | pause | resume | traceparent | info =>
      rw [hcmd] at hr
      cases hr

end Sized

/-- A broker that has just been opened, on whatever logs it finds. -/
structure JustOpened (cfg : Config) (n : Node) : Prop where
  config_eq : n.config = cfg
  rebuilt : n.Each fun _ _ p => p.dedupe = rebuild cfg.dedupeCap p.log

theorem justOpened_new (cfg : Config) : JustOpened cfg (.new cfg) := ⟨rfl, nofun⟩

theorem cap_rebuild (cap : ℕ) (log : List Wal.Record) : (rebuild cap log).cap = cap := by
  induction log using List.reverseRecOn with
  | nil => rfl
  | append_singleton log rec ih =>
    rw [rebuild_snoc]
    unfold DedupeIndex.note
    split_ifs
    · rw [Lru.cap_insert, ih]
    · exact ih

theorem JustOpened.sized {cfg : Config} (h : JustOpened cfg n) : Sized cfg n := by
  refine ⟨h.config_eq, fun t i p hp => ?_⟩
  dsimp only
  rw [h.rebuilt t i p hp, cap_rebuild]

/-! ## A key in recent use -/

section

variable {keys : Finset Bytes} {key : Bytes} {msgID : UInt64} {p : Partition}

/-- A publish that is answered makes its key the latest. -/
theorem recent_of_applyPublish {tsNs visibleAtNs raftIndex : UInt64} {payload : Bytes} {dup : Bool}
    (hkey : key ≠ []) (hcap : 0 < p.dedupe.cap)
    (hres : (p.applyPublish tsNs visibleAtNs raftIndex key payload).2 = .ok ⟨msgID, dup⟩) :
    Lru.Recent keys key msgID (p.applyPublish tsNs visibleAtNs raftIndex key payload).1.dedupe := by
  rcases p.applyPublish_cases tsNs visibleAtNs raftIndex key payload with
    ⟨msgID', -, hget, heq⟩ | ⟨-, hnew⟩
  · rw [heq] at hres ⊢
    cases hres
    exact .of_lookup hget
  · dsimp only at hnew
    split_ifs at hnew
    · rw [hnew] at hres ⊢
      cases hres
      rw [DedupeIndex.note, if_pos hkey]
      exact .of_insert _ _ _ hcap
    · rw [hnew] at hres
      cases hres

/-- Fewer other keys than fit do not push a key out. -/
theorem recent_applyPublish (h : Lru.Recent keys key msgID p.dedupe)
    (hcard : keys.card < p.dedupe.cap) {other : Bytes}
    (hother : other = [] ∨ other = key ∨ other ∈ keys) (tsNs visibleAtNs raftIndex : UInt64)
    (payload : Bytes) :
    Lru.Recent keys key msgID
      (p.applyPublish tsNs visibleAtNs raftIndex other payload).1.dedupe := by
  rcases p.applyPublish_cases tsNs visibleAtNs raftIndex other payload with
    ⟨_, hne, -, heq⟩ | ⟨hnew, hres⟩
  · rw [heq]
    exact h.lookup (hother.resolve_left hne)
  · dsimp only at hres
    split_ifs at hres
    · rw [hres]
      unfold DedupeIndex.note
      split_ifs with hne
      · -- A key that was not found is not the one in recent use.
        have hnone := hnew.resolve_left hne
        have hdiff : other ≠ key := by
          rintro rfl
          exact nomatch h.get?_eq.symm.trans hnone
        exact h.insert ((hother.resolve_left hne).resolve_left hdiff) hdiff hcard
      · exact h
    · rw [hres]
      exact h

end

def Call.key? (a : Call) (topic : Bytes) : Option Bytes :=
  match a.command with
  | .pub c => if c.topic = topic ∧ c.dedupeKey ≠ [] then some c.dedupeKey else none
  | _ => none

/-- The keys other than `key` that the calls publish under on the topic. -/
def furtherKeys (calls : List Call) (topic key : Bytes) : Finset Bytes :=
  (calls.filterMap fun a => a.key? topic).toFinset.erase key

/-- The call is a publish as the parser returns it, at an index that is new to the broker. -/
structure IsPublish (raft : Bool) (n : Node) (a : Call) : Prop where
  command : ∃ c, a.command = .pub c
  admitted : Admitted a.command
  fresh : raft = true → n.appliedHighWater < a.index

/-- The index of partition `j` holds `msgID` under `key`, and only `keys` were used since. -/
def Remembers (topic : Bytes) (j : ℕ) (key : Bytes) (msgID : UInt64) (keys : Finset Bytes)
    (n : Node) : Prop :=
  ∃ p, n.partition? topic j = some p ∧ keys.card < p.dedupe.cap ∧
    Lru.Recent keys key msgID p.dedupe

section

variable {raft : Bool} {n n' : Node} {topic key : Bytes} {j : ℕ} {msgID : UInt64}
  {keys : Finset Bytes}

variable {a : Call}

/-- A publish under another key leaves the key in its index. -/
theorem Remembers.step (h : Remembers topic j key msgID keys n) (ha : IsPublish raft n a)
    (hkeys : ∀ k ∈ a.key? topic, k = key ∨ k ∈ keys) (hstep : callStep raft n a = some n') :
    Remembers topic j key msgID keys n' ∧ Opens n n' := by
  obtain ⟨p, hp, hcard, hrecent⟩ := h
  obtain ⟨c, hc⟩ := ha.command
  rw [callStep, call_pub hc (hc ▸ ha.admitted)] at hstep
  cases hstep
  have hclock : Opens n { n with clock := a.clock } := .of_shape rfl rfl rfl
  have hp₁ : ({ n with clock := a.clock } : Node).partition? topic j = some p := hp
  have hfresh : raft = true → ({ n with clock := a.clock } : Node).appliedHighWater < a.index :=
    ha.fresh
  generalize { n with clock := a.clock } = m at hclock hp₁ hfresh
  refine ⟨?_, hclock.trans opens_routeAndApply⟩
  have hp' := partition?_getOrCreateTopic hp₁ c.topic
  rcases routeAndApply_cases (c := c) hfresh with ⟨e, -, hsame⟩ | ⟨i, q, hroute, hpos, hq⟩
  · exact ⟨p, (hsame topic j).trans hp', hcard, hrecent⟩
  · obtain ⟨tsNs, visibleAtNs, raftIndex, -, hparts⟩ := routeAndApply_of_ok hfresh hroute hpos hq
    -- Only a publish to this very partition touches its index.
    by_cases hat : topic = c.topic ∧ j = (sent raft i).toNat
    · obtain ⟨rfl, rfl⟩ := hat
      cases hp'.symm.trans hq
      have hother : c.dedupeKey = [] ∨ c.dedupeKey = key ∨ c.dedupeKey ∈ keys := by
        by_cases hnil : c.dedupeKey = []
        · exact .inl hnil
        · exact .inr (hkeys c.dedupeKey (by simp [Call.key?, hc, hnil]))
      refine ⟨_, (hparts _ _).trans (if_pos ⟨rfl, rfl⟩), ?_,
        recent_applyPublish hrecent hcard hother _ _ _ _⟩
      rw [cap_applyPublish]
      exact hcard
    · exact ⟨p, (hparts topic j).trans ((if_neg hat).trans hp'), hcard, hrecent⟩

/-- So do any number of them. -/
theorem Remembers.run {calls : List Call} (h : Remembers topic j key msgID keys n)
    (hrun : Run (callStep raft) (IsPublish raft) n calls n')
    (hkeys : ∀ a ∈ calls, ∀ k ∈ a.key? topic, k = key ∨ k ∈ keys) :
    Remembers topic j key msgID keys n' ∧ Opens n n' := by
  induction hrun with
  | nil n => exact ⟨h, .refl n⟩
  | cons hok hstep _ ih =>
    obtain ⟨hmid, hopens⟩ := h.step hok (hkeys _ mem_cons_self) hstep
    obtain ⟨hend, hopens'⟩ := ih hmid fun a ha => hkeys a (mem_cons_of_mem _ ha)
    exact ⟨hend, hopens.trans hopens'⟩

/-- The commands are the same publish; its delay and its barrier may differ. -/
structure SamePub (c c' : PubCommand) : Prop where
  topic : c'.topic = c.topic
  dedupeKey : c'.dedupeKey = c.dedupeKey
  routingKey : c'.routingKey = c.routingKey
  partition : c'.partition = c.partition
  partitionSet : c'.partitionSet = c.partitionSet
  payload : c'.payload = c.payload

variable {c : PubCommand}

/-- A publish that was answered is remembered. -/
theorem remembers_of_first {cfg : Config} {dup : Bool} (ha : IsPublish raft n a)
    (hc : a.command = .pub c) (hkey : c.dedupeKey ≠ []) (hsized : Sized cfg n)
    (hcard : keys.card < cfg.dedupeCap) (hcall : call raft n a = some (n', .ok (some ⟨msgID, dup⟩)))
    :
    ∃ i, (localRoute { n with clock := a.clock } c.topic c.partition c.partitionSet
        c.routingKey).2 = .ok i ∧
      0 ≤ sent raft i ∧ Remembers c.topic (sent raft i).toNat c.dedupeKey msgID keys n' ∧
      Opens n n' := by
  rw [call_pub hc (hc ▸ ha.admitted)] at hcall
  have hclock : Opens n { n with clock := a.clock } := .of_shape rfl rfl rfl
  have hsized' : Sized cfg { n with clock := a.clock } := ⟨hsized.config_eq, hsized.cap_eq⟩
  have hfresh : raft = true → ({ n with clock := a.clock } : Node).appliedHighWater < a.index :=
    ha.fresh
  generalize { n with clock := a.clock } = m at hcall hclock hsized' hfresh
  have hnode : (routeAndApply raft m a.index c).1 = n' :=
    congrArg Prod.fst (Option.some.inj hcall)
  have hanswer : (routeAndApply raft m a.index c).2.map some = .ok (some ⟨msgID, dup⟩) :=
    congrArg Prod.snd (Option.some.inj hcall)
  have hok : (routeAndApply raft m a.index c).2 = .ok ⟨msgID, dup⟩ := by
    cases hres : (routeAndApply raft m a.index c).2 with
    | error =>
      rw [hres] at hanswer
      cases hanswer
    | ok =>
      rw [hres] at hanswer
      cases hanswer
      rfl
  rcases routeAndApply_cases (c := c) hfresh with ⟨e, herr, -⟩ | ⟨i, p, hroute, hpos, hp⟩
  · cases herr.symm.trans hok
  · obtain ⟨tsNs, visibleAtNs, raftIndex, hres, hparts⟩ := routeAndApply_of_ok hfresh hroute hpos hp
    have hcap := (hsized'.getOrCreateTopic c.topic).cap_eq _ _ p hp
    subst hnode
    refine ⟨i, hroute, hpos, ?_, hclock.trans opens_routeAndApply⟩
    refine ⟨_, (hparts _ _).trans (if_pos ⟨rfl, rfl⟩), ?_, ?_⟩
    · rw [cap_applyPublish, hcap]
      exact hcard
    · exact recent_of_applyPublish hkey (hcap ▸ Nat.zero_lt_of_lt hcard) (hres.symm.trans hok)

/-- A publish whose key is remembered is a duplicate. -/
theorem call_of_remembers (ha : IsPublish raft n a) (hc : a.command = .pub c)
    (hkey : c.dedupeKey ≠ []) {i : ℕ}
    (hroute : (localRoute { n with clock := a.clock } c.topic c.partition c.partitionSet
      c.routingKey).2 = .ok i) (hpos : 0 ≤ sent raft i)
    (h : Remembers c.topic (sent raft i).toNat c.dedupeKey msgID keys n) :
    ∃ n', call raft n a = some (n', .ok (some ⟨msgID, true⟩)) ∧
      (Data.ofNode n').log = (Data.ofNode n).log := by
  obtain ⟨p, hp, -, hrecent⟩ := h
  rw [call_pub hc (hc ▸ ha.admitted)]
  have hp₁ : ({ n with clock := a.clock } : Node).partition? c.topic (sent raft i).toNat =
      some p := hp
  have hfresh : raft = true → ({ n with clock := a.clock } : Node).appliedHighWater < a.index :=
    ha.fresh
  have hlogs : Data.ofNode { n with clock := a.clock } = Data.ofNode n := rfl
  generalize { n with clock := a.clock } = m at hroute hp₁ hfresh hlogs
  rw [← hlogs]
  obtain ⟨hopen, -⟩ := getOrCreateTopic_of_partition? hp₁
  obtain ⟨tsNs, visibleAtNs, raftIndex, hres, hparts⟩ :=
    routeAndApply_of_ok hfresh hroute hpos (hopen.symm ▸ hp₁)
  rcases p.applyPublish_cases tsNs visibleAtNs raftIndex c.dedupeKey c.payload with
    ⟨msgID', -, hget, heq⟩ | ⟨hnew, -⟩
  · obtain rfl : msgID = msgID' := Option.some.inj (hrecent.get?_eq.symm.trans hget)
    rw [heq] at hres hparts
    refine ⟨(routeAndApply raft m a.index c).1, ?_, ?_⟩
    · rw [Prod.map, hres]
      rfl
    · funext t j
      unfold Data.ofNode
      dsimp only
      rw [hparts, hopen]
      split_ifs with hat
      · rw [hat.1, hat.2, hp₁]
        rfl
      · rfl
  · exact nomatch hrecent.get?_eq.symm.trans (hnew.resolve_left hkey)

end

/-- A broker that was opened on any data has served any commands. A publish with a dedupe key, which
names its partition or has a routing key unless the topic has one partition, is answered with an
msgID; other publishes follow, with fewer further keys on the topic than an index holds. Then the
same publish again is answered as a duplicate with that msgID, and appends nothing to any
partition. -/
theorem retry_is_duplicate {raft : Bool} {cfg : Config} {opened n₀ n₁ n₂ : Node}
    {before others : List Call} {first retry : Call} {c c' : PubCommand} {msgID : UInt64}
    {dup : Bool}
    (hopened : JustOpened cfg opened)
    (hbefore : Run (callStep raft) (fun _ _ => True) opened before n₀)
    (hc : first.command = .pub c) (hfirst : IsPublish raft n₀ first)
    (hkey : c.dedupeKey ≠ []) (hpin : Pinned n₀ c)
    (hcall : call raft n₀ first = some (n₁, .ok (some ⟨msgID, dup⟩)))
    (hothers : Run (callStep raft) (IsPublish raft) n₁ others n₂)
    (hfew : (furtherKeys others c.topic c.dedupeKey).card < cfg.dedupeCap)
    (hc' : retry.command = .pub c') (hretry : IsPublish raft n₂ retry) (hsame : SamePub c c') :
    ∃ n₃, call raft n₂ retry = some (n₃, .ok (some ⟨msgID, true⟩)) ∧
      (Data.ofNode n₃).log = (Data.ofNode n₂).log := by
  have hsized : Sized cfg n₀ := by
    refine hbefore.invariant (I := Sized cfg) hopened.sized fun s a s' _ hs hstep => ?_
    obtain ⟨r, hr, rfl⟩ := map_eq_some_iff.mp hstep
    exact hs.call hr
  obtain ⟨i, hroute, hpos, hknown, hopens⟩ := remembers_of_first hfirst hc hkey hsized hfew hcall
  have hkeys : ∀ a ∈ others, ∀ k ∈ a.key? c.topic,
      k = c.dedupeKey ∨ k ∈ furtherKeys others c.topic c.dedupeKey := by
    intro a ha k hk
    by_cases heq : k = c.dedupeKey
    · exact .inl heq
    · refine .inr (Finset.mem_erase.mpr ⟨heq, List.mem_toFinset.mpr ?_⟩)
      exact mem_filterMap.mpr ⟨a, ha, hk⟩
  obtain ⟨hstill, hopens'⟩ := hknown.run hothers hkeys
  -- The retry is routed as the first attempt was, since the count of the topic is the same.
  have hcount : expected n₂ c.topic = expected n₀ c.topic :=
    (hopens'.expected c.topic).trans (hopens.expected c.topic)
  have hpin' : Pinned { n₀ with clock := first.clock } c := hpin
  have hagain : (localRoute { n₂ with clock := retry.clock } c.topic c.partition c.partitionSet
      c.routingKey).2 = _ := localRoute_pinned hpin' hcount
  rw [hroute] at hagain
  obtain ⟨htopic, hkey', hrouting, hpartition, hset, -⟩ := hsame
  rw [← htopic, ← hrouting, ← hpartition, ← hset] at hagain
  rw [← htopic, ← hkey'] at hstill
  exact call_of_remembers hretry hc' (hkey' ▸ hkey) hagain hpos hstill

/-! ### A retry with a routing key and one without -/

/-- A broker whose topics have two partitions, with indexes of two keys. -/
def twoPartitions : Node := .new ⟨2, 2, 4, 0⟩

/-- A publish to the topic `t` under a dedupe key and a routing key. -/
def publishCall (index : UInt64) (dedupeKey routingKey : Bytes) : Call :=
  ⟨0, index, [], .pub ⟨[116], dedupeKey, routingKey, 0, false, [109], 0, 0, 0⟩⟩

theorem isPublish_publishCall {index : UInt64} {dedupeKey : Bytes}
    (hkey : dedupeKey.length ≤ maxLineLength) (routingKey : Bytes)
    (hfresh : raft = true → n.appliedHighWater < index) :
    IsPublish raft n (publishCall index dedupeKey routingKey) := by
  refine ⟨⟨_, rfl⟩, ⟨?_, hkey, ?_, ?_, ?_⟩, hfresh⟩ <;> dsimp only <;> decide

theorem retry_is_duplicate_routed :
    ∃ n₁ n₂ n₃,
      call true twoPartitions (publishCall 1 [107] [114]) = some (n₁, .ok (some ⟨0, false⟩)) ∧
      callStep true n₁ (publishCall 2 [108] [114]) = some n₂ ∧
      call true n₂ (publishCall 3 [107] [114]) = some (n₃, .ok (some ⟨0, true⟩)) ∧
      (Data.ofNode n₃).log = (Data.ofNode n₂).log := by
  have heval : (call true twoPartitions (publishCall 1 [107] [114])).map
      (fun r => (r.2, r.1.appliedHighWater,
        (callStep true r.1 (publishCall 2 [108] [114])).map Node.appliedHighWater)) =
      some (.ok (some ⟨0, false⟩), 0, some 0) := by decide +kernel
  obtain ⟨⟨n₁, outcome⟩, hfirst, h⟩ := map_eq_some_iff.mp heval
  simp only [Prod.mk.injEq] at h
  obtain ⟨rfl, hmark, hother⟩ := h
  obtain ⟨n₂, hstep, hmark'⟩ := map_eq_some_iff.mp hother
  have hopened : JustOpened ⟨2, 2, 4, 0⟩ twoPartitions := justOpened_new _
  have hpublish : IsPublish true twoPartitions (publishCall 1 [107] [114]) :=
    isPublish_publishCall (by decide) _ fun _ => by decide
  have hothers : Run (callStep true) (IsPublish true) n₁ [publishCall 2 [108] [114]] n₂ :=
    .single (isPublish_publishCall (by decide) _ fun _ => by rw [hmark]; decide) hstep
  have hagain : IsPublish true n₂ (publishCall 3 [107] [114]) :=
    isPublish_publishCall (by decide) _ fun _ => by rw [hmark']; decide
  obtain ⟨n₃, hretry, hlog⟩ := retry_is_duplicate hopened (.nil twoPartitions) rfl hpublish
    (by decide) (.inr (.inl (by decide))) hfirst hothers (by decide) rfl hagain
    ⟨rfl, rfl, rfl, rfl, rfl, rfl⟩
  exact ⟨n₁, n₂, n₃, hfirst, hstep, hretry, hlog⟩

/-- What is told of publishes one after the other, and the lengths of the two logs after them. -/
def publishedInTurn (raft : Bool) (calls : List Call) : List (Option Outcome) × List ℕ :=
  let r := calls.foldl (fun (s : Node × List (Option Outcome)) a =>
    (((call raft s.1 a).map Prod.fst).getD s.1, s.2 ++ [(call raft s.1 a).map Prod.snd]))
    (twoPartitions, [])
  (r.2, [0, 1].map fun i => ((Data.ofNode r.1).log [116] i).length)

/-- A retry without a routing key comes to the other partition, where it is a new message, in both
modes. -/
theorem retry_in_turn :
    publishedInTurn false [publishCall 1 [107] [], publishCall 2 [107] []] =
        ([some (.ok (some ⟨0, false⟩)), some (.ok (some ⟨0, false⟩))], [1, 1]) ∧
      publishedInTurn true [publishCall 1 [107] [], publishCall 2 [107] []] =
        ([some (.ok (some ⟨0, false⟩)), some (.ok (some ⟨0, false⟩))], [1, 1]) := by
  decide +kernel

end ToyMQ.Server
