import ToyMQ.Replication.Shape

/-!
# Agreement of the logs

Two nodes that apply the same log are to hold the same messages under the same ids, so that a
client may be sent from one to the other. What the entries make of a partition is its records and
its dedupe index (`held`). Nothing but a publish changes it (`Keeps`), and what a publish does and
answers depends on it and on the partition count alone (`apply_publish`). Where the counts agree,
the nodes therefore agree on every partition and on every answer (`logs_converge`).
-/

namespace ToyMQ.Replication

open Lib Broker Option
open Wal (Record)

/-! ## What a node holds -/

/-- The records and the dedupe index of a partition. One that is not open has those of a new
one. -/
def held (n : Node) (t : Bytes) (i : ℕ) : List Record × DedupeIndex :=
  let p := (n.partition? t i).getD n.config.openPartition
  (p.log, p.dedupe)

/-- The broker has at most opened topics and changed consumers. -/
structure Keeps (n n' : Node) : Prop where
  config : n'.config = n.config
  held : held n' = held n

section

variable {n n' n'' : Node} {topic : Bytes} {i : ℕ} {p p' : Partition}

theorem held_of_partition? (h : n.partition? topic i = some p) :
    held n topic i = (p.log, p.dedupe) := by
  rw [held, h]
  rfl

theorem held_setPartition (hp : n.partition? topic i = some p) (p' : Partition) (t : Bytes)
    (j : ℕ) : held (n.setPartition topic i p') t j =
      if t = topic ∧ j = i then (p'.log, p'.dedupe) else held n t j := by
  unfold held
  rw [Node.partition?_setPartition hp, n.config_setPartition]
  split_ifs <;> rfl

namespace Keeps

theorem refl (n : Node) : Keeps n n := ⟨rfl, rfl⟩

theorem trans (h : Keeps n n') (h' : Keeps n' n'') : Keeps n n'' :=
  ⟨h'.config.trans h.config, h'.held.trans h.held⟩

/-- The partitions of a topic that is opened are new ones. -/
theorem insert_new (h : n.topics.lookup topic = none) (want : ℤ) :
    Keeps n { n with topics := n.topics.insert topic (n.config.openTopic want) } := by
  refine ⟨rfl, funext fun t => funext fun j => ?_⟩
  unfold Replication.held Node.partition?
  by_cases ht : t = topic
  · rw [ht, AList.lookup_insert, h, bind_some, bind_none, Config.openTopic,
      List.getElem?_replicate]
    split_ifs <;> rfl
  · rw [AList.lookup_insert_ne ht]

theorem getOrCreateTopic (n : Node) (topic : Bytes) : Keeps n (n.getOrCreateTopic topic).1 := by
  unfold Node.getOrCreateTopic
  split
  · exact refl n
  next h => exact insert_new h 0

theorem createTopicLocal (n : Node) (topic : Bytes) (partitions : ℤ) :
    Keeps n (n.createTopicLocal topic partitions).1 := by
  unfold Node.createTopicLocal
  split
  · split_ifs <;> exact refl n
  next h => exact insert_new h partitions

theorem setConsumer (hp : n.partition? topic i = some p) (consumerID : Bytes) (c : Consumer) :
    Keeps n (n.setPartition topic i (p.setConsumer consumerID c)) := by
  refine ⟨n.config_setPartition _ _ _, funext fun t => funext fun j => ?_⟩
  rw [held_setPartition hp]
  split_ifs with hat
  · rw [hat.1, hat.2, held_of_partition? hp]
    rfl
  · rfl

theorem lasting : Lasting (fun _ _ => True) Keeps where
  trans := .trans
  opened := getOrCreateTopic
  turned hconfig _ h := by
    refine ⟨hconfig, funext fun t => funext fun j => ?_⟩
    rw [Replication.held, Replication.held, partition?_congr h, hconfig]
  stored hp consumerID c _ := setConsumer hp consumerID c
  of_offsets _ := trivial

/-- Of the entries only a publish changes what is held. -/
theorem of_apply {e : Entry} (hkind : e.env.kind ≠ .publish) : Keeps n (apply n e).node := by
  unfold apply
  cases hk : e.env.kind with
  | publish => exact absurd hk hkind
  | ack =>
    simp only [hk]
    exact lasting.trans (getOrCreateTopic n _) (lasting.withConsumer fun _ _ _ _ => trivial)
  | nack =>
    simp only [hk]
    exact lasting.trans (getOrCreateTopic n _) (lasting.applyNack n _ _ _ _)
  | createTopic =>
    simp only [hk]
    exact createTopicLocal n _ _

end Keeps

end

/-! ## What a publish does -/

/-- The tail of a publish, on what a partition holds. -/
def publishTo (h : List Record × DedupeIndex) (e : Entry) :
    (List Record × DedupeIndex) × Except BrokerError ApplyResult :=
  let r := (⟨h.1, h.2, ∅, 0⟩ : Partition).applyPublish e.env.tsNs e.env.visibleAtNs e.index
    e.env.dedupeKey e.env.payload
  ((r.1.log, r.1.dedupe), r.2)

/-- The consumers of a partition and its window play no part. -/
theorem publishTo_eq (p : Partition) (e : Entry) :
    let r := p.applyPublish e.env.tsNs e.env.visibleAtNs e.index e.env.dedupeKey e.env.payload
    publishTo (p.log, p.dedupe) e = ((r.1.log, r.1.dedupe), r.2) := by
  unfold publishTo Partition.applyPublish Partition.nextRecord
  dsimp only
  split
  · rfl
  · split_ifs <;> rfl

/-- The entry names a partition that its topic has, or has once it is opened. -/
def InRange (n : Node) (e : Entry) : Prop :=
  0 ≤ e.env.partition ∧ e.env.partition.toNat < expected n e.env.topic

instance (n : Node) (e : Entry) : Decidable (InRange n e) :=
  inferInstanceAs (Decidable (_ ∧ _))

section

variable {n : Node} {e : Entry}

theorem length_getOrCreateTopic (n : Node) (topic : Bytes) :
    (n.getOrCreateTopic topic).2.partitions.length = expected n topic := by
  have h := shape_getOrCreateTopic_self n topic
  unfold shape Data.ofNode at h
  dsimp only at h
  rw [n.lookup_getOrCreateTopic] at h
  exact Option.some.inj h

theorem partitionAt_of_inRange (h : InRange n e) :
    ∃ p, (n.partitionAt e.env.topic e.env.partition).2 = .ok p := by
  have hlt := h.2
  rw [← length_getOrCreateTopic] at hlt
  exact ⟨_, Topic.at_eq_ok_iff.mpr ⟨h.1, List.getElem?_eq_getElem hlt⟩⟩

theorem partitionAt_of_not_inRange (h : ¬ InRange n e) :
    (n.partitionAt e.env.topic e.env.partition).2 =
      .error (.partitionRange e.env.partition (expected n e.env.topic)) := by
  unfold Node.partitionAt Topic.at
  rw [length_getOrCreateTopic]
  split_ifs with hneg
  · rfl
  · have hge : (n.getOrCreateTopic e.env.topic).2.partitions.length ≤ e.env.partition.toNat := by
      rw [length_getOrCreateTopic]
      exact Nat.not_lt.mp fun hlt => h ⟨Int.not_lt.mp hneg, hlt⟩
    rw [List.getElem?_eq_none hge]

/-- A publish changes and answers what its partition's records, dedupe index and number say. -/
theorem apply_publish (hkind : e.env.kind = .publish) (hskip : ¬ Skipped n e) :
    (held (apply n e).node, (apply n e).outcome) =
      if InRange n e then
        (fun t j =>
          if t = e.env.topic ∧ j = e.env.partition.toNat then
            (publishTo (held n e.env.topic e.env.partition.toNat) e).1
          else held n t j,
          some ((publishTo (held n e.env.topic e.env.partition.toNat) e).2.map some))
      else (held n,
        some (.error (.partitionRange e.env.partition (expected n e.env.topic)))) := by
  have hnew : ¬ (e.index ≠ 0 ∧ e.index ≤ n.appliedHighWater) := fun hle => hskip ⟨hkind, hle⟩
  have hopen := (Keeps.getOrCreateTopic n e.env.topic).held
  unfold apply
  simp only [hkind]
  split_ifs with hin
  · obtain ⟨p, hp⟩ := partitionAt_of_inRange hin
    have hread := Node.partitionAt_ok hp
    rw [Node.applyPublish_of_ok hnew hp, ← hopen, held_of_partition? hread, publishTo_eq]
    congr 1
    funext t j
    exact held_setPartition hread _ t j
  · rw [Node.applyPublish_of_error hnew (partitionAt_of_not_inRange hin), hopen]
    rfl

end

/-! ## Two nodes -/

/-- The nodes agree on what they hold, and on the counts that topics have or would get. -/
structure SameLogs (s : Pair) : Prop extends SameShape s where
  cap : s.right.config.dedupeCap = s.left.config.dedupeCap
  held : held s.left = held s.right

namespace SameLogs

variable {s s' : Pair}

theorem inRange_iff (h : SameLogs s) (e : Entry) : InRange s.left e ↔ InRange s.right e := by
  unfold InRange
  rw [h.expected]

theorem apply_publish (h : SameLogs s) {e : Entry} (hkind : e.env.kind = .publish) :
    (Replication.held (apply s.left e).node, (apply s.left e).outcome) =
      (Replication.held (apply s.right e).node, (apply s.right e).outcome) := by
  rw [Replication.apply_publish hkind (not_skipped h.left_mark e),
    Replication.apply_publish hkind (not_skipped h.right_mark e), h.held, h.expected]
  simp only [h.inRange_iff]

theorem of_step {a : PairAction} (hok : SameCreations s a) (h : SameLogs s)
    (hstep : s.step a = some s') : SameLogs s' := by
  have hshape := h.toSameShape.of_step hok hstep
  cases a with
  | left =>
    obtain ⟨n, hn, rfl⟩ := map_eq_some_iff.mp hstep
    have hkeeps := Keeps.lasting.of_localStep hn
    exact ⟨hshape, h.cap.trans (congrArg _ hkeeps.config.symm), hkeeps.held.trans h.held⟩
  | right =>
    obtain ⟨n, hn, rfl⟩ := map_eq_some_iff.mp hstep
    have hkeeps := Keeps.lasting.of_localStep hn
    exact ⟨hshape, (congrArg _ hkeeps.config).trans h.cap, h.held.trans hkeeps.held.symm⟩
  | apply e =>
    unfold Pair.step at hstep
    simp only [ite_none_right_eq_some, Option.some.injEq] at hstep
    obtain ⟨-, rfl⟩ := hstep
    by_cases hkind : e.env.kind = .publish
    · have hconfig (n : Node) (hmark : n.appliedHighWater = 0) :
          (Replication.apply n e).node.config = n.config := by
        have hne : e.env.kind ≠ .createTopic := by rw [hkind]; decide
        exact (Opens.of_apply hne (not_skipped hmark e)).config.trans
          (n.config_getOrCreateTopic _)
      refine ⟨hshape, ?_, congrArg Prod.fst (h.apply_publish hkind)⟩
      rw [hconfig _ h.left_mark, hconfig _ h.right_mark, h.cap]
    · have hl : Keeps s.left _ := .of_apply hkind
      have hr : Keeps s.right _ := .of_apply hkind
      refine ⟨hshape, ?_, (hl.held.trans h.held).trans hr.held.symm⟩
      rw [hl.config, hr.config, h.cap]

end SameLogs

theorem sameLogs_of_run {left right : Config}
    (hdefault : left.defaultPartitions = right.defaultPartitions)
    (hcap : left.dedupeCap = right.dedupeCap) {as : List PairAction} {s : Pair}
    (hrun : Run Pair.step SameCreations (.new left right) as s) : SameLogs s := by
  have hnew : SameLogs (.new left right) := by
    refine ⟨sameShape_of_run hdefault (.nil _), hcap.symm, ?_⟩
    show (fun _ _ => ([], Lru.empty left.dedupeCap)) = fun _ _ => ([], Lru.empty right.dedupeCap)
    rw [hcap]
  exact hrun.invariant hnew fun _ _ _ hok h hstep => h.of_step hok hstep

/-- A publish under a key, its retry, and a subscription on one of the nodes in between. -/
def keyedRetry : List PairAction :=
  [.apply ⟨1, { kind := .publish, topic := [116], dedupeKey := [107], payload := [109] }⟩,
    .left (.subscribe [116] 0 [99]), .left (.deliver [116] 0 [99] 0),
    .apply ⟨2, { kind := .publish, topic := [116], dedupeKey := [107], payload := [109] }⟩]

end ToyMQ.Replication
