import ToyMQ.Replication.StateMachine

/-!
# What a replica stores

`Data` is what is on a node's disk, apart from offsets: the partition count of every topic and the
records of every partition. `Data.apply` says what a publish or a creation does to it, without the
indexes that a running broker keeps. `ofNode_apply` is the connection: a node whose dedupe indexes
agree with its logs does to its data what `Data.apply` says, unless it takes the entry for one that
was applied before.

The facts that a replay rests on are about `Data` alone. Applying an entry only adds
(`Data.le_apply`), and an entry that added no record does nothing when it is applied again later
(`Data.apply_of_not_appends`).
-/

namespace ToyMQ.Replication

open Lib Broker List
open Wal (Record)

/-! ## Dedupe keys in a log -/

def keyID (log : List Record) (key : Bytes) : Option UInt64 :=
  log.foldl (fun found rec => if rec.dedupeKey = key then some rec.msgID else found) none

theorem keyID_snoc (log : List Record) (rec : Record) (key : Bytes) :
    keyID (log ++ [rec]) key =
      if rec.dedupeKey = key then some rec.msgID else keyID log key := by
  rw [keyID, foldl_append]
  rfl

theorem keyID_eq_none_iff (log : List Record) (key : Bytes) :
    keyID log key = none ↔ ∀ r ∈ log, r.dedupeKey ≠ key := by
  induction log using List.reverseRecOn with
  | nil => simp [keyID]
  | append_singleton log rec ih =>
    rw [keyID_snoc]
    split_ifs with hkey
    · simp [hkey]
    · simp [ih, hkey, or_imp, forall_and]

/-- `rebuildIndexes` over the records of a log. -/
def rebuild (cap : ℕ) (log : List Record) : DedupeIndex :=
  log.foldl (fun d rec => DedupeIndex.note d rec.dedupeKey rec.msgID) (.empty cap)

theorem rebuild_snoc (cap : ℕ) (log : List Record) (rec : Record) :
    rebuild cap (log ++ [rec]) = (rebuild cap log).note rec.dedupeKey rec.msgID := by
  rw [rebuild, foldl_append]
  rfl

/-- A dedupe index that agrees with a log, where the keys in play are `keys`. -/
structure Agrees (keys : Finset Bytes) (d : DedupeIndex) (log : List Record) : Prop where
  room : keys.card ≤ d.cap
  known : ∀ r ∈ log, r.dedupeKey = [] ∨ r.dedupeKey ∈ keys
  get : ∀ key, d.get? key = if key = [] then none else keyID log key

namespace Agrees

variable {keys : Finset Bytes} {d : DedupeIndex} {log : List Record}

/-- A lookup only reorders the index. -/
theorem lookup (h : Agrees keys d log) (key : Bytes) : Agrees keys (Lru.lookup d key).2 log :=
  ⟨by rw [Lru.cap_lookup]; exact h.room, h.known, fun j => by rw [Lru.get?_lookup, h.get]⟩

/-- Every key of the index is one of those in play. -/
theorem mem_keys (h : Agrees keys d log) {key : Bytes} (hkey : d.get? key ≠ none) :
    key ∈ keys := by
  rw [h.get] at hkey
  split_ifs at hkey with hnil
  · exact absurd rfl hkey
  · obtain ⟨r, hr, rfl⟩ : ∃ r ∈ log, r.dedupeKey = key := by
      by_contra hnone
      exact hkey ((keyID_eq_none_iff log key).mpr fun r hr heq => hnone ⟨r, hr, heq⟩)
    exact (h.known r hr).resolve_left hnil

/-- A new record keeps the agreement. -/
theorem note (h : Agrees keys d log) {rec : Record}
    (hrec : rec.dedupeKey = [] ∨ rec.dedupeKey ∈ keys) :
    Agrees keys (DedupeIndex.note d rec.dedupeKey rec.msgID) (log ++ [rec]) := by
  have hknown : ∀ r ∈ log ++ [rec], r.dedupeKey = [] ∨ r.dedupeKey ∈ keys := by
    intro r hr
    rcases mem_append.mp hr with hr | hr
    · exact h.known r hr
    · rwa [mem_singleton.mp hr]
  unfold DedupeIndex.note
  by_cases hnil : rec.dedupeKey = []
  · rw [if_neg (not_not.mpr hnil)]
    refine ⟨h.room, hknown, fun key => ?_⟩
    rw [h.get, keyID_snoc]
    split_ifs with hkey hsame
    · rfl
    · exact absurd (hsame.symm.trans hnil) hkey
    · rfl
  · rw [if_pos hnil]
    refine ⟨(d.cap_insert _ _).symm ▸ h.room, hknown, fun key => ?_⟩
    rw [Lru.get?_insert h.room (fun _ => h.mem_keys) (hrec.resolve_left hnil), h.get, keyID_snoc]
    by_cases hkey : key = rec.dedupeKey
    · subst hkey
      simp [hnil]
    · simp [hkey, Ne.symm hkey]

/-- The rebuilt index agrees with the log. -/
theorem rebuild {cap : ℕ} (hroom : keys.card ≤ cap)
    (hknown : ∀ r ∈ log, r.dedupeKey = [] ∨ r.dedupeKey ∈ keys) :
    Agrees keys (rebuild cap log) log := by
  induction log using List.reverseRecOn with
  | nil => exact ⟨hroom, hknown, fun key => by simp [Replication.rebuild, keyID]⟩
  | append_singleton log rec ih =>
    rw [rebuild_snoc]
    exact (ih fun r hr => hknown r (mem_append_left _ hr)).note (hknown rec (by simp))

end Agrees

/-! ## Data -/

/-- The partition counts of the topics, and the records of the partitions. -/
structure Data where
  count : Bytes → Option ℕ
  log : Bytes → ℕ → List Record

namespace Data

/-- An empty disk. -/
def empty : Data := ⟨fun _ => none, fun _ _ => []⟩

/-- Opens a topic unless it exists. -/
def openTopic (cfg : Config) (d : Data) (topic : Bytes) (want : ℤ) : Data :=
  if d.count topic = none then
    { d with count := Function.update d.count topic (some (cfg.partitionCount want)) }
  else d

/-- The record that a publish would append. -/
def record (d : Data) (e : Entry) : Record :=
  ⟨UInt64.ofNat (d.log e.env.topic e.env.partition.toNat).length, e.env.tsNs, e.env.dedupeKey,
    e.env.payload, e.env.visibleAtNs, e.index⟩

/-- A publish finds its partition, is not a duplicate, and fits a frame. -/
def Takes (d : Data) (e : Entry) : Prop :=
  0 ≤ e.env.partition ∧
  (∃ count, d.count e.env.topic = some count ∧ e.env.partition.toNat < count) ∧
  (e.env.dedupeKey = [] ∨
    keyID (d.log e.env.topic e.env.partition.toNat) e.env.dedupeKey = none) ∧
  Wal.Fits (d.record e)

/-- The data with another log for a partition. -/
def setLog (d : Data) (topic : Bytes) (i : ℕ) (log : List Record) : Data :=
  ⟨d.count, fun t j => if t = topic ∧ j = i then log else d.log t j⟩

def append (d : Data) (e : Entry) : Data :=
  d.setLog e.env.topic e.env.partition.toNat
    (d.log e.env.topic e.env.partition.toNat ++ [d.record e])

open Classical in
/-- What applying an entry does to the data. -/
noncomputable def apply (cfg : Config) (d : Data) (e : Entry) : Data :=
  match e.env.kind with
  | .publish =>
    let d := d.openTopic cfg e.env.topic 0
    if d.Takes e then d.append e else d
  | .createTopic => d.openTopic cfg e.env.topic e.env.partitions
  | .ack | .nack => d

theorem setLog_self (d : Data) (topic : Bytes) (i : ℕ) :
    d.setLog topic i (d.log topic i) = d := by
  have hlog : (fun t j => if t = topic ∧ j = i then d.log topic i else d.log t j) = d.log := by
    funext t j
    split_ifs with hat
    · rw [hat.1, hat.2]
    · rfl
  rw [setLog, hlog]

/-! ### Growth -/

/-- The topics of the one are topics of the other, and the logs have only grown. -/
structure Le (d d' : Data) : Prop where
  count : ∀ t c, d.count t = some c → d'.count t = some c
  log : ∀ t i, d.log t i <+: d'.log t i

theorem Le.refl (d : Data) : d.Le d := ⟨fun _ _ h => h, fun _ _ => prefix_rfl⟩

variable {d d' : Data} {cfg : Config} {c : ℕ}

theorem Le.trans {d'' : Data} (h : d.Le d') (h' : d'.Le d'') : d.Le d'' :=
  ⟨fun t c hc => h'.count t c (h.count t c hc), fun t i => (h.log t i).trans (h'.log t i)⟩

theorem le_openTopic (cfg : Config) (d : Data) (topic : Bytes) (want : ℤ) :
    d.Le (d.openTopic cfg topic want) := by
  unfold openTopic
  split_ifs with hnone
  · refine ⟨fun t c hc => ?_, fun _ _ => prefix_rfl⟩
    have hne : t ≠ topic := by
      rintro rfl
      rw [hnone] at hc
      cases hc
    exact (Function.update_of_ne hne _ _).trans hc
  · exact .refl d

theorem le_append (d : Data) (e : Entry) : d.Le (d.append e) := by
  refine ⟨fun _ _ h => h, fun t i => ?_⟩
  unfold append setLog
  dsimp only
  split_ifs with hat
  · rw [hat.1, hat.2]
    exact prefix_append _ _
  · exact prefix_rfl

/-- Applying an entry only adds to the data. -/
theorem le_apply (cfg : Config) (d : Data) (e : Entry) : d.Le (d.apply cfg e) := by
  unfold apply
  split
  · dsimp only
    split_ifs
    · exact (d.le_openTopic cfg _ _).trans (le_append _ e)
    · exact d.le_openTopic cfg _ _
  · exact d.le_openTopic cfg _ _
  · exact .refl d
  · exact .refl d

/-! ### Applying an entry again -/

theorem openTopic_of_count {topic : Bytes} {want : ℤ} (h : d.count topic = some c) :
    d.openTopic cfg topic want = d := by
  rw [openTopic, if_neg (by simp [h])]

theorem exists_count_openTopic (cfg : Config) (d : Data) (topic : Bytes) (want : ℤ) :
    ∃ c, (d.openTopic cfg topic want).count topic = some c := by
  unfold openTopic
  split_ifs with hnone
  · exact ⟨_, Function.update_self _ _ _⟩
  · exact Option.ne_none_iff_exists'.mp hnone

def Appends (cfg : Config) (d : Data) (e : Entry) : Prop :=
  e.env.kind = .publish ∧ (d.openTopic cfg e.env.topic 0).Takes e

/-- Whether a record fits does not depend on its id. -/
theorem fits_record (d d' : Data) (e : Entry) :
    Wal.Fits (d.record e) ↔ Wal.Fits (d'.record e) := by
  have hlen : (Wal.inner (d.record e)).length = (Wal.inner (d'.record e)).length := by
    rfl
  unfold Wal.Fits
  rw [hlen]
  exact Iff.rfl

variable {e : Entry}

/-- What is refused stays refused when the logs grow. -/
theorem Takes.of_le (h : d'.Takes e) (hcount : d.count e.env.topic = some c) (hle : d.Le d') :
    d.Takes e := by
  obtain ⟨hpos, ⟨c', hc', hlt⟩, hkey, hfits⟩ := h
  obtain rfl : c = c' := Option.some.inj ((hle.count _ c hcount).symm.trans hc')
  refine ⟨hpos, ⟨c, hcount, hlt⟩, hkey.imp_right fun hnone => ?_, (fits_record d d' e).mpr hfits⟩
  rw [keyID_eq_none_iff] at hnone ⊢
  exact fun r hr => hnone r ((hle.log _ _).subset hr)

/-- An entry that appended nothing appends nothing when it is applied again, however much was
applied in between, and does nothing else either. -/
theorem apply_of_not_appends (hno : ¬ Appends cfg d e) (hle : (d.apply cfg e).Le d') :
    ¬ Appends cfg d' e ∧ d'.apply cfg e = d' := by
  unfold apply at hle ⊢
  cases hkind : e.env.kind with
  | publish =>
    simp only [hkind] at hle
    have hrefused : ¬ (d.openTopic cfg e.env.topic 0).Takes e := fun h => hno ⟨hkind, h⟩
    rw [if_neg hrefused] at hle
    obtain ⟨c, hc⟩ := exists_count_openTopic cfg d e.env.topic 0
    have hopen : d'.openTopic cfg e.env.topic 0 = d' := openTopic_of_count (hle.count _ c hc)
    have hrefused' : ¬ d'.Takes e := fun h => hrefused (h.of_le hc hle)
    unfold Appends
    rw [hopen, if_neg hrefused']
    exact ⟨fun h => hrefused' h.2, rfl⟩
  | createTopic =>
    simp only [hkind] at hle
    obtain ⟨c, hc⟩ := exists_count_openTopic cfg d e.env.topic e.env.partitions
    exact ⟨fun h => (nomatch hkind.symm.trans h.1), openTopic_of_count (hle.count _ c hc)⟩
  | ack | nack => exact ⟨fun h => (nomatch hkind.symm.trans h.1), rfl⟩

@[simp]
theorem log_openTopic (cfg : Config) (d : Data) (topic : Bytes) (want : ℤ) :
    (d.openTopic cfg topic want).log = d.log := by
  unfold openTopic
  split_ifs <;> rfl

theorem apply_of_appends (h : Appends cfg d e) :
    d.apply cfg e = (d.openTopic cfg e.env.topic 0).append e := by
  unfold apply
  simp only [h.1]
  rw [if_pos h.2]

theorem log_apply_of_not_appends (h : ¬ Appends cfg d e) : (d.apply cfg e).log = d.log := by
  unfold apply
  cases hkind : e.env.kind with
  | publish =>
    rw [if_neg fun htakes => h ⟨hkind, htakes⟩, log_openTopic]
  | createTopic => exact log_openTopic cfg d _ _
  | ack | nack => rfl

/-- A record comes from an entry that was applied. -/
theorem mem_log_apply {t : Bytes} {i : ℕ} {r : Record} (hr : r ∈ (d.apply cfg e).log t i) :
    r ∈ d.log t i ∨ r.raftIndex = e.index := by
  by_cases happ : Appends cfg d e
  · rw [apply_of_appends happ] at hr
    unfold append setLog at hr
    dsimp only at hr
    rw [log_openTopic] at hr
    split_ifs at hr with hat
    · rcases mem_append.mp hr with hr | hr
      · rw [← hat.1, ← hat.2] at hr
        exact .inl hr
      · rw [mem_singleton.mp hr]
        exact .inr rfl
    · exact .inl hr
  · rw [log_apply_of_not_appends happ] at hr
    exact .inl hr

/-- What appends leaves a record with its index. -/
theorem Appends.exists_record (h : Appends cfg d e) :
    ∃ r ∈ (d.apply cfg e).log e.env.topic e.env.partition.toNat, r.raftIndex = e.index := by
  refine ⟨(d.openTopic cfg e.env.topic 0).record e, ?_, rfl⟩
  rw [apply_of_appends h]
  simp [append, setLog]

end Data

/-! ## The data of a node -/

/-- What a node stores. -/
def Data.ofNode (n : Node) : Data where
  count t := (n.topics.lookup t).map fun topic => topic.partitions.length
  log t i := ((n.partition? t i).map Partition.log).getD []

/-- The indexes of a node agree with its logs, where the keys in play in each partition fit the
capacity. -/
structure Indexed (cfg : Config) (keys : Bytes → ℕ → Finset Bytes) (n : Node) : Prop where
  config_eq : n.config = cfg
  room : ∀ t i, (keys t i).card ≤ cfg.dedupeCap
  agrees : ∀ t i p, n.partition? t i = some p → Agrees (keys t i) p.dedupe p.log

section Node

variable {cfg : Config} {keys : Bytes → ℕ → Finset Bytes} {n : Node}

variable {topic : Bytes} {i : ℕ} {p : Partition}

theorem ofNode_insert_new (h : n.topics.lookup topic = none) (want : ℤ) :
    Data.ofNode { n with topics := n.topics.insert topic (n.config.openTopic want) } =
      (Data.ofNode n).openTopic n.config topic want := by
  have hnone : (Data.ofNode n).count topic = none := by simp [Data.ofNode, h]
  rw [Data.openTopic, if_pos hnone]
  unfold Data.ofNode
  congr 1
  · funext t
    by_cases ht : t = topic
    · subst ht
      rw [AList.lookup_insert, Function.update_self]
      simp [Config.openTopic]
    · rw [AList.lookup_insert_ne ht, Function.update_of_ne ht]
  · funext t i
    unfold Node.partition?
    by_cases ht : t = topic
    · subst ht
      dsimp only
      rw [AList.lookup_insert, h, Option.bind_some]
      unfold Config.openTopic
      rw [getElem?_replicate]
      split_ifs <;> rfl
    · rw [AList.lookup_insert_ne ht]

/-- The index of a new partition agrees with its log. -/
theorem Indexed.openPartition (h : Indexed cfg keys n) (t : Bytes) (i : ℕ) :
    Agrees (keys t i) n.config.openPartition.dedupe n.config.openPartition.log := by
  rw [h.config_eq]
  exact Agrees.rebuild (h.room t i) fun r hr => absurd hr not_mem_nil

theorem ofNode_getOrCreateTopic (n : Node) (topic : Bytes) :
    Data.ofNode (n.getOrCreateTopic topic).1 = (Data.ofNode n).openTopic n.config topic 0 := by
  unfold Node.getOrCreateTopic
  split
  next t ht =>
    exact (Data.openTopic_of_count (c := t.partitions.length) (by simp [Data.ofNode, ht])).symm
  next hnone => exact ofNode_insert_new hnone 0

theorem Indexed.getOrCreateTopic (h : Indexed cfg keys n) (topic : Bytes) :
    Indexed cfg keys (n.getOrCreateTopic topic).1 :=
  ⟨(n.config_getOrCreateTopic topic).trans h.config_eq, h.room,
    Node.Each.getOrCreateTopic h.agrees (h.openPartition topic)⟩

theorem ofNode_createTopicLocal (n : Node) (topic : Bytes) (partitions : ℤ) :
    Data.ofNode (n.createTopicLocal topic partitions).1 =
      (Data.ofNode n).openTopic n.config topic partitions := by
  unfold Node.createTopicLocal
  split
  next t ht =>
    have hopen : (Data.ofNode n).openTopic n.config topic partitions = Data.ofNode n :=
      Data.openTopic_of_count (c := t.partitions.length) (by simp [Data.ofNode, ht])
    split_ifs <;> exact hopen.symm
  next hnone => exact ofNode_insert_new hnone partitions

theorem Indexed.createTopicLocal (h : Indexed cfg keys n) (topic : Bytes) (partitions : ℤ) :
    Indexed cfg keys (n.createTopicLocal topic partitions).1 :=
  ⟨(n.config_createTopicLocal topic partitions).trans h.config_eq, h.room,
    Node.Each.createTopicLocal h.agrees (h.openPartition topic) partitions⟩

/-- A changed partition changes its log alone. -/
theorem ofNode_setPartition (hp : n.partition? topic i = some p) (p' : Partition) :
    Data.ofNode (n.setPartition topic i p') = (Data.ofNode n).setLog topic i p'.log := by
  unfold Data.ofNode Data.setLog
  congr 1
  · funext t
    obtain ⟨tp, htp, -⟩ := Option.bind_eq_some_iff.mp hp
    unfold Node.setPartition
    rw [htp]
    dsimp only
    by_cases ht : t = topic
    · rw [ht, AList.lookup_insert, htp]
      simp
    · rw [AList.lookup_insert_ne ht]
  · funext t j
    rw [Node.partition?_setPartition hp]
    split_ifs <;> rfl

theorem Indexed.setPartition (h : Indexed cfg keys n) {p' : Partition}
    (hp : n.partition? topic i = some p) (hagrees : Agrees (keys topic i) p'.dedupe p'.log) :
    Indexed cfg keys (n.setPartition topic i p') :=
  ⟨(n.config_setPartition topic i p').trans h.config_eq, h.room,
    Node.Each.setPartition h.agrees hp hagrees⟩

/-- The tail of a publish, from the log alone. -/
theorem applyPublish_spec {ks : Finset Bytes} (h : Agrees ks p.dedupe p.log)
    (tsNs visibleAtNs raftIndex : UInt64) {key : Bytes} (payload : Bytes)
    (hkey : (key = [] ∨ keyID p.log key = none) ∧
      Wal.Fits (p.nextRecord tsNs visibleAtNs raftIndex key payload) → key = [] ∨ key ∈ ks) :
    Agrees ks (p.applyPublish tsNs visibleAtNs raftIndex key payload).1.dedupe
        (p.applyPublish tsNs visibleAtNs raftIndex key payload).1.log ∧
      (p.applyPublish tsNs visibleAtNs raftIndex key payload).1.log =
        if (key = [] ∨ keyID p.log key = none) ∧
            Wal.Fits (p.nextRecord tsNs visibleAtNs raftIndex key payload) then
          p.log ++ [p.nextRecord tsNs visibleAtNs raftIndex key payload]
        else p.log := by
  -- The index answers as a search of the log would.
  have hget : key ≠ [] → p.dedupe.get? key = keyID p.log key := fun hnil => by
    rw [h.get, if_neg hnil]
  rcases p.applyPublish_cases tsNs visibleAtNs raftIndex key payload with
    ⟨msgID, hnil, hfound, heq⟩ | ⟨hnew, hrest⟩
  · have hdup : ¬ (key = [] ∨ keyID p.log key = none) := by
      rw [← hget hnil, hfound]
      exact not_or.mpr ⟨hnil, nofun⟩
    rw [heq, if_neg fun hboth => hdup hboth.1]
    exact ⟨h.lookup key, rfl⟩
  · have hnew' : key = [] ∨ keyID p.log key = none := by
      by_cases hnil : key = []
      · exact .inl hnil
      · exact .inr (hget hnil ▸ hnew.resolve_left hnil)
    by_cases hfits : Wal.Fits (p.nextRecord tsNs visibleAtNs raftIndex key payload)
    · rw [if_pos hfits] at hrest
      rw [hrest, if_pos ⟨hnew', hfits⟩]
      have hrec : (p.nextRecord tsNs visibleAtNs raftIndex key payload).dedupeKey = [] ∨
          (p.nextRecord tsNs visibleAtNs raftIndex key payload).dedupeKey ∈ ks :=
        hkey ⟨hnew', hfits⟩
      exact ⟨h.note hrec, rfl⟩
    · rw [if_neg hfits] at hrest
      rw [hrest, if_neg fun hboth => hfits hboth.2]
      exact ⟨h, rfl⟩

/-- The entry is a publish of a record at or below the mark of the last recovery. -/
def Skipped (n : Node) (e : Entry) : Prop :=
  e.env.kind = .publish ∧ e.index ≠ 0 ∧ e.index ≤ n.appliedHighWater

instance (n : Node) (e : Entry) : Decidable (Skipped n e) :=
  inferInstanceAs (Decidable (_ ∧ _ ∧ _))

variable {e : Entry}

/-- An entry that is skipped changes nothing. -/
theorem apply_of_skipped (h : Skipped n e) : (apply n e).node = n := by
  unfold apply
  simp only [h.1]
  rw [Node.applyPublish, if_pos h.2]

/-- A publish does what `Data.apply` says. -/
theorem ofNode_applyPublish (h : Indexed cfg keys n) (hkind : e.env.kind = .publish)
    (hskip : ¬ Skipped n e)
    (hkey : ((Data.ofNode n).openTopic cfg e.env.topic 0).Takes e → e.env.dedupeKey = [] ∨
      e.env.dedupeKey ∈ keys e.env.topic e.env.partition.toNat) :
    Data.ofNode (apply n e).node = (Data.ofNode n).apply cfg e ∧
      Indexed cfg keys (apply n e).node := by
  have hnew : ¬ (e.index ≠ 0 ∧ e.index ≤ n.appliedHighWater) := fun hle => hskip ⟨hkind, hle⟩
  have hopen : Data.ofNode (n.getOrCreateTopic e.env.topic).1 =
      (Data.ofNode n).openTopic cfg e.env.topic 0 := by
    rw [ofNode_getOrCreateTopic, h.config_eq]
  have hix := h.getOrCreateTopic e.env.topic
  unfold apply Data.apply
  simp only [hkind]
  rw [← hopen]
  have hcount : (Data.ofNode (n.getOrCreateTopic e.env.topic).1).count e.env.topic =
      some (n.getOrCreateTopic e.env.topic).2.partitions.length := by
    simp [Data.ofNode, n.lookup_getOrCreateTopic]
  cases hp : (n.partitionAt e.env.topic e.env.partition).2 with
  | error =>
    -- The partition is out of range, and the topic is all that was created.
    have hrefused : ¬ (Data.ofNode (n.getOrCreateTopic e.env.topic).1).Takes e := by
      rintro ⟨hpos, ⟨c, hc, hlt⟩, -⟩
      obtain rfl := Option.some.inj (hcount.symm.trans hc)
      have hok := Topic.at_eq_ok_iff.mpr ⟨hpos, getElem?_eq_getElem hlt⟩
      exact nomatch hp.symm.trans hok
    rw [Node.applyPublish_of_error hnew hp, if_neg hrefused]
    exact ⟨rfl, hix⟩
  | ok p =>
    have hread := Node.partitionAt_ok hp
    have hlog : (Data.ofNode (n.getOrCreateTopic e.env.topic).1).log e.env.topic
        e.env.partition.toNat = p.log := by
      simp [Data.ofNode, hread]
    have hrec : (Data.ofNode (n.getOrCreateTopic e.env.topic).1).record e =
        p.nextRecord e.env.tsNs e.env.visibleAtNs e.index e.env.dedupeKey e.env.payload := by
      rw [Data.record, hlog]
      rfl
    have htakes : (Data.ofNode (n.getOrCreateTopic e.env.topic).1).Takes e ↔
        (e.env.dedupeKey = [] ∨ keyID p.log e.env.dedupeKey = none) ∧
          Wal.Fits (p.nextRecord e.env.tsNs e.env.visibleAtNs e.index e.env.dedupeKey
            e.env.payload) := by
      obtain ⟨hpos, hget⟩ := Topic.at_eq_ok_iff.mp hp
      have hlt := (List.getElem?_eq_some_iff.mp hget).1
      rw [Data.Takes, hlog, hrec]
      exact ⟨fun htk => htk.2.2, fun htk => ⟨hpos, ⟨_, hcount, hlt⟩, htk⟩⟩
    obtain ⟨hagrees, heq⟩ := applyPublish_spec (hix.agrees _ _ p hread) e.env.tsNs
      e.env.visibleAtNs e.index e.env.payload
      fun hboth => hkey (hopen ▸ htakes.mpr hboth)
    rw [Node.applyPublish_of_ok hnew hp]
    refine ⟨?_, hix.setPartition hread hagrees⟩
    rw [ofNode_setPartition hread, heq]
    by_cases htk : (Data.ofNode (n.getOrCreateTopic e.env.topic).1).Takes e
    · rw [if_pos htk, if_pos (htakes.mp htk), Data.append, hlog, hrec]
    · rw [if_neg htk, if_neg fun hboth => htk (htakes.mpr hboth), ← hlog, Data.setLog_self]

/-- An entry does to the data what `Data.apply` says. -/
theorem ofNode_apply (h : Indexed cfg keys n)
    (hkind : e.env.kind = .publish ∨ e.env.kind = .createTopic) (hskip : ¬ Skipped n e)
    (hkey : (Data.ofNode n).Appends cfg e → e.env.dedupeKey = [] ∨
      e.env.dedupeKey ∈ keys e.env.topic e.env.partition.toNat) :
    Data.ofNode (apply n e).node = (Data.ofNode n).apply cfg e ∧
      Indexed cfg keys (apply n e).node := by
  rcases hkind with hpub | hcreate
  · exact ofNode_applyPublish h hpub hskip fun htakes => hkey ⟨hpub, htakes⟩
  · unfold apply Data.apply
    simp only [hcreate]
    rw [ofNode_createTopicLocal, h.config_eq]
    exact ⟨rfl, h.createTopicLocal _ _⟩

/-- Applying entries does not move the mark of the last recovery. -/
theorem appliedHighWater_apply (hkind : e.env.kind = .publish ∨ e.env.kind = .createTopic) :
    (apply n e).node.appliedHighWater = n.appliedHighWater := by
  have hopen := n.appliedHighWater_getOrCreateTopic e.env.topic
  rcases hkind with hpub | hcreate
  · unfold apply
    simp only [hpub]
    unfold Node.applyPublish Node.partitionAt
    split_ifs
    · rfl
    · split
      next heq =>
        rw [congrArg Prod.fst heq] at hopen
        exact hopen
      next heq =>
        unfold Node.setPartition
        rw [← hopen, congrArg Prod.fst heq]
        split <;> rfl
  · unfold apply
    simp only [hcreate]
    unfold Node.createTopicLocal
    split
    · split_ifs <;> rfl
    · rfl

end Node

end ToyMQ.Replication
