import ToyMQ.Replication.Data
import ToyMQ.Wal.Spec

/-!
# Replay after a restart

When a broker is opened, it takes the highest raft index among its recovered records for the mark up
to which everything is applied; raft then applies the committed entries again from some earlier
point. Publishes at or below the mark are skipped. Creations, and publishes that left no record, are
run once more.

`replay_exactly_once` shows that the broker ends with the data that applying the log once gives,
however often it crashes, if crashes keep the records which an earlier recovery has found. Recovery
does not sync them: when such a record is lost while another partition holds a later one, the mark
is above it and it is never written again (`recovered_record_lost`).
-/

namespace ToyMQ.Broker

open Lib Replication List
open Wal (Record)

/-! ## Opening a broker -/

/-- `advanceAppliedHighWater`. -/
def advanceAppliedHighWater (cur idx : UInt64) : UInt64 := if idx ≤ cur then cur else idx

/-- `openPartition` on the directory of a partition whose log holds its first `k` records. -/
def Partition.reopen (cfg : Config) (k : ℕ) (p : Partition) : Partition :=
  ⟨p.log.take k, rebuild cfg.dedupeCap (p.log.take k), ∅, cfg.recvWindow⟩

/-- `openTopicLocked` for a topic that is on disk. -/
def Topic.reopen (cfg : Config) (keep : ℕ → ℕ) (t : Topic) : Topic :=
  ⟨t.partitions.mapIdx fun i p => p.reopen cfg (keep i), 0⟩

/-- The topics of a broker after a restart that keeps the given number of records in each log. -/
def Node.reopenTopics (n : Node) (keep : Bytes → ℕ → ℕ) : AList fun _ : Bytes => Topic :=
  ⟨n.topics.entries.map (Sigma.map id fun name t => t.reopen n.config (keep name)), by
    unfold List.NodupKeys
    rw [map₂_keys]
    exact n.topics.nodupKeys⟩

def allRecords (topics : AList fun _ : Bytes => Topic) : List Record :=
  topics.entries.flatMap fun e => e.2.partitions.flatMap Partition.log

/-- `newBroker` on the directory of a broker: every topic is recovered, and with it the mark. -/
def Node.reopen (n : Node) (keep : Bytes → ℕ → ℕ) : Node :=
  { n with
    topics := n.reopenTopics keep
    appliedHighWater := (allRecords (n.reopenTopics keep)).foldl
      (fun cur rec => advanceAppliedHighWater cur rec.raftIndex) 0
    isLeader := false }

theorem Node.lookup_reopen (n : Node) (keep : Bytes → ℕ → ℕ) (t : Bytes) :
    (n.reopen keep).topics.lookup t =
      (n.topics.lookup t).map fun topic => topic.reopen n.config (keep t) :=
  dlookup_map₂ t

theorem Node.partition?_reopen (n : Node) (keep : Bytes → ℕ → ℕ) (t : Bytes) (i : ℕ) :
    (n.reopen keep).partition? t i =
      (n.partition? t i).map fun p => p.reopen n.config (keep t i) := by
  unfold Node.partition?
  rw [n.lookup_reopen]
  cases n.topics.lookup t with
  | none => rfl
  | some => simp [Topic.reopen, getElem?_mapIdx]

end ToyMQ.Broker

namespace ToyMQ.Replication

open Lib Broker List
open Wal (Record)

/-- What a restart leaves of the data. -/
def Data.cut (d : Data) (keep : Bytes → ℕ → ℕ) : Data :=
  ⟨d.count, fun t i => (d.log t i).take (keep t i)⟩

theorem ofNode_reopen (n : Node) (keep : Bytes → ℕ → ℕ) :
    Data.ofNode (n.reopen keep) = (Data.ofNode n).cut keep := by
  unfold Data.ofNode Data.cut
  congr 1
  · funext t
    rw [n.lookup_reopen]
    dsimp only
    cases n.topics.lookup t <;> simp [Topic.reopen]
  · funext t i
    rw [n.partition?_reopen]
    dsimp only
    cases n.partition? t i <;> simp [Partition.reopen]

variable {cfg : Config} {n : Node}

/-- Recovery rebuilds the indexes. -/
theorem Indexed.reopen {keys : Bytes → ℕ → Finset Bytes} (h : Indexed cfg keys n)
    (keep : Bytes → ℕ → ℕ) : Indexed cfg keys (n.reopen keep) := by
  refine ⟨h.config_eq, h.room, fun t i p hp => ?_⟩
  rw [n.partition?_reopen] at hp
  obtain ⟨q, hq, rfl⟩ := Option.map_eq_some_iff.mp hp
  rw [h.config_eq]
  exact Agrees.rebuild (h.room t i) fun r hr =>
    (h.agrees t i q hq).known r (mem_of_mem_take hr)

/-! ## The mark -/

structure Mark (d : Data) (mark : UInt64) : Prop where
  le : ∀ t i, ∀ r ∈ d.log t i, r.raftIndex ≤ mark
  attained : mark = 0 ∨ ∃ t i, ∃ r ∈ d.log t i, r.raftIndex = mark

theorem foldl_advance (rs : List Record) (cur : UInt64) :
    let mark := rs.foldl (fun cur rec => advanceAppliedHighWater cur rec.raftIndex) cur
    cur ≤ mark ∧ (∀ r ∈ rs, r.raftIndex ≤ mark) ∧ (mark = cur ∨ ∃ r ∈ rs, r.raftIndex = mark) := by
  induction rs generalizing cur with
  | nil => simp
  | cons rec rs ih =>
    obtain ⟨hle, hall, hmem⟩ := ih (advanceAppliedHighWater cur rec.raftIndex)
    rw [foldl_cons]
    generalize List.foldl _ _ rs = mark at hle hall hmem
    have hstep : cur ≤ advanceAppliedHighWater cur rec.raftIndex ∧
        rec.raftIndex ≤ advanceAppliedHighWater cur rec.raftIndex := by
      unfold advanceAppliedHighWater
      split_ifs with hcur
      · exact ⟨UInt64.le_refl _, hcur⟩
      · exact ⟨UInt64.le_of_lt (UInt64.not_le.mp hcur), UInt64.le_refl _⟩
    refine ⟨UInt64.le_trans hstep.1 hle, ?_, ?_⟩
    · intro r hr
      rcases mem_cons.mp hr with rfl | hr
      · exact UInt64.le_trans hstep.2 hle
      · exact hall r hr
    · rcases hmem with heq | ⟨r, hr, heq⟩
      · unfold advanceAppliedHighWater at heq
        split_ifs at heq
        · exact .inl heq
        · exact .inr ⟨rec, mem_cons_self, heq.symm⟩
      · exact .inr ⟨r, mem_cons_of_mem _ hr, heq⟩

variable {r : Record}

theorem mem_allRecords : r ∈ allRecords n.topics ↔ ∃ t i, r ∈ (Data.ofNode n).log t i := by
  unfold allRecords Data.ofNode Node.partition?
  simp only [mem_flatMap]
  constructor
  · rintro ⟨⟨t, topic⟩, htopic, p, hp, hr⟩
    obtain ⟨i, hi⟩ := getElem?_of_mem hp
    refine ⟨t, i, ?_⟩
    rw [AList.mem_lookup_iff.mpr htopic, Option.bind_some, hi]
    exact hr
  · rintro ⟨t, i, hr⟩
    cases htopic : n.topics.lookup t with
    | none => simp [htopic] at hr
    | some topic =>
      rw [htopic, Option.bind_some] at hr
      cases hp : topic.partitions[i]? with
      | none => simp [hp] at hr
      | some p =>
        rw [hp] at hr
        exact ⟨⟨t, topic⟩, AList.mem_lookup_iff.mp htopic, p, mem_of_getElem? hp, hr⟩

/-- The mark that recovery computes. -/
theorem mark_reopen (n : Node) (keep : Bytes → ℕ → ℕ) :
    Mark (Data.ofNode (n.reopen keep)) (n.reopen keep).appliedHighWater := by
  obtain ⟨-, hall, hmem⟩ := foldl_advance (allRecords (n.reopen keep).topics) 0
  refine ⟨fun t i r hr => hall r (mem_allRecords.mpr ⟨t, i, hr⟩), hmem.imp_right ?_⟩
  rintro ⟨r, hr, heq⟩
  obtain ⟨t, i, hr⟩ := mem_allRecords.mp hr
  exact ⟨t, i, r, hr, heq⟩

/-! ## The log and its data -/

/-- The data after the first `k` entries, each applied once. -/
noncomputable def Data.after (cfg : Config) (entries : List Entry) (k : ℕ) : Data :=
  (entries.take k).foldl (Data.apply cfg) .empty

def keysSeen (entries : List Entry) (topic : Bytes) (i : ℕ) : Finset Bytes :=
  ((entries.filter fun e => e.env.kind = .publish ∧ e.env.topic = topic ∧
    e.env.partition = (i : ℤ) ∧ e.env.dedupeKey ≠ []).map fun e => e.env.dedupeKey).toFinset

/-- A committed log of publishes and creations, in which no partition sees more dedupe keys than
its index holds. -/
structure CommittedLog (cfg : Config) where
  entries : List Entry
  kinds : ∀ e ∈ entries, e.env.kind = .publish ∨ e.env.kind = .createTopic
  ascending : entries.Pairwise fun a b => a.index < b.index
  positive : ∀ e ∈ entries, e.index ≠ 0
  keys_fit : ∀ t c, (Data.after cfg entries entries.length).count t = some c → ∀ i < c,
    (keysSeen entries t i).card ≤ cfg.dedupeCap

namespace CommittedLog

variable {cfg : Config} (L : CommittedLog cfg)

/-- The data after the first `k` entries. -/
noncomputable def after (k : ℕ) : Data := Data.after cfg L.entries k

variable {L} {j k : ℕ} {e : Entry}

theorem after_succ (he : L.entries[k]? = some e) : L.after (k + 1) = (L.after k).apply cfg e := by
  unfold after Data.after
  rw [take_add_one, he, foldl_append]
  rfl

theorem after_le (h : j ≤ k) : (L.after j).Le (L.after k) := by
  induction k, h using Nat.le_induction with
  | base => exact .refl _
  | succ k _ ih =>
    refine ih.trans ?_
    cases he : L.entries[k]? with
    | none =>
      unfold after Data.after
      rw [take_add_one, he, Option.toList_none, append_nil]
      exact .refl _
    | some e =>
      rw [after_succ he]
      exact Data.le_apply cfg _ e

theorem index_of_mem_after {t : Bytes} {i : ℕ} {r : Record} (hr : r ∈ (L.after k).log t i) :
    ∃ j < k, ∃ e, L.entries[j]? = some e ∧ r.raftIndex = e.index := by
  induction k with
  | zero => simp [after, Data.after, Data.empty] at hr
  | succ k ih =>
    cases he : L.entries[k]? with
    | none =>
      unfold after Data.after at hr
      rw [take_add_one, he, Option.toList_none, append_nil] at hr
      obtain ⟨j, hj, hrest⟩ := ih hr
      exact ⟨j, hj.trans (Nat.lt_succ_self k), hrest⟩
    | some e =>
      rw [after_succ he] at hr
      rcases Data.mem_log_apply hr with hr | hidx
      · obtain ⟨j, hj, hrest⟩ := ih hr
        exact ⟨j, hj.trans (Nat.lt_succ_self k), hrest⟩
      · exact ⟨k, Nat.lt_succ_self k, e, he, hidx⟩

/-- Later entries have higher indices. -/
theorem index_lt {e' : Entry} (hjk : j < k) (hj : L.entries[j]? = some e)
    (hk : L.entries[k]? = some e') : e.index < e'.index := by
  obtain ⟨hjlen, rfl⟩ := List.getElem?_eq_some_iff.mp hj
  obtain ⟨hklen, rfl⟩ := List.getElem?_eq_some_iff.mp hk
  exact pairwise_iff_getElem.mp L.ascending j k hjlen hklen hjk

open Classical in
/-- The dedupe keys in play in a partition; there are none where the log creates no partition. -/
noncomputable def keys (L : CommittedLog cfg) (t : Bytes) (i : ℕ) : Finset Bytes :=
  if ∃ c, (L.after L.entries.length).count t = some c ∧ i < c then keysSeen L.entries t i else ∅

theorem card_keys_le (t : Bytes) (i : ℕ) : (L.keys t i).card ≤ cfg.dedupeCap := by
  unfold keys
  split_ifs with hin
  · obtain ⟨c, hc, hi⟩ := hin
    exact L.keys_fit t c hc i hi
  · simp

/-! ### How far a disk has got -/

/-- The data of a node that has applied the first `m` entries. The next one may have created its
topic already, when a crash has lost its record. -/
def Reached (L : CommittedLog cfg) (m : ℕ) (d : Data) : Prop :=
  d = L.after m ∨ ∃ e, L.entries[m]? = some e ∧ e.env.kind = .publish ∧
    d = (L.after m).openTopic cfg e.env.topic 0

namespace Reached

variable {m : ℕ} {d : Data}

theorem log_eq (h : L.Reached m d) : d.log = (L.after m).log := by
  rcases h with rfl | ⟨e, -, -, rfl⟩
  · rfl
  · exact Data.log_openTopic cfg _ _ _

theorem le (h : L.Reached m d) : (L.after m).Le d := by
  rcases h with rfl | ⟨e, -, -, rfl⟩
  · exact .refl _
  · exact Data.le_openTopic cfg _ _ _

/-- Applying the next entry completes it. -/
theorem apply_next (h : L.Reached m d) (he : L.entries[m]? = some e) :
    d.apply cfg e = L.after (m + 1) := by
  rw [after_succ he]
  rcases h with rfl | ⟨e', he', hkind, rfl⟩
  · rfl
  · obtain rfl := Option.some.inj (he.symm.trans he')
    obtain ⟨c, hc⟩ := Data.exists_count_openTopic cfg (L.after m) e.env.topic 0
    unfold Data.apply
    simp only [hkind]
    rw [Data.openTopic_of_count hc]

/-- The next entry may create its topic. -/
theorem openTopic (h : L.Reached m d) (he : L.entries[m]? = some e)
    (hkind : e.env.kind = .publish) : L.Reached m (d.openTopic cfg e.env.topic 0) := by
  rcases h with rfl | ⟨e', he', -, rfl⟩
  · exact .inr ⟨e, he, hkind, rfl⟩
  · obtain rfl := Option.some.inj (he.symm.trans he')
    obtain ⟨c, hc⟩ := Data.exists_count_openTopic cfg (L.after m) e.env.topic 0
    rw [Data.openTopic_of_count hc]
    exact .inr ⟨e, he, hkind, rfl⟩

theorem key_mem (h : L.Reached m d) (he : L.entries[m]? = some e) (happ : d.Appends cfg e) :
    e.env.dedupeKey = [] ∨ e.env.dedupeKey ∈ L.keys e.env.topic e.env.partition.toNat := by
  by_cases hnil : e.env.dedupeKey = []
  · exact .inl hnil
  refine .inr ?_
  obtain ⟨hkind, hpos, ⟨c, hc, hlt⟩, -⟩ := happ
  -- The topic has its final partition count once the entry is applied.
  have hfinal : (L.after L.entries.length).count e.env.topic = some c := by
    have hlen : m + 1 ≤ L.entries.length := (List.getElem?_eq_some_iff.mp he).1
    refine (L.after_le hlen).count _ c ?_
    rw [← h.apply_next he]
    unfold Data.apply
    simp only [hkind]
    split_ifs <;> exact hc
  unfold keys
  rw [if_pos ⟨c, hfinal, hlt⟩]
  unfold keysSeen
  simp only [List.mem_toFinset, List.mem_map, mem_filter, decide_eq_true_eq]
  exact ⟨e, ⟨mem_of_getElem? he, hkind, rfl, (Int.toNat_of_nonneg hpos).symm, hnil⟩, rfl⟩

end Reached

end CommittedLog

/-! ## What a crash leaves -/

variable {d : Data}

theorem Data.cut_of_le {keep : Bytes → ℕ → ℕ} (h : ∀ t i, (d.log t i).length ≤ keep t i) :
    d.cut keep = d := by
  have hlog : (fun t i => (d.log t i).take (keep t i)) = d.log := by
    funext t i
    exact take_of_length_le (h t i)
  rw [Data.cut, hlog]

/-- A crash inside an append that keeps all earlier records leaves the entry applied, or its topic
created and no more. -/
theorem Data.cut_apply {e : Entry} {keep : Bytes → ℕ → ℕ} (h : ∀ t i, (d.log t i).length ≤ keep t i)
    :
    (d.apply cfg e).cut keep = d.apply cfg e ∨
      (e.env.kind = .publish ∧ (d.apply cfg e).cut keep = d.openTopic cfg e.env.topic 0) := by
  by_cases happ : d.Appends cfg e
  · rw [Data.apply_of_appends happ]
    by_cases hlast : (d.log e.env.topic e.env.partition.toNat).length <
        keep e.env.topic e.env.partition.toNat
    · refine .inl (Data.cut_of_le fun t i => ?_)
      unfold Data.append Data.setLog
      dsimp only
      rw [Data.log_openTopic]
      split_ifs with hat
      · rw [hat.1, hat.2, length_append]
        exact hlast
      · exact h t i
    · -- The new record is cut off, and nothing else.
      refine .inr ⟨happ.1, ?_⟩
      have hlog : (fun t i => (((d.openTopic cfg e.env.topic 0).append e).log t i).take
          (keep t i)) = (d.openTopic cfg e.env.topic 0).log := by
        funext t i
        unfold Data.append Data.setLog
        dsimp only
        rw [Data.log_openTopic]
        split_ifs with hat
        · rw [hat.1, hat.2]
          exact take_left' (le_antisymm (h _ _) (Nat.le_of_not_lt hlast))
        · exact take_of_length_le (h t i)
      rw [Data.cut, hlog]
      rfl
  · refine .inl (Data.cut_of_le fun t i => ?_)
    rw [Data.log_apply_of_not_appends happ]
    exact h t i

/-! ## The system -/

structure Replica where
  node : Node
  /-- How many records of each log are known to have been synced. -/
  synced : Bytes → ℕ → ℕ
  /-- The number of the entry to apply. -/
  pos : ℕ
  /-- The number of the first entry that was never applied to the end. -/
  next : ℕ

/-- A replica on an empty directory. -/
def Replica.new (cfg : Config) : Replica := ⟨.new cfg, fun _ _ => 0, 0, 0⟩

/-- What happens to a replica. -/
inductive ReplicaAction where
  /-- The next entry is applied. -/
  | apply
  /-- A crash between two entries or inside the append of the next one, which keeps `cut` records
  of each log or those that were synced, and a restart after which raft begins at `restartAt`. -/
  | crash (inAppend : Bool) (cut : Bytes → ℕ → ℕ) (restartAt : ℕ)

/-- A step of a replica. An append syncs its log before it returns. A recovery syncs nothing. -/
def Replica.step (entries : List Entry) (s : Replica) : ReplicaAction → Option Replica
  | .apply =>
    entries[s.pos]?.map fun e =>
      let n := (Replication.apply s.node e).node
      { node := n
        synced := fun t i =>
          if (Data.ofNode n).log t i = (Data.ofNode s.node).log t i then s.synced t i
          else ((Data.ofNode n).log t i).length
        pos := s.pos + 1
        next := max s.next (s.pos + 1) }
  | .crash inAppend cut restartAt =>
    if restartAt ≤ s.next then
      (if inAppend then entries[s.pos]?.map fun e => (Replication.apply s.node e).node
        else some s.node).map fun n =>
        { s with
          node := n.reopen fun t i => max (s.synced t i) (cut t i)
          pos := restartAt }
    else none

/-- A crash keeps every record that was in the logs before the append it interrupts. -/
def KeepsRecords (s : Replica) : ReplicaAction → Prop
  | .apply => True
  | .crash _ cut _ => ∀ t ∈ s.node.topics.keys, ∀ i < ((Data.ofNode s.node).count t).getD 0,
      ((Data.ofNode s.node).log t i).length ≤ max (s.synced t i) (cut t i)

instance (s : Replica) : DecidablePred (KeepsRecords s) := fun a =>
  match a with
  | .apply => isTrue trivial
  | .crash _ _ _ => inferInstanceAs (Decidable (∀ t ∈ s.node.topics.keys, _))

theorem mem_keys_of_mem_log {t : Bytes} {i : ℕ} (h : r ∈ (Data.ofNode n).log t i) :
    t ∈ n.topics.keys ∧ i < ((Data.ofNode n).count t).getD 0 := by
  unfold Data.ofNode Node.partition? at h ⊢
  dsimp only at h ⊢
  cases htopic : n.topics.lookup t with
  | none => simp [htopic] at h
  | some topic =>
    rw [htopic, Option.bind_some] at h
    cases hp : topic.partitions[i]? with
    | none => simp [hp] at h
    | some =>
      refine ⟨AList.mem_keys.mp (AList.lookup_isSome.mp (by rw [htopic]; rfl)), ?_⟩
      exact (List.getElem?_eq_some_iff.mp hp).1

/-- The condition speaks of all logs there are. -/
theorem KeepsRecords.length_le {s : Replica} {inAppend : Bool} {cut : Bytes → ℕ → ℕ}
    {restartAt : ℕ} (h : KeepsRecords s (.crash inAppend cut restartAt)) (t : Bytes) (i : ℕ) :
    ((Data.ofNode s.node).log t i).length ≤ max (s.synced t i) (cut t i) := by
  rcases eq_nil_or_concat ((Data.ofNode s.node).log t i) with hnil | ⟨front, r, hlast⟩
  · simp [hnil]
  · have hr : r ∈ (Data.ofNode s.node).log t i := by simp [hlast]
    obtain ⟨hkey, hi⟩ := mem_keys_of_mem_log hr
    exact h t hkey i hi

/-! ## The invariant -/

section Replay

variable {cfg : Config} {L : CommittedLog cfg} {m₀ pos : ℕ} {n : Node} {e : Entry}

/-- The state of a node: it was opened with the first `m₀` entries on disk, and raft has come to
entry `pos` since. -/
structure Follows (L : CommittedLog cfg) (m₀ pos : ℕ) (n : Node) : Prop where
  indexed : Indexed cfg L.keys n
  reached : L.Reached (max m₀ pos) (Data.ofNode n)
  mark : Mark (L.after m₀) n.appliedHighWater

theorem Follows.not_skipped (h : Follows L m₀ pos n) (he : L.entries[pos]? = some e)
    (hpos : m₀ ≤ pos) : ¬ Skipped n e := by
  rintro ⟨-, hne, hle⟩
  rcases h.mark.attained with hzero | ⟨t, i, r, hr, heq⟩
  · rw [hzero] at hle
    exact hne (UInt64.le_antisymm hle (UInt64.zero_le))
  · obtain ⟨j, hj, e', he', hidx⟩ := CommittedLog.index_of_mem_after hr
    have hlt := L.index_lt (hj.trans_le hpos) he' he
    rw [← heq, hidx] at hle
    exact UInt64.not_lt.mpr hle hlt

theorem Follows.skipped_of_appends (h : Follows L m₀ pos n) (he : L.entries[pos]? = some e)
    (hpos : pos < m₀) (happ : (L.after pos).Appends cfg e) : Skipped n e := by
  obtain ⟨r, hr, hidx⟩ := happ.exists_record
  rw [← L.after_succ he] at hr
  refine ⟨happ.1, L.positive e (mem_of_getElem? he), ?_⟩
  rw [← hidx]
  exact h.mark.le _ _ r (((L.after_le hpos).log _ _).subset hr)

/-- Applying the next entry changes nothing if the entry was recovered, and else completes it. -/
theorem Follows.apply (h : Follows L m₀ pos n) (he : L.entries[pos]? = some e) :
    Indexed cfg L.keys (Replication.apply n e).node ∧
      ((pos < m₀ ∧ Data.ofNode (Replication.apply n e).node = Data.ofNode n) ∨
        (m₀ ≤ pos ∧ Data.ofNode (Replication.apply n e).node = L.after (pos + 1))) := by
  have hkind := L.kinds e (mem_of_getElem? he)
  rcases Nat.lt_or_ge pos m₀ with hlt | hge
  · by_cases hskip : Skipped n e
    · rw [apply_of_skipped hskip]
      exact ⟨h.indexed, .inl ⟨hlt, rfl⟩⟩
    · have hno : ¬ (L.after pos).Appends cfg e := fun happ =>
        hskip (h.skipped_of_appends he hlt happ)
      have hle : ((L.after pos).apply cfg e).Le (Data.ofNode n) := by
        rw [← L.after_succ he]
        exact (L.after_le (le_max_of_le_left hlt)).trans h.reached.le
      obtain ⟨hno', hsame⟩ := Data.apply_of_not_appends hno hle
      obtain ⟨hdata, hindexed⟩ := ofNode_apply h.indexed hkind hskip fun happ => absurd happ hno'
      exact ⟨hindexed, .inl ⟨hlt, hdata.trans hsame⟩⟩
  · have hreached := h.reached
    rw [max_eq_right hge] at hreached
    obtain ⟨hdata, hindexed⟩ := ofNode_apply h.indexed hkind (h.not_skipped he hge)
      (hreached.key_mem he)
    exact ⟨hindexed, .inr ⟨hge, hdata.trans (hreached.apply_next he)⟩⟩

/-- Applying the next entry moves on by one. -/
theorem Follows.step (h : Follows L m₀ pos n) (he : L.entries[pos]? = some e) :
    Follows L m₀ (pos + 1) (Replication.apply n e).node := by
  obtain ⟨hindexed, hcases⟩ := h.apply he
  refine ⟨hindexed, ?_, ?_⟩
  · rcases hcases with ⟨hlt, hdata⟩ | ⟨hge, hdata⟩
    · have hreached := h.reached
      rw [max_eq_left hlt.le] at hreached
      rw [hdata, max_eq_left hlt]
      exact hreached
    · rw [hdata, max_eq_right (hge.trans (Nat.le_succ pos))]
      exact .inl rfl
  · rw [appliedHighWater_apply (L.kinds e (mem_of_getElem? he))]
    exact h.mark

theorem Follows.reopen {m : ℕ} {keep : Bytes → ℕ → ℕ} (hindexed : Indexed cfg L.keys n)
    (hreached : L.Reached m ((Data.ofNode n).cut keep)) (hpos : pos ≤ m) :
    Follows L m pos (n.reopen keep) := by
  rw [← ofNode_reopen] at hreached
  refine ⟨hindexed.reopen keep, by rwa [max_eq_left hpos], ?_⟩
  have hmark := mark_reopen n keep
  exact ⟨fun t i => hreached.log_eq ▸ hmark.le t i, hreached.log_eq ▸ hmark.attained⟩

variable {restartAt : ℕ}

theorem Follows.crash {keep : Bytes → ℕ → ℕ} (h : Follows L m₀ pos n)
    (hkeep : ∀ t i, ((Data.ofNode n).log t i).length ≤ keep t i)
    (hrestart : restartAt ≤ max m₀ pos) : Follows L (max m₀ pos) restartAt (n.reopen keep) := by
  refine .reopen h.indexed ?_ hrestart
  rw [Data.cut_of_le hkeep]
  exact h.reached

theorem Follows.crashInAppend {keep : Bytes → ℕ → ℕ} (h : Follows L m₀ pos n)
    (he : L.entries[pos]? = some e) (hkeep : ∀ t i, ((Data.ofNode n).log t i).length ≤ keep t i)
    (hrestart : restartAt ≤ max m₀ pos) :
    ∃ m, max m₀ pos ≤ m ∧
      Follows L m restartAt ((Replication.apply n e).node.reopen keep) := by
  obtain ⟨hindexed, hcases⟩ := h.apply he
  rcases hcases with ⟨-, hdata⟩ | ⟨hge, hdata⟩
  · refine ⟨_, le_rfl, .reopen hindexed ?_ hrestart⟩
    rw [hdata, Data.cut_of_le hkeep]
    exact h.reached
  · have hreached := h.reached
    rw [max_eq_right hge] at hreached hrestart ⊢
    have hnext := hreached.apply_next he
    rcases Data.cut_apply (e := e) hkeep with hcut | ⟨hkind, hcut⟩
    · rw [hnext] at hcut
      refine ⟨pos + 1, Nat.le_succ pos, .reopen hindexed ?_ (hrestart.trans (Nat.le_succ pos))⟩
      rw [hdata, hcut]
      exact .inl rfl
    · rw [hnext] at hcut
      refine ⟨pos, le_rfl, .reopen hindexed ?_ hrestart⟩
      rw [hdata, hcut]
      exact hreached.openTopic he hkind

/-! ## Whole runs -/

/-- A replica follows the log from some number of recovered entries on, and raft never begins above
what is on its disk. -/
def Replica.Ok (L : CommittedLog cfg) (s : Replica) : Prop :=
  ∃ m₀, Follows L m₀ s.pos s.node ∧ s.next ≤ max m₀ s.pos

/-- A new node follows the log from its start. -/
theorem Follows.new (L : CommittedLog cfg) : Follows L 0 0 (.new cfg) := by
  refine ⟨⟨rfl, L.card_keys_le, fun t i p hp => ?_⟩, .inl rfl, ?_, .inl rfl⟩
  · simp [Node.new, Node.partition?] at hp
  · intro t i r hr
    simp [CommittedLog.after, Data.after, Data.empty] at hr

theorem Replica.Ok.step {s s' : Replica} {a : ReplicaAction} (h : s.Ok L)
    (hok : KeepsRecords s a) (hstep : s.step L.entries a = some s') : s'.Ok L := by
  obtain ⟨m₀, hfollows, hnext⟩ := h
  cases a with
  | apply =>
    obtain ⟨e, he, rfl⟩ := Option.map_eq_some_iff.mp hstep
    refine ⟨m₀, hfollows.step he, ?_⟩
    dsimp only
    omega
  | crash =>
    dsimp only [Replica.step] at hstep
    split_ifs at hstep with hrestart hin
    · -- The append of the next entry was under way.
      obtain ⟨n, hn, rfl⟩ := Option.map_eq_some_iff.mp hstep
      obtain ⟨e, he, rfl⟩ := Option.map_eq_some_iff.mp hn
      obtain ⟨m, hm, hfollows'⟩ :=
        hfollows.crashInAppend he hok.length_le (hrestart.trans hnext)
      exact ⟨m, hfollows', (hnext.trans hm).trans (le_max_left _ _)⟩
    · obtain ⟨n, hn, rfl⟩ := Option.map_eq_some_iff.mp hstep
      obtain rfl := Option.some.inj hn
      exact ⟨_, hfollows.crash hok.length_le (hrestart.trans hnext),
        hnext.trans (le_max_left _ _)⟩

/-- The node that applies a log once, without a crash. -/
def straight (cfg : Config) (entries : List Entry) : Node :=
  entries.foldl (fun n e => (Replication.apply n e).node) (.new cfg)

theorem follows_straight (L : CommittedLog cfg) {k : ℕ} (hk : k ≤ L.entries.length) :
    Follows L 0 k (straight cfg (L.entries.take k)) := by
  induction k with
  | zero => exact .new L
  | succ k ih =>
    have he := getElem?_eq_getElem hk
    have hstep := (ih (Nat.le_of_succ_le hk)).step he
    unfold straight at hstep ⊢
    rw [take_add_one, he, foldl_append]
    exact hstep

theorem Follows.data_eq (h : Follows L m₀ L.entries.length n) :
    Data.ofNode n = L.after L.entries.length := by
  have hlen : L.entries.length ≤ max m₀ L.entries.length := le_max_right _ _
  rcases h.reached with hdata | ⟨e, he, -⟩
  · rw [hdata]
    unfold CommittedLog.after Data.after
    rw [take_of_length_le hlen, take_length]
  · rw [getElem?_eq_none hlen] at he
    cases he

/-- Restart replay is exactly-once when no crash loses a record from before the append it
interrupts: a replica that has come to the end of the log has the partition counts and the records
that applying the log once gives. -/
theorem replay_exactly_once (L : CommittedLog cfg) {as : List ReplicaAction} {s : Replica}
    (hrun : Run (Replica.step L.entries) KeepsRecords (.new cfg) as s)
    (hdone : s.pos = L.entries.length) :
    ∀ t, (Data.ofNode s.node).count t = (Data.ofNode (straight cfg L.entries)).count t ∧
      ∀ i, (Data.ofNode s.node).log t i = (Data.ofNode (straight cfg L.entries)).log t i := by
  have hok : s.Ok L :=
    hrun.invariant ⟨0, .new L, le_rfl⟩ fun _ _ _ hkeeps h hstep => h.step hkeeps hstep
  obtain ⟨m₀, hfollows, -⟩ := hok
  rw [hdone] at hfollows
  have hstraight := (follows_straight L le_rfl).data_eq
  rw [take_length] at hstraight
  rw [hfollows.data_eq, hstraight]
  exact fun t => ⟨rfl, fun i => rfl⟩

end Replay

/-- A topic `a` with two partitions, two publishes with one key, and a publish to `b`. -/
def retriedPublish : List Entry :=
  [⟨1, { kind := .createTopic, topic := [97], partitions := 2 }⟩,
    ⟨2, { kind := .publish, topic := [97], partition := 1, dedupeKey := [107], payload := [1] }⟩,
    ⟨3, { kind := .publish, topic := [97], partition := 1, dedupeKey := [107], payload := [1] }⟩,
    ⟨5, { kind := .publish, topic := [98], payload := [2] }⟩]

/-- `retriedPublish` as a committed log: it has too few entries to fill a dedupe index. -/
def retriedPublishLog : CommittedLog ⟨8, 1, 4, 0⟩ where
  entries := retriedPublish
  kinds := by decide
  ascending := by decide
  positive := by decide
  keys_fit t _ _ i _ := by
    have hcard : (keysSeen retriedPublish t i).card ≤ retriedPublish.length := by
      refine (toFinset_card_le _).trans ?_
      rw [length_map]
      exact length_filter_le _ _
    exact hcard.trans (by decide)

/-- A crash inside the append of the first record that loses it, one inside the same append that
keeps it, and one after the duplicate, each with a replay of the whole log. -/
def threeCrashes : List ReplicaAction :=
  [.apply, .crash true (fun _ _ => 0) 0, .apply, .crash true (fun _ _ => 1) 0, .apply, .apply,
    .apply, .crash false (fun _ _ => 1) 0, .apply, .apply, .apply, .apply]

/-- The log with its three crashes ends as the log without them. -/
theorem replay_exactly_once_threeCrashes :
    ∃ s, Run (Replica.step retriedPublish) KeepsRecords (.new ⟨8, 1, 4, 0⟩) threeCrashes s ∧
      (((Data.ofNode s.node).log [97] 1).map (·.raftIndex) = [2] ∧
        ((Data.ofNode s.node).log [98] 0).map (·.raftIndex) = [5]) ∧
      ∀ t, (Data.ofNode s.node).count t =
          (Data.ofNode (straight ⟨8, 1, 4, 0⟩ retriedPublish)).count t ∧
        ∀ i, (Data.ofNode s.node).log t i =
          (Data.ofNode (straight ⟨8, 1, 4, 0⟩ retriedPublish)).log t i := by
  refine exists_run_of_exec (P := fun s => s.pos = 4 ∧
    ((Data.ofNode s.node).log [97] 1).map (·.raftIndex) = [2] ∧
    ((Data.ofNode s.node).log [98] 0).map (·.raftIndex) = [5]) (by decide +kernel) ?_
  rintro s hrun ⟨hpos, hlogs⟩
  exact ⟨hlogs, replay_exactly_once retriedPublishLog hrun hpos⟩

/-- One publish to each of the topics `a` and `b`. -/
def twoTopics : List Entry :=
  [⟨1, { kind := .publish, topic := [97], payload := [1] }⟩,
    ⟨2, { kind := .publish, topic := [98], payload := [2] }⟩]

/-- The process dies inside the first append, after the write and before the sync. The record is
recovered, so that its entry is skipped, but never synced; the second append syncs the log of `b`
alone. The machine then dies and takes the record with it. The mark is that of `b`, and the entry
is skipped again. -/
theorem recovered_record_lost :
    ∃ s, Run (Replica.step twoTopics) (fun _ _ => True) (.new ⟨8, 1, 4, 0⟩)
        [.crash true (fun _ _ => 1) 0, .apply, .apply, .crash false (fun _ _ => 0) 0,
          .apply, .apply] s ∧
      s.pos = twoTopics.length ∧
      (Data.ofNode s.node).log [97] 0 = [] ∧
      ((Data.ofNode (straight ⟨8, 1, 4, 0⟩ twoTopics)).log [97] 0).map (·.payload) = [[1]] := by
  decide +kernel

end ToyMQ.Replication
