import ToyMQ.Replication.Replay

/-!
# The dedupe index across a restart

A broker that is opened rebuilds the dedupe index of a partition by noting the keys of its records
in their order. The live index has seen more than that: a duplicate leaves no record, but its lookup
puts off the eviction of its key. The two hold the same keys as long as each eviction drops the key
that was published first (`EvictsOldest`), as the rebuilt index always does (`descending_rebuild`).

`dedupe_survives_restart` shows that the rebuilt indexes then hold what the live ones did, and that
replicas which apply the same entries answer them alike, wherever each of them restarts.
`bumped_key_forgotten` is a run in which a duplicate saves its key from the eviction.
-/

namespace ToyMQ.Replication

open Lib Broker List Option
open Wal (Record)

/-! ## The rebuilt index -/

/-- Rebuilt keys are in the order of their ids. -/
theorem descending_rebuild (cap : ℕ) {log : List Record} (hnum : Wal.Numbered 0 log) :
    (rebuild cap log).Descending UInt64.toNat ∧
      ∀ x ∈ (rebuild cap log).order.entries, x.2.toNat < log.length := by
  induction log using List.reverseRecOn with
  | nil => exact ⟨.nil, nofun⟩
  | append_singleton log rec ih =>
    obtain ⟨hfront, hid, -⟩ := Wal.numbered_append.mp hnum
    obtain ⟨hdesc, hlt⟩ := ih hfront
    rw [Nat.zero_add] at hid
    rw [rebuild_snoc, length_append, length_singleton]
    unfold DedupeIndex.note
    split_ifs
    · refine ⟨hdesc.insert _ fun x hx => hid ▸ hlt x hx, fun x hx => ?_⟩
      rcases mem_cons.mp ((Lru.entries_insert_sublist _ _ _).subset hx) with rfl | hx
      · exact hid ▸ Nat.lt_succ_self _
      · exact (hlt x hx).trans (Nat.lt_succ_self _)
    · exact ⟨hdesc, fun x hx => (hlt x hx).trans (Nat.lt_succ_self _)⟩

/-! ## A partition and its index -/

/-- A partition whose index holds what recovery would rebuild from its log. -/
structure Mirrors (cap : ℕ) (p : Partition) : Prop where
  numbered : Wal.Numbered 0 p.log
  contents : Lru.SameContents p.dedupe (rebuild cap p.log)

theorem mirrors_openPartition (cfg : Config) : Mirrors cfg.dedupeCap cfg.openPartition :=
  ⟨trivial, rfl, fun _ => rfl⟩

variable {cfg : Config} {p : Partition}

theorem Mirrors.reopen (h : Mirrors cfg.dedupeCap p) (k : ℕ) :
    Mirrors cfg.dedupeCap (p.reopen cfg k) := by
  have hsplit : Wal.Numbered 0 (p.log.take k ++ p.log.drop k) := by
    rw [take_append_drop]
    exact h.numbered
  exact ⟨(Wal.numbered_append.mp hsplit).1, rfl, fun _ => rfl⟩

/-- Ids are left, and a new key that the full index has no room for takes the place of the entry
with the lowest id. -/
def EvictsLowest (p : Partition) (key : Bytes) : Prop :=
  p.log.length < 2 ^ 64 ∧
    (key ≠ [] → p.dedupe.get? key = none → p.dedupe.cap ≤ p.dedupe.order.entries.length →
      ∀ last ∈ p.dedupe.oldest?, ∀ x ∈ p.dedupe.order.entries, last.2.toNat ≤ x.2.toNat)

/-- Publishing keeps the index what recovery would rebuild. -/
theorem Mirrors.applyPublish {cap : ℕ} (h : Mirrors cap p) {key : Bytes} (hold : EvictsLowest p key)
    (tsNs visibleAtNs raftIndex : UInt64) (payload : Bytes) :
    Mirrors cap (p.applyPublish tsNs visibleAtNs raftIndex key payload).1 := by
  rcases p.applyPublish_cases tsNs visibleAtNs raftIndex key payload with
    ⟨id, -, -, heq⟩ | ⟨hnew, hres⟩
  · rw [heq]
    exact ⟨h.numbered, (Lru.cap_lookup _ _).trans h.contents.cap,
      fun j => (Lru.get?_lookup _ _ j).trans (h.contents.get j)⟩
  · dsimp only at hres
    split_ifs at hres
    · rw [hres]
      have hid : (UInt64.ofNat p.log.length).toNat = p.log.length :=
        UInt64.toNat_ofNat_of_lt hold.1
      refine ⟨Wal.numbered_append.mpr ⟨h.numbered, hid.trans (Nat.zero_add _).symm, trivial⟩, ?_⟩
      rw [rebuild_snoc]
      change Lru.SameContents (DedupeIndex.note p.dedupe key _)
        (DedupeIndex.note (rebuild cap p.log) key _)
      unfold DedupeIndex.note
      split_ifs with hkey
      · -- The rebuilt index is in the order of the ids, so that its oldest entry is the lowest.
        refine h.contents.insert (fun hnone hfull => ?_) _
        exact (descending_rebuild cap h.numbered).1.oldest?_eq h.contents
          (hold.2 hkey hnone hfull)
      · exact h.contents
    · rw [hres]
      exact h

/-- Same log, same index contents: same answer. -/
theorem applyPublish_congr {p' : Partition} (hlog : p.log = p'.log)
    (hdedupe : Lru.SameContents p.dedupe p'.dedupe) (tsNs visibleAtNs raftIndex : UInt64)
    (key payload : Bytes) :
    let r := p.applyPublish tsNs visibleAtNs raftIndex key payload
    let r' := p'.applyPublish tsNs visibleAtNs raftIndex key payload
    r.2 = r'.2 ∧ r.1.log = r'.1.log := by
  have hrec : p.nextRecord tsNs visibleAtNs raftIndex key payload =
      p'.nextRecord tsNs visibleAtNs raftIndex key payload := by
    rw [Partition.nextRecord, hlog, Partition.nextRecord]
  rcases p.applyPublish_cases tsNs visibleAtNs raftIndex key payload with
    ⟨id, hkey, hget, heq⟩ | ⟨hnew, hres⟩
  · rcases p'.applyPublish_cases tsNs visibleAtNs raftIndex key payload with
      ⟨id', -, hget', heq'⟩ | ⟨hnew', -⟩
    · have hid : id = id' := Option.some.inj (hget.symm.trans ((hdedupe.get key).trans hget'))
      rw [heq, heq', hid]
      exact ⟨rfl, hlog⟩
    · -- A key that one index holds is held by the other.
      have hnone := hnew'.resolve_left hkey
      exact nomatch hget.symm.trans ((hdedupe.get key).trans hnone)
  · rcases p'.applyPublish_cases tsNs visibleAtNs raftIndex key payload with
      ⟨id', hkey', hget', -⟩ | ⟨-, hres'⟩
    · have hnone := hnew.resolve_left hkey'
      exact nomatch hget'.symm.trans ((hdedupe.get key).symm.trans hnone)
    · dsimp only at hres hres'
      rw [hrec] at hres
      split_ifs at hres hres'
      · rw [hres, hres', hlog]
        exact ⟨rfl, rfl⟩
      · rw [hres, hres']
        exact ⟨rfl, hlog⟩

/-! ## What a node answers -/

/-- `openPartition` on a directory that holds the log. -/
def openedOn (cfg : Config) (log : List Record) : Partition :=
  ⟨log, rebuild cfg.dedupeCap log, ∅, cfg.recvWindow⟩

/-- The data after a publish or a creation, and its outcome, where the dedupe index is the one that
recovery would rebuild. An ack or a nack is not decided by the data. -/
def Data.answer (cfg : Config) (d : Data) (e : Entry) :
    Data × Option (Except BrokerError (Option ApplyResult)) :=
  match e.env.kind with
  | .publish =>
    let d := d.openTopic cfg e.env.topic 0
    let i := e.env.partition.toNat
    let count := (d.count e.env.topic).getD 0
    if 0 ≤ e.env.partition ∧ i < count then
      let r := (openedOn cfg (d.log e.env.topic i)).applyPublish e.env.tsNs e.env.visibleAtNs
        e.index e.env.dedupeKey e.env.payload
      (d.setLog e.env.topic i r.1.log, some (r.2.map some))
    else (d, some (.error (.partitionRange e.env.partition count)))
  | .createTopic =>
    (d.openTopic cfg e.env.topic e.env.partitions,
      match d.count e.env.topic with
      | some count =>
        if (count : ℤ) ≠ e.env.partitions then
          some (.error (.topicExists count e.env.partitions))
        else some (.ok none)
      | none => some (.ok none))
  | .ack | .nack => (d, none)

/-- A node on which recovery would rebuild every index as it is. -/
structure Faithful (cfg : Config) (n : Node) : Prop where
  config_eq : n.config = cfg
  mirrors : n.Each fun _ _ p => Mirrors cfg.dedupeCap p

structure EvictsOldest (n : Node) (e : Entry) : Prop where
  kind : e.env.kind = .publish ∨ e.env.kind = .createTopic
  fresh : ¬ Skipped n e
  lowest : ∀ p ∈ (n.partitionAt e.env.topic e.env.partition).2.toOption,
    EvictsLowest p e.env.dedupeKey

section

variable {cfg : Config} {n : Node} {e : Entry}

theorem Faithful.openPartition (h : Faithful cfg n) :
    Mirrors cfg.dedupeCap n.config.openPartition :=
  h.config_eq ▸ mirrors_openPartition cfg

theorem Faithful.getOrCreateTopic (h : Faithful cfg n) (topic : Bytes) :
    Faithful cfg (n.getOrCreateTopic topic).1 :=
  ⟨(n.config_getOrCreateTopic topic).trans h.config_eq,
    h.mirrors.getOrCreateTopic fun _ => h.openPartition⟩

/-- A partition out of range is refused with the range. -/
theorem at_eq_error {t : Topic} {partition : ℤ} {err : BrokerError}
    (h : t.at partition = .error err) :
    ¬ (0 ≤ partition ∧ partition.toNat < t.partitions.length) ∧
      err = .partitionRange partition t.partitions.length := by
  unfold Topic.at at h
  split_ifs at h with hneg
  · exact ⟨fun hin => Int.not_lt.mpr hin.1 hneg, (Except.error.inj h).symm⟩
  · split at h
    next hnone =>
      exact ⟨fun hin => Nat.not_le.mpr hin.2 (List.getElem?_eq_none_iff.mp hnone),
        (Except.error.inj h).symm⟩
    next => cases h

/-- A node answers a publish from its data. -/
theorem answer_of_publish (h : Faithful cfg n) (hev : EvictsOldest n e)
    (hkind : e.env.kind = .publish) :
    (Data.ofNode (apply n e).node, (apply n e).outcome) = (Data.ofNode n).answer cfg e ∧
      Faithful cfg (apply n e).node := by
  have hnew : ¬ (e.index ≠ 0 ∧ e.index ≤ n.appliedHighWater) := fun hle => hev.fresh ⟨hkind, hle⟩
  have hopen : Data.ofNode (n.getOrCreateTopic e.env.topic).1 =
      (Data.ofNode n).openTopic cfg e.env.topic 0 := by
    rw [ofNode_getOrCreateTopic, h.config_eq]
  have hfaith := h.getOrCreateTopic e.env.topic
  have hcount : (Data.ofNode (n.getOrCreateTopic e.env.topic).1).count e.env.topic =
      some (n.getOrCreateTopic e.env.topic).2.partitions.length := by
    simp [Data.ofNode, n.lookup_getOrCreateTopic]
  unfold apply Data.answer
  simp only [hkind]
  rw [← hopen, hcount, getD_some]
  cases hp : (n.partitionAt e.env.topic e.env.partition).2 with
  | error =>
    obtain ⟨hout, rfl⟩ := at_eq_error hp
    rw [Node.applyPublish_of_error hnew hp, if_neg hout]
    exact ⟨rfl, hfaith⟩
  | ok p =>
    obtain ⟨hpos, hget⟩ := Topic.at_eq_ok_iff.mp hp
    have hread := Node.partitionAt_ok hp
    have hlog : (Data.ofNode (n.getOrCreateTopic e.env.topic).1).log e.env.topic
        e.env.partition.toNat = p.log := by
      simp [Data.ofNode, hread]
    have hmirrors : Mirrors cfg.dedupeCap p := hfaith.mirrors _ _ p hread
    -- The partition answers as one that recovery has opened on the same log.
    have hsame : p.log = (openedOn cfg p.log).log := rfl
    obtain ⟨hanswer, hlog'⟩ := applyPublish_congr hsame hmirrors.contents e.env.tsNs
      e.env.visibleAtNs e.index e.env.dedupeKey e.env.payload
    rw [Node.applyPublish_of_ok hnew hp, if_pos ⟨hpos, (List.getElem?_eq_some_iff.mp hget).1⟩,
      hlog]
    rw [ofNode_setPartition hread, ← hanswer, ← hlog']
    refine ⟨rfl, (Node.config_setPartition _ _ _ _).trans hfaith.config_eq, ?_⟩
    refine hfaith.mirrors.setPartition hread (hmirrors.applyPublish ?_ _ _ _ _)
    exact hev.lowest p (by rw [hp]; rfl)

/-- A node answers a creation from its data. -/
theorem answer_of_createTopic (h : Faithful cfg n) (hkind : e.env.kind = .createTopic) :
    (Data.ofNode (apply n e).node, (apply n e).outcome) = (Data.ofNode n).answer cfg e ∧
      Faithful cfg (apply n e).node := by
  have hdata := ofNode_createTopicLocal n e.env.topic e.env.partitions
  rw [h.config_eq] at hdata
  unfold apply Data.answer
  simp only [hkind]
  rw [hdata]
  refine ⟨Prod.ext rfl ?_, (n.config_createTopicLocal _ _).trans h.config_eq,
    h.mirrors.createTopicLocal (fun _ => h.openPartition) _⟩
  unfold Node.createTopicLocal Data.ofNode
  dsimp only
  cases n.topics.lookup e.env.topic with
  | none => rfl
  | some =>
    dsimp only [map_some]
    split_ifs <;> rfl

theorem answer_of_apply (h : Faithful cfg n) (hev : EvictsOldest n e) :
    (Data.ofNode (apply n e).node, (apply n e).outcome) = (Data.ofNode n).answer cfg e ∧
      Faithful cfg (apply n e).node :=
  hev.kind.elim (answer_of_publish h hev) (answer_of_createTopic h)

end

/-! ## Replicas that restart -/

/-- A node with what it answered to the entries that it applied. -/
structure Observed where
  node : Node
  outcomes : List (Option (Except BrokerError (Option ApplyResult)))

/-- What happens to a replica. -/
inductive ObservedEvent where
  | entry (e : Entry)
  | restart

/-- A restart that loses no record. -/
def restarted (n : Node) : Node := n.reopen fun t i => ((Data.ofNode n).log t i).length

namespace Observed

/-- A replica with an empty disk. -/
def new (cfg : Config) : Observed := ⟨.new cfg, []⟩

def step (r : Observed) : ObservedEvent → Option Observed
  | .entry e => some ⟨(apply r.node e).node, r.outcomes ++ [(apply r.node e).outcome]⟩
  | .restart => some { r with node := restarted r.node }

/-- Every entry that the replica applies evicts the lowest id if it evicts. -/
def OldestFirst (r : Observed) : ObservedEvent → Prop
  | .entry e => EvictsOldest r.node e
  | .restart => True

end Observed

/-- The entries that a replica applied. -/
def entriesOf (evs : List ObservedEvent) : List Entry :=
  evs.filterMap fun
    | .entry e => some e
    | .restart => none

theorem ofNode_restarted (n : Node) : Data.ofNode (restarted n) = Data.ofNode n := by
  rw [restarted, ofNode_reopen]
  unfold Data.cut
  simp only [take_length]

variable {n : Node}

theorem partition?_restarted {t : Bytes} {i : ℕ} (h : n.partition? t i = some p) :
    (restarted n).partition? t i = some (openedOn n.config p.log) := by
  have hlog : (Data.ofNode n).log t i = p.log := by simp [Data.ofNode, h]
  rw [restarted, n.partition?_reopen, h, map_some, Partition.reopen, hlog, take_length]
  rfl

theorem Faithful.restarted (h : Faithful cfg n) : Faithful cfg (restarted n) := by
  refine ⟨h.config_eq, fun t i q hq => ?_⟩
  rw [Replication.restarted, n.partition?_reopen] at hq
  obtain ⟨p, hp, rfl⟩ := map_eq_some_iff.mp hq
  rw [h.config_eq]
  exact (h.mirrors t i p hp).reopen _

/-- The data and the answers after one more entry. -/
def Data.observe (cfg : Config)
    (s : Data × List (Option (Except BrokerError (Option ApplyResult)))) (e : Entry) :
    Data × List (Option (Except BrokerError (Option ApplyResult))) :=
  ((s.1.answer cfg e).1, s.2 ++ [(s.1.answer cfg e).2])

/-- Data and answers follow from the entries alone. -/
theorem observe_of_run {evs : List ObservedEvent} {r r' : Observed}
    (hrun : Run Observed.step Observed.OldestFirst r evs r') (h : Faithful cfg r.node) :
    Faithful cfg r'.node ∧
      (Data.ofNode r'.node, r'.outcomes) =
        (entriesOf evs).foldl (Data.observe cfg) (Data.ofNode r.node, r.outcomes) := by
  -- An entry is answered from the data, and a restart changes neither data nor answers.
  induction hrun with
  | nil r => exact ⟨h, rfl⟩
  | @cons r _ _ ev _ hok hstep _ ih =>
    cases ev with
    | entry e =>
      cases hstep
      obtain ⟨hanswer, hfaith⟩ := answer_of_apply h hok
      obtain ⟨hfaith', heq⟩ := ih hfaith
      refine ⟨hfaith', heq.trans ?_⟩
      change _ = List.foldl _ (Data.observe cfg (Data.ofNode r.node, r.outcomes) e) _
      rw [Data.observe, ← hanswer]
      rfl
    | restart =>
      cases hstep
      obtain ⟨hfaith', heq⟩ := ih h.restarted
      refine ⟨hfaith', heq.trans ?_⟩
      rw [ofNode_restarted]
      rfl

/-- As long as every eviction drops the lowest id, a restart rebuilds the indexes as they were, and
replicas that apply the same entries answer them alike, wherever each of them restarts. -/
theorem dedupe_survives_restart (cfg : Config) {evs evs' : List ObservedEvent} {r r' : Observed}
    (hrun : Run Observed.step Observed.OldestFirst (.new cfg) evs r)
    (hrun' : Run Observed.step Observed.OldestFirst (.new cfg) evs' r')
    (hsame : entriesOf evs = entriesOf evs') :
    (∀ t i p, r.node.partition? t i = some p →
      ∃ q, (restarted r.node).partition? t i = some q ∧ q.log = p.log ∧
        ∀ key, q.dedupe.get? key = p.dedupe.get? key) ∧
    r.outcomes = r'.outcomes := by
  have hnew : Faithful cfg (Observed.new cfg).node := ⟨rfl, nofun⟩
  obtain ⟨hfaith, heq⟩ := observe_of_run hrun hnew
  obtain ⟨-, heq'⟩ := observe_of_run hrun' hnew
  refine ⟨fun t i p hp => ⟨_, partition?_restarted hp, rfl, fun key => ?_⟩, ?_⟩
  · have hget := (hfaith.mirrors t i p hp).contents.get key
    rw [hget, hfaith.config_eq]
    rfl
  · rw [hsame, ← heq'] at heq
    exact congrArg Prod.snd heq

/-! ### Two runs -/

instance (p : Partition) (key : Bytes) : Decidable (EvictsLowest p key) :=
  inferInstanceAs (Decidable (_ ∧ (_ → _ → _ → ∀ last ∈ p.dedupe.oldest?, _)))

instance (n : Node) (e : Entry) : Decidable (EvictsOldest n e) :=
  decidable_of_iff ((e.env.kind = .publish ∨ e.env.kind = .createTopic) ∧ ¬ Skipped n e ∧
      ∀ p ∈ (n.partitionAt e.env.topic e.env.partition).2.toOption,
        EvictsLowest p e.env.dedupeKey)
    ⟨fun h => ⟨h.1, h.2.1, h.2.2⟩, fun h => ⟨h.kind, h.fresh, h.lowest⟩⟩

instance (r : Observed) : DecidablePred r.OldestFirst
  | .entry e => inferInstanceAs (Decidable (EvictsOldest r.node e))
  | .restart => isTrue trivial

/-- A broker whose indexes hold two keys. -/
def twoKeys : Config := ⟨2, 1, 10, 0⟩

/-- The publish of a message with a dedupe key, to the only partition of a topic. -/
def keyed (index : UInt64) (key : UInt8) : Entry :=
  ⟨index, { kind := .publish, topic := [116], dedupeKey := [key] }⟩

/-- What is told of a publish to a partition. -/
def told (msgID : UInt64) (dup : Bool) : Option (Except BrokerError (Option ApplyResult)) :=
  some (.ok (some ⟨msgID, dup⟩))

/-- Three keys, where the second is published twice and the first is the one that is evicted. -/
def latestTwice : List Entry := [keyed 1 97, keyed 2 98, keyed 3 98, keyed 4 99]

/-- Three keys, where the first is published twice and the second is the one that is evicted. -/
def earliestTwice : List Entry := [keyed 1 97, keyed 2 98, keyed 3 97, keyed 4 99]

/-- The entries, with or without a restart, and more entries. -/
def withRestart (before : List Entry) (restart : Bool) (after : List Entry) :
    List ObservedEvent :=
  before.map .entry ++ (if restart then [.restart] else []) ++ after.map .entry

theorem dedupe_survives_restart_latestTwice :
    ∃ r r', Run Observed.step Observed.OldestFirst (.new twoKeys)
        (withRestart latestTwice false [keyed 5 97, keyed 6 99]) r ∧
      Run Observed.step Observed.OldestFirst (.new twoKeys)
        (withRestart latestTwice true [keyed 5 97, keyed 6 99]) r' ∧
      r.outcomes = [told 0 false, told 1 false, told 1 true, told 2 false, told 3 false,
        told 2 true] ∧
      r.outcomes = r'.outcomes := by
  obtain ⟨r, hr, hout⟩ :
      ∃ r, Run Observed.step Observed.OldestFirst (.new twoKeys)
          (withRestart latestTwice false [keyed 5 97, keyed 6 99]) r ∧
        r.outcomes = [told 0 false, told 1 false, told 1 true, told 2 false, told 3 false,
          told 2 true] := by
    decide +kernel
  obtain ⟨r', hr'⟩ := isSome_iff_exists.mp (show (exec Observed.step Observed.OldestFirst
    (.new twoKeys) (withRestart latestTwice true [keyed 5 97, keyed 6 99])).isSome by
      decide +kernel)
  exact ⟨r, r', hr, run_of_exec hr', hout,
    (dedupe_survives_restart twoKeys hr (run_of_exec hr') rfl).2⟩

/-- What is told of one more entry after those that publish the first key twice. -/
def toldLater (restart : Bool) (e : Entry) :
    Option (List (Option (Except BrokerError (Option ApplyResult)))) :=
  (exec Observed.step (fun _ _ => True) (.new twoKeys)
    (withRestart earliestTwice restart [e])).map fun r => r.outcomes.drop 4

/-- The ids that the index has for the three keys after these entries. -/
def idsLater (restart : Bool) : Option (List (Option UInt64)) :=
  (exec Observed.step (fun _ _ => True) (.new twoKeys)
    (withRestart earliestTwice restart [])).bind fun r =>
      (r.node.partition? [116] 0).map fun p => [[97], [98], [99]].map p.dedupe.get?

/-- A duplicate of the first of two keys has the second evicted when a third one comes. A restart
rebuilds the index without the first and with the second, so that after it a retry of the first is
stored once more, and one of the second is taken for a duplicate. -/
theorem bumped_key_forgotten :
    idsLater false = some [some 0, none, some 2] ∧ idsLater true = some [none, some 1, some 2] ∧
    toldLater false (keyed 5 97) = some [told 0 true] ∧
    toldLater true (keyed 5 97) = some [told 3 false] ∧
    toldLater false (keyed 5 98) = some [told 3 false] ∧
    toldLater true (keyed 5 98) = some [told 1 true] := by
  refine ⟨?_, ?_, ?_, ?_, ?_, ?_⟩ <;> decide +kernel

end ToyMQ.Replication
