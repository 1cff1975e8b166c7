import ToyMQ.Replication.Replay
import ToyMQ.Replication.Shape

/-!
# Skipping after failed appends

A publish whose append fails returns the error, and raft goes on to the next entry. A broker that is
opened again skips the publishes at or below the highest raft index that it has recovered, a single
number for all partitions: once a later entry has left a record anywhere, the failed one is below it
and never written.

`skip_sound`: if after a failed append no record is written until the next restart, and crashes keep
the records whose appends succeeded, then a skipped publish has its record in the recovered logs or
was a duplicate or rejected; and a broker that comes to the end of the log without a failure has
every publish. `skip_unsound` is one failed append with a successful one after it.
-/

namespace ToyMQ.Replication

open Lib Broker List Option
open Wal (Record)

/-! ## The call of `Append` -/

/-- The partition and the record of the call of `Append` that applying an entry makes; nothing when
there is none, or when it fails whatever the disk does. -/
def appendOf (n : Node) (e : Entry) : Option (Partition × Record) :=
  if e.env.kind = .publish ∧ ¬ (e.index ≠ 0 ∧ e.index ≤ n.appliedHighWater) then
    match (n.partitionAt e.env.topic e.env.partition).2 with
    | .error _ => none
    | .ok p =>
      match (DedupeIndex.find p.dedupe e.env.dedupeKey).1 with
      | some _ => none
      | none =>
        let rec' := p.nextRecord e.env.tsNs e.env.visibleAtNs e.index e.env.dedupeKey e.env.payload
        if Wal.Fits rec' then some (p, rec') else none
  else none

/-- What a publish that is not skipped is answered. -/
inductive Answer where
  | appended
  | duplicate
  | rejected
deriving DecidableEq, Repr

/-- The answer of `ApplyPublish`, when no append fails; nothing for an entry that is skipped or is
no publish. -/
def answerOf (n : Node) (e : Entry) : Option Answer :=
  if e.env.kind = .publish ∧ ¬ (e.index ≠ 0 ∧ e.index ≤ n.appliedHighWater) then
    match (apply n e).outcome with
    | some (.ok (some res)) => some (if res.dup then .duplicate else .appended)
    | some (.ok none) => none
    | some (.error _) => some .rejected
    | none => none
  else none

/-- What a failed append leaves in the file. -/
inductive Fault where
  /-- Nothing: the rotation failed, or the write before its first byte. -/
  | clean
  /-- A part of the frame. -/
  | torn
  /-- The whole frame, which could not be synced. The log counts the record as written. -/
  | unsynced
deriving DecidableEq, Repr

/-- `ApplyPublish` when its call of `Append` fails: the dedupe index does not learn the key. -/
def failAppend (n : Node) (e : Entry) (fault : Fault) : Option Node :=
  (appendOf n e).map fun a =>
    (n.getOrCreateTopic e.env.topic).1.setPartition e.env.topic e.env.partition.toNat
      (match fault with
        | .clean | .torn => a.1
        | .unsynced => { a.1 with log := a.1.log ++ [a.2] })

section

variable {n : Node} {e : Entry} {p : Partition} {r : Record}

/-- What a publish that appends does, and where. -/
theorem of_appendOf (h : appendOf n e = some (p, r)) :
    (n.getOrCreateTopic e.env.topic).1.partition? e.env.topic e.env.partition.toNat = some p ∧
      r.raftIndex = e.index ∧ answerOf n e = some .appended ∧
      (apply n e).node =
        (n.getOrCreateTopic e.env.topic).1.setPartition e.env.topic e.env.partition.toNat
          { p with log := p.log ++ [r], dedupe := p.dedupe.note e.env.dedupeKey r.msgID } := by
  unfold appendOf at h
  split_ifs at h with hpub
  cases hp : (n.partitionAt e.env.topic e.env.partition).2 with
  | error => simp [hp] at h
  | ok q =>
    rw [hp] at h
    dsimp only at h
    rcases hfind : DedupeIndex.find q.dedupe e.env.dedupeKey with ⟨_ | id, d⟩
    · rw [hfind] at h
      simp only [ite_none_right_eq_some, Option.some.injEq, Prod.mk.injEq] at h
      obtain ⟨hfits, rfl, hr⟩ := h
      -- The node opens the topic first, and then appends to the partition it has found.
      have hresult : n.applyPublish e.env.topic e.env.partition e.env.tsNs e.env.visibleAtNs
          e.index e.env.dedupeKey e.env.payload =
            ((n.getOrCreateTopic e.env.topic).1.setPartition e.env.topic e.env.partition.toNat
              { q with
                log := q.log ++ [r], dedupe := DedupeIndex.note q.dedupe e.env.dedupeKey r.msgID },
              .ok ⟨r.msgID, false⟩) := by
        rw [Node.applyPublish_of_ok hpub.2 hp]
        unfold Partition.applyPublish
        rw [hfind]
        rw [if_pos hfits, hr]
      refine ⟨Node.partitionAt_ok hp, hr ▸ rfl, ?_, ?_⟩
      · unfold answerOf apply
        rw [if_pos hpub]
        simp only [hpub.1, hresult]
        rfl
      · unfold apply
        simp only [hpub.1, hresult]
    · simp [hfind] at h

theorem of_appendOf_eq_none (h : appendOf n e = none) (hkind : e.env.kind = .publish)
    (hskip : ¬ Skipped n e) :
    (Data.ofNode (apply n e).node).log = (Data.ofNode n).log ∧
      (answerOf n e = some .duplicate ∨ answerOf n e = some .rejected) := by
  have hnew : ¬ (e.index ≠ 0 ∧ e.index ≤ n.appliedHighWater) := fun hle => hskip ⟨hkind, hle⟩
  have hopen := (OpensOnly.getOrCreateTopic n e.env.topic).log
  unfold appendOf at h
  rw [if_pos ⟨hkind, hnew⟩] at h
  unfold answerOf
  rw [if_pos ⟨hkind, hnew⟩]
  unfold apply
  simp only [hkind]
  cases hp : (n.partitionAt e.env.topic e.env.partition).2 with
  | error =>
    rw [Node.applyPublish_of_error hnew hp]
    exact ⟨hopen, .inr rfl⟩
  | ok p =>
    have hread := Node.partitionAt_ok hp
    rw [hp] at h
    rw [Node.applyPublish_of_ok hnew hp]
    dsimp only at h ⊢
    unfold Partition.applyPublish
    rcases hfind : DedupeIndex.find p.dedupe e.env.dedupeKey with ⟨_ | id, d⟩
    · rw [hfind] at h
      simp only [ite_eq_right_iff, reduceCtorEq, imp_false] at h
      rw [if_neg h]
      exact ⟨(OpensOnly.setPartition hread rfl).log.trans hopen, .inr rfl⟩
    · refine ⟨(OpensOnly.setPartition hread ?_).log.trans hopen, .inl rfl⟩
      rfl

theorem answerOf_ne_appended (h : appendOf n e = none) : answerOf n e ≠ some .appended := by
  by_cases hnew : e.env.kind = .publish ∧ ¬ (e.index ≠ 0 ∧ e.index ≤ n.appliedHighWater)
  · have hskip : ¬ Skipped n e := fun hs => hnew.2 hs.2
    rcases (of_appendOf_eq_none h hnew.1 hskip).2 with hdup | hrej
    · simp [hdup]
    · simp [hrej]
  · rw [answerOf, if_neg hnew]
    exact fun heq => nomatch heq

theorem log_of_appendOf_eq_none (h : appendOf n e = none) :
    (Data.ofNode (apply n e).node).log = (Data.ofNode n).log := by
  cases hkind : e.env.kind with
  | publish =>
    by_cases hskip : Skipped n e
    · rw [apply_of_skipped hskip]
    · exact (of_appendOf_eq_none h hkind hskip).1
  | ack =>
    exact ((OpensOnly.getOrCreateTopic n _).trans (.of_settle (.inl hkind))).log
  | nack =>
    exact ((OpensOnly.getOrCreateTopic n _).trans (.of_settle (.inr hkind))).log
  | createTopic =>
    unfold apply
    simp only [hkind]
    rw [ofNode_createTopicLocal, Data.log_openTopic]

/-- Applying an entry does not move the mark. -/
theorem mark_apply (n : Node) (e : Entry) :
    (apply n e).node.appliedHighWater = n.appliedHighWater := by
  cases hkind : e.env.kind with
  | publish => exact appliedHighWater_apply (.inl hkind)
  | createTopic => exact appliedHighWater_apply (.inr hkind)
  | ack =>
    exact ((OpensOnly.getOrCreateTopic n _).trans (.of_settle (.inl hkind))).appliedHighWater
  | nack =>
    exact ((OpensOnly.getOrCreateTopic n _).trans (.of_settle (.inr hkind))).appliedHighWater

/-- The logs after a record was added to one of them. -/
def addRecord (logs : Bytes → ℕ → List Record) (e : Entry) (r : Record) :
    Bytes → ℕ → List Record := fun t i =>
  if t = e.env.topic ∧ i = e.env.partition.toNat then logs t i ++ [r] else logs t i

theorem log_setPartition_append (h : appendOf n e = some (p, r)) {p' : Partition}
    (hlog : p'.log = p.log ++ [r]) :
    (Data.ofNode ((n.getOrCreateTopic e.env.topic).1.setPartition e.env.topic
      e.env.partition.toNat p')).log = addRecord (Data.ofNode n).log e r := by
  obtain ⟨hread, -⟩ := of_appendOf h
  have hopen := (OpensOnly.getOrCreateTopic n e.env.topic).log
  have hp : (Data.ofNode (n.getOrCreateTopic e.env.topic).1).log e.env.topic
      e.env.partition.toNat = p.log := by simp [Data.ofNode, hread]
  rw [ofNode_setPartition hread]
  funext t i
  unfold Data.setLog addRecord
  dsimp only
  rw [hlog, ← hp, hopen]
  split_ifs with hat
  · rw [hat.1, hat.2]
  · rfl

/-- A publish that appends adds its record. -/
theorem log_of_appendOf (h : appendOf n e = some (p, r)) :
    (Data.ofNode (apply n e).node).log = addRecord (Data.ofNode n).log e r := by
  obtain ⟨-, -, -, hnode⟩ := of_appendOf h
  rw [hnode]
  exact log_setPartition_append h rfl

theorem log_failAppend {n' : Node} {fault : Fault} (h : failAppend n e fault = some n') :
    ∃ p r, appendOf n e = some (p, r) ∧ n'.appliedHighWater = n.appliedHighWater ∧
      (Data.ofNode n').log =
        if fault = .unsynced then addRecord (Data.ofNode n).log e r else (Data.ofNode n).log := by
  obtain ⟨⟨p, r⟩, hap, rfl⟩ := map_eq_some_iff.mp h
  obtain ⟨hread, -⟩ := of_appendOf hap
  have hopen := OpensOnly.getOrCreateTopic n e.env.topic
  refine ⟨p, r, hap, ?_, ?_⟩
  · exact (hopen.toOpens.trans (.setPartition _ _ _ _)).appliedHighWater
  · cases fault with
    | clean | torn => exact (hopen.trans (.setPartition hread rfl)).log
    | unsynced => exact log_setPartition_append hap rfl

end

/-! ## The system -/

/-- A committed log, whose entries raft has numbered upwards. -/
structure RaftLog where
  entries : List Entry
  ascending : entries.Pairwise fun a b => a.index < b.index

/-- A broker that applies a committed log, and whose appends may fail. -/
structure FaultyReplica where
  node : Node
  /-- How many records of each log are known to have been synced. -/
  synced : Bytes → ℕ → ℕ
  /-- How many records of a log lie before the part of a frame that a failed write has left. -/
  tear : Bytes → ℕ → Option ℕ
  /-- The number of the entry to apply. -/
  pos : ℕ
  /-- How many records of each log were recovered or appended with success. -/
  acked : Bytes → ℕ → ℕ
  /-- The logs when the broker was last opened. -/
  recovered : Bytes → ℕ → List Record
  /-- Whether an append has failed since then. -/
  failed : Bool
  /-- What each publish was answered the first time that it was applied without an I/O error. -/
  first : ℕ → Option Answer

/-- What happens to the replica. -/
inductive FaultyAction where
  | loc (a : LocalAction)
  /-- The next entry is applied, and no append fails. -/
  | apply
  /-- The next entry is applied, and its append fails. -/
  | fail (fault : Fault)
  /-- A crash between two entries or inside the append of the next one, which keeps `cut` records
  of each log or those that were synced, and a restart. -/
  | crash (inAppend : Bool) (cut : Bytes → ℕ → ℕ)

namespace FaultyReplica

/-- A replica on an empty directory. -/
def new (cfg : Config) : FaultyReplica :=
  ⟨.new cfg, fun _ _ => 0, fun _ _ => none, 0, fun _ _ => 0, fun _ _ => [], false, fun _ => none⟩

def log (s : FaultyReplica) : Bytes → ℕ → List Record := (Data.ofNode s.node).log

/-- How many records of a log a crash leaves. Recovery ends at a frame that is not whole. -/
def keep (s : FaultyReplica) (cut : Bytes → ℕ → ℕ) (t : Bytes) (i : ℕ) : ℕ :=
  match s.tear t i with
  | none => max (s.synced t i) (cut t i)
  | some k => min k (max (s.synced t i) (cut t i))

/-- The number of records of each log that a successful append extends, and `f` where it does
not. -/
def grown (n n' : Node) (f : Bytes → ℕ → ℕ) (t : Bytes) (i : ℕ) : ℕ :=
  if (Data.ofNode n').log t i = (Data.ofNode n).log t i then f t i
  else ((Data.ofNode n').log t i).length

/-- The tears after a write that has left a part of a frame at the end of a log. -/
def tearAt (s : FaultyReplica) (e : Entry) (t : Bytes) (i : ℕ) : Option ℕ :=
  if t = e.env.topic ∧ i = e.env.partition.toNat then (s.tear t i).or (some (s.log t i).length)
  else s.tear t i

/-- The node that a crash finds: inside the append of the next entry, its record may be in the
file. -/
def dying (entries : List Entry) (s : FaultyReplica) (inAppend : Bool) : Option Node :=
  if inAppend then entries[s.pos]?.map fun e => (Replication.apply s.node e).node else some s.node

/-- The replica opened again on what a crash has left. Raft applies the log from its start. -/
def restart (s : FaultyReplica) (n : Node) (cut : Bytes → ℕ → ℕ) : FaultyReplica :=
  let opened := n.reopen (s.keep cut)
  { node := opened
    synced := fun t i => min (s.synced t i) ((Data.ofNode opened).log t i).length
    tear := fun _ _ => none
    pos := 0
    acked := fun t i => ((Data.ofNode opened).log t i).length
    recovered := (Data.ofNode opened).log
    failed := false
    first := s.first }

/-- The replica after the next entry, when no append has failed. An append that succeeds has synced
its log. -/
def applied (s : FaultyReplica) (e : Entry) : FaultyReplica :=
  let n := (Replication.apply s.node e).node
  { s with
    node := n
    synced := grown s.node n s.synced
    acked := grown s.node n s.acked
    pos := s.pos + 1
    first := fun j => if j = s.pos then (s.first j).or (answerOf s.node e) else s.first j }

def step (entries : List Entry) (s : FaultyReplica) : FaultyAction → Option FaultyReplica
  | .loc a => (localStep s.node a).map fun n => { s with node := n }
  | .apply =>
    entries[s.pos]?.bind fun e =>
      if (Replication.apply s.node e).outcome.isSome then some (s.applied e) else none
  | .fail fault =>
    entries[s.pos]?.bind fun e =>
      (failAppend s.node e fault).map fun n =>
        { s with
          node := n
          tear := if fault = .torn then s.tearAt e else s.tear
          pos := s.pos + 1
          failed := true }
  | .crash inAppend cut => (s.dying entries inAppend).map fun n => s.restart n cut

/-- Applying the next entry writes a record. -/
def Writes (entries : List Entry) (s : FaultyReplica) : Prop :=
  (entries[s.pos]?.bind fun e => appendOf s.node e).isSome

instance (entries : List Entry) (s : FaultyReplica) : Decidable (s.Writes entries) :=
  inferInstanceAs (Decidable (_ = true))

/-- After a failed append no record is written until the next restart, and a crash keeps the records
that were recovered or appended with success. -/
def FailStop (entries : List Entry) (s : FaultyReplica) : FaultyAction → Prop
  | .loc _ => True
  | .apply => s.Writes entries → s.failed = false
  | .fail fault => fault = .unsynced → s.failed = false
  | .crash inAppend cut =>
    (inAppend = true → s.Writes entries → s.failed = false) ∧
      ∀ t ∈ s.node.topics.keys, ∀ i < ((Data.ofNode s.node).count t).getD 0,
        s.acked t i ≤ s.keep cut t i

instance (entries : List Entry) (s : FaultyReplica) : DecidablePred (s.FailStop entries) := fun a =>
  match a with
  | .loc _ => isTrue trivial
  | .apply => inferInstanceAs (Decidable (_ → _))
  | .fail _ => inferInstanceAs (Decidable (_ → _))
  | .crash _ _ => inferInstanceAs (Decidable ((_ → _ → _) ∧ ∀ t ∈ s.node.topics.keys, _))

end FaultyReplica

/-! ## The invariant -/

def Present (logs : Bytes → ℕ → List Record) (index : UInt64) : Prop :=
  ∃ t i, ∃ r ∈ logs t i, r.raftIndex = index

def Settled (entries : List Entry) (logs : Bytes → ℕ → List Record) (first : ℕ → Option Answer)
    (j : ℕ) : Prop :=
  ∀ e, entries[j]? = some e → e.env.kind = .publish →
    Present logs e.index ∨ first j = some .duplicate ∨ first j = some .rejected

variable {logs logs' : Bytes → ℕ → List Record} {index : UInt64}

theorem Present.mono (h : Present logs index) (hlogs : ∀ t i, logs t i ⊆ logs' t i) :
    Present logs' index := by
  obtain ⟨t, i, r, hr, hidx⟩ := h
  exact ⟨t, i, r, hlogs t i hr, hidx⟩

theorem Settled.mono {entries : List Entry} {first first' : ℕ → Option Answer} {j : ℕ}
    (h : Settled entries logs first j) (hlogs : ∀ t i, logs t i ⊆ logs' t i)
    (hfirst : ∀ j a, first j = some a → first' j = some a) : Settled entries logs' first' j := by
  intro e he hkind
  rcases h e he hkind with hpresent | hdup | hrej
  · exact .inl (hpresent.mono hlogs)
  · exact .inr (.inl (hfirst j _ hdup))
  · exact .inr (.inr (hfirst j _ hrej))

namespace FaultyReplica

/-- The records that were recovered or appended with success. -/
def solid (s : FaultyReplica) (t : Bytes) (i : ℕ) : List Record := (s.log t i).take (s.acked t i)

/-- Every record comes from an entry before which all publishes are settled, so that the mark does
not pass over one that is not. -/
structure Sound (L : RaftLog) (s : FaultyReplica) : Prop where
  origin : ∀ t i, ∀ r ∈ s.log t i, ∃ k e, L.entries[k]? = some e ∧ r.raftIndex = e.index ∧
    ∀ j < k, Settled L.entries s.solid s.first j
  appended : ∀ j e, L.entries[j]? = some e → s.first j = some .appended → Present s.solid e.index
  clean : s.failed = false → ∀ j < s.pos, Settled L.entries s.solid s.first j
  mark : s.node.appliedHighWater = 0 ∨ Present s.recovered s.node.appliedHighWater
  closed : ∀ t i, ∀ r ∈ s.recovered t i, ∃ k e, L.entries[k]? = some e ∧
    r.raftIndex = e.index ∧ ∀ j ≤ k, Settled L.entries s.recovered s.first j
  kept : ∀ t i, s.recovered t i ⊆ s.solid t i

variable {L : RaftLog} {s s' : FaultyReplica} {e : Entry}

theorem sound_new (L : RaftLog) (cfg : Config) : Sound L (.new cfg) where
  origin t i r hr := by simp [log, new, Node.new, Data.ofNode, Node.partition?] at hr
  appended j e he hj := nomatch hj
  clean _ j hj := absurd hj (Nat.not_lt_zero j)
  mark := .inl rfl
  closed t i r hr := absurd hr not_mem_nil
  kept t i := nil_subset _

theorem Sound.settled_of_skipped (h : Sound L s) (he : L.entries[s.pos]? = some e)
    (hskip : Skipped s.node e) : Settled L.entries s.recovered s.first s.pos := by
  obtain ⟨-, hne, hle⟩ := hskip
  rcases h.mark with hzero | ⟨t, i, r, hr, hidx⟩
  · rw [hzero] at hle
    exact absurd (UInt64.le_zero_iff.mp hle) hne
  · obtain ⟨k, e', he', hidx', hsettled⟩ := h.closed t i r hr
    refine hsettled s.pos (Nat.le_of_not_lt fun hlt => ?_)
    -- An entry after that of the mark has a higher index.
    obtain ⟨hk, rfl⟩ := List.getElem?_eq_some_iff.mp he'
    obtain ⟨hpos, rfl⟩ := List.getElem?_eq_some_iff.mp he
    have hasc := pairwise_iff_getElem.mp L.ascending k s.pos hk hpos hlt
    rw [← hidx, hidx'] at hle
    exact UInt64.not_lt.mpr hle hasc

/-- What a step within a life has to show: solid records stay, answers stay, and a record is written
only for the next entry and while no append has failed. -/
theorem Sound.extend (h : Sound L s) (hsolid : ∀ t i, s.solid t i ⊆ s'.solid t i)
    (hfirst : ∀ j a, s.first j = some a → s'.first j = some a)
    (hrecovered : s'.recovered = s.recovered)
    (hmark : s'.node.appliedHighWater = s.node.appliedHighWater)
    (hlog : ∀ t i, ∀ r ∈ s'.log t i, r ∈ s.log t i ∨
      s.failed = false ∧ ∃ e, L.entries[s.pos]? = some e ∧ r.raftIndex = e.index)
    (happended : ∀ j e, L.entries[j]? = some e → s'.first j = some .appended →
      s.first j = some .appended ∨ Present s'.solid e.index)
    (hclean : s'.failed = false → s.failed = false ∧ ∀ j < s'.pos, j < s.pos ∨
      Settled L.entries s'.solid s'.first j) : Sound L s' where
  origin t i r hr := by
    rcases hlog t i r hr with hold | ⟨hok, e, he, hidx⟩
    · obtain ⟨k, e, he, hidx, hsettled⟩ := h.origin t i r hold
      exact ⟨k, e, he, hidx, fun j hj => (hsettled j hj).mono hsolid hfirst⟩
    · exact ⟨s.pos, e, he, hidx, fun j hj => (h.clean hok j hj).mono hsolid hfirst⟩
  appended j e he hj := by
    rcases happended j e he hj with hold | hnew
    · exact (h.appended j e he hold).mono hsolid
    · exact hnew
  clean hok j hj := by
    obtain ⟨hold, hpos⟩ := hclean hok
    rcases hpos j hj with hlt | hnew
    · exact (h.clean hold j hlt).mono hsolid hfirst
    · exact hnew
  mark := by
    rw [hmark, hrecovered]
    exact h.mark
  closed t i r hr := by
    rw [hrecovered] at hr ⊢
    obtain ⟨k, e, he, hidx, hsettled⟩ := h.closed t i r hr
    exact ⟨k, e, he, hidx, fun j hj => (hsettled j hj).mono (fun _ _ => List.Subset.refl _) hfirst⟩
  kept t i := by
    rw [hrecovered]
    exact List.Subset.trans (h.kept t i) (hsolid t i)

/-! ## Steps -/

variable {n : Node} {r : Record} {inAppend : Bool}

theorem Sound.loc (h : Sound L s) {a : LocalAction} (hn : localStep s.node a = some n) :
    Sound L { s with node := n } := by
  have hopens := OpensOnly.lasting.of_localStep hn
  have hlog : log { s with node := n } = s.log := hopens.log
  have hsolid : solid { s with node := n } = s.solid := by
    funext t i
    unfold solid
    rw [hlog]
  refine h.extend (fun t i => ?_) (fun _ _ hj => hj) rfl hopens.appliedHighWater ?_ ?_ ?_
  · rw [hsolid]
    exact List.Subset.refl _
  · intro t i r hr
    rw [hlog] at hr
    exact .inl hr
  · exact fun j e he hj => .inl hj
  · exact fun hok => ⟨hok, fun j hj => .inl hj⟩

/-- Where a log has grown, all of it is solid. -/
theorem solid_subset_applied (s : FaultyReplica) (e : Entry)
    (hlog : ∀ t i, s.log t i ⊆ (s.applied e).log t i) (t : Bytes) (i : ℕ) :
    s.solid t i ⊆ (s.applied e).solid t i := by
  by_cases hsame : (s.applied e).log t i = s.log t i
  · have hacked : (s.applied e).acked t i = s.acked t i := if_pos hsame
    rw [solid, solid, hacked, hsame]
    exact List.Subset.refl _
  · have hacked : (s.applied e).acked t i = ((s.applied e).log t i).length := if_neg hsame
    rw [solid, solid, hacked, take_length]
    exact List.Subset.trans (take_subset _ _) (hlog t i)

/-- An answer is recorded once. -/
theorem first_applied (s : FaultyReplica) (e : Entry) (j : ℕ) (a : Answer)
    (h : s.first j = some a) : (s.applied e).first j = some a := by
  unfold applied
  dsimp only
  split_ifs
  · rw [h, some_or]
  · exact h

theorem subset_addRecord (logs : Bytes → ℕ → List Record) (e : Entry) (r : Record) (t : Bytes)
    (i : ℕ) : logs t i ⊆ addRecord logs e r t i := by
  unfold addRecord
  split_ifs
  · exact subset_append_left _ _
  · exact List.Subset.refl _

theorem mem_addRecord {logs : Bytes → ℕ → List Record} {e : Entry} {r' : Record} {t : Bytes} {i : ℕ}
    (h : r' ∈ addRecord logs e r t i) : r' ∈ logs t i ∨ r' = r := by
  unfold addRecord at h
  split_ifs at h
  · simpa using h
  · exact .inl h

/-- The next entry is applied and appends nothing. -/
theorem Sound.applied_of_none (h : Sound L s) (he : L.entries[s.pos]? = some e)
    (hap : appendOf s.node e = none) : Sound L (s.applied e) := by
  have hlog : (s.applied e).log = s.log := log_of_appendOf_eq_none hap
  have hsolid := solid_subset_applied s e fun t i => hlog ▸ List.Subset.refl _
  refine h.extend hsolid (first_applied s e) rfl (mark_apply s.node e) ?_ ?_ ?_
  · intro t i r hr
    rw [hlog] at hr
    exact .inl hr
  · intro j e' he' hj
    unfold applied at hj
    dsimp only at hj
    split_ifs at hj
    · rcases or_eq_some_iff.mp hj with hold | ⟨-, hnew⟩
      · exact .inl hold
      · exact absurd hnew (answerOf_ne_appended hap)
    · exact .inl hj
  · refine fun hclean => ⟨hclean, fun j hj => ?_⟩
    rcases Nat.lt_succ_iff_lt_or_eq.mp hj with hlt | rfl
    · exact .inl hlt
    -- The entry itself: it was skipped, or answered now if not before.
    refine .inr fun e' he' hkind => ?_
    obtain rfl := Option.some.inj (he.symm.trans he')
    by_cases hskip : Skipped s.node e
    · exact ((h.settled_of_skipped he hskip).mono
        (fun t i => List.Subset.trans (h.kept t i) (hsolid t i)) (first_applied s e)) e he hkind
    · have hanswer := (of_appendOf_eq_none hap hkind hskip).2
      cases hold : s.first s.pos with
      | none =>
        have hfirst : (s.applied e).first s.pos = answerOf s.node e := by
          simp [applied, hold]
        rw [hfirst]
        exact .inr hanswer
      | some a =>
        have hfirst := first_applied s e s.pos a hold
        cases a with
        | appended => exact .inl ((h.appended s.pos e he hold).mono hsolid)
        | duplicate => exact .inr (.inl hfirst)
        | rejected => exact .inr (.inr hfirst)

theorem Sound.applied_of_some (h : Sound L s) (he : L.entries[s.pos]? = some e) {p : Partition}
    (hap : appendOf s.node e = some (p, r)) (hclean : s.failed = false) :
    Sound L (s.applied e) := by
  have hlog : (s.applied e).log = addRecord s.log e r := log_of_appendOf hap
  have hidx : r.raftIndex = e.index := (of_appendOf hap).2.1
  have hsolid := solid_subset_applied s e fun t i => hlog ▸ subset_addRecord s.log e r t i
  -- The log of the partition has grown, and all of it is solid.
  have hnew : Present (s.applied e).solid e.index := by
    refine ⟨e.env.topic, e.env.partition.toNat, r, ?_, hidx⟩
    have hgrown : (s.applied e).log e.env.topic e.env.partition.toNat =
        s.log e.env.topic e.env.partition.toNat ++ [r] := by
      rw [hlog, addRecord, if_pos ⟨rfl, rfl⟩]
    have hne : (s.applied e).log e.env.topic e.env.partition.toNat ≠
        s.log e.env.topic e.env.partition.toNat := by
      rw [hgrown]
      exact fun heq => absurd (congrArg List.length heq) (by simp)
    have hacked : (s.applied e).acked e.env.topic e.env.partition.toNat =
        ((s.applied e).log e.env.topic e.env.partition.toNat).length := if_neg hne
    rw [solid, hacked, take_length, hgrown]
    simp
  refine h.extend hsolid (first_applied s e) rfl (mark_apply s.node e) ?_ ?_ ?_
  · intro t i r' hr
    rw [hlog] at hr
    rcases mem_addRecord hr with hold | rfl
    · exact .inl hold
    · exact .inr ⟨hclean, e, he, hidx⟩
  · intro j e' he' hj
    by_cases hpos : j = s.pos
    · subst hpos
      obtain rfl := Option.some.inj (he.symm.trans he')
      exact .inr hnew
    · unfold applied at hj
      dsimp only at hj
      rw [if_neg hpos] at hj
      exact .inl hj
  · refine fun _ => ⟨hclean, fun j hj => ?_⟩
    rcases Nat.lt_succ_iff_lt_or_eq.mp hj with hlt | rfl
    · exact .inl hlt
    · refine .inr fun e' he' _ => ?_
      obtain rfl := Option.some.inj (he.symm.trans he')
      exact .inl hnew

/-- The append of the next entry fails. -/
theorem Sound.fail (h : Sound L s) (he : L.entries[s.pos]? = some e) {fault : Fault}
    (hok : s.FailStop L.entries (.fail fault)) (hn : failAppend s.node e fault = some n)
    (tear : Bytes → ℕ → Option ℕ) :
    Sound L { s with node := n, tear := tear, pos := s.pos + 1, failed := true } := by
  obtain ⟨p, r, hap, hmark, hlog⟩ := log_failAppend hn
  have hidx : r.raftIndex = e.index := (of_appendOf hap).2.1
  refine h.extend (fun t i => ?_) (fun _ _ hj => hj) rfl hmark ?_ (fun j e _ hj => .inl hj)
    (fun hclean => nomatch hclean)
  · unfold solid log
    rw [hlog]
    split_ifs
    · unfold addRecord
      split_ifs
      · rw [take_append]
        exact subset_append_left _ _
      · exact List.Subset.refl _
    · exact List.Subset.refl _
  · intro t i r' hr
    unfold log at hr
    rw [hlog] at hr
    split_ifs at hr with hfault
    · rcases mem_addRecord hr with hold | rfl
      · exact .inl hold
      · exact .inr ⟨hok hfault, e, he, hidx⟩
    · exact .inl hr

theorem mem_log_dying {cut : Bytes → ℕ → ℕ} (hok : s.FailStop L.entries (.crash inAppend cut))
    (hn : s.dying L.entries inAppend = some n) :
    (∀ t i, s.log t i <+: (Data.ofNode n).log t i) ∧
      ∀ t i, ∀ r ∈ (Data.ofNode n).log t i, r ∈ s.log t i ∨
        s.failed = false ∧ ∃ e, L.entries[s.pos]? = some e ∧ r.raftIndex = e.index := by
  unfold dying at hn
  split_ifs at hn with hin
  · obtain ⟨e, he, rfl⟩ := map_eq_some_iff.mp hn
    cases hap : appendOf s.node e with
    | none =>
      have hlog : (Data.ofNode (Replication.apply s.node e).node).log = s.log :=
        log_of_appendOf_eq_none hap
      rw [hlog]
      exact ⟨fun t i => prefix_rfl, fun t i r hr => .inl hr⟩
    | some a =>
      obtain ⟨p, r⟩ := a
      have hlog : (Data.ofNode (Replication.apply s.node e).node).log = addRecord s.log e r :=
        log_of_appendOf hap
      have hclean : s.failed = false := hok.1 hin (by simp [Writes, he, hap])
      rw [hlog]
      refine ⟨fun t i => ?_, fun t i r' hr => ?_⟩
      · unfold addRecord
        split_ifs
        · exact prefix_append _ _
        · exact prefix_rfl
      · rcases mem_addRecord hr with hold | rfl
        · exact .inl hold
        · exact .inr ⟨hclean, e, he, (of_appendOf hap).2.1⟩
  · obtain rfl := Option.some.inj hn
    exact ⟨fun t i => prefix_rfl, fun t i r hr => .inl hr⟩

/-- A crash that keeps the solid records leaves a replica whose logs are all solid. -/
theorem Sound.crash (h : Sound L s) {cut : Bytes → ℕ → ℕ}
    (hok : s.FailStop L.entries (.crash inAppend cut)) (hn : s.dying L.entries inAppend = some n) :
    Sound L (s.restart n cut) := by
  obtain ⟨hgrows, hmem⟩ := mem_log_dying hok hn
  have hlog : (s.restart n cut).log = fun t i => ((Data.ofNode n).log t i).take (s.keep cut t i) :=
    congrArg Data.log (ofNode_reopen n (s.keep cut))
  have hall : (s.restart n cut).solid = (s.restart n cut).log := by
    funext t i
    exact take_length
  -- What was solid is still there.
  have hsolid : ∀ t i, s.solid t i ⊆ (s.restart n cut).log t i := by
    intro t i r hr
    obtain ⟨hkey, hi⟩ := mem_keys_of_mem_log (mem_of_mem_take hr)
    have hkeep : s.acked t i ≤ s.keep cut t i := hok.2 t hkey i hi
    rw [hlog]
    exact ((hgrows t i).take _).subset (take_subset_take_left _ hkeep hr)
  have hmono : ∀ j, Settled L.entries s.solid s.first j →
      Settled L.entries (s.restart n cut).log (s.restart n cut).first j :=
    fun j hj => hj.mono hsolid fun _ _ ha => ha
  have horigin : ∀ t i, ∀ r ∈ (s.restart n cut).log t i, ∃ k e, L.entries[k]? = some e ∧
      r.raftIndex = e.index ∧ ∀ j < k,
        Settled L.entries (s.restart n cut).log (s.restart n cut).first j := by
    intro t i r hr
    rw [hlog] at hr
    rcases hmem t i r (mem_of_mem_take hr) with hold | ⟨hclean, e, he, hidx⟩
    · obtain ⟨k, e, he, hidx, hsettled⟩ := h.origin t i r hold
      exact ⟨k, e, he, hidx, fun j hj => hmono j (hsettled j hj)⟩
    · exact ⟨s.pos, e, he, hidx, fun j hj => hmono j (h.clean hclean j hj)⟩
  refine ⟨?_, ?_, fun _ j hj => absurd hj (Nat.not_lt_zero j), ?_, ?_, ?_⟩
  · rw [hall]
    exact horigin
  · intro j e he hj
    rw [hall]
    exact (h.appended j e he hj).mono hsolid
  · exact (mark_reopen n (s.keep cut)).attained
  · intro t i r hr
    obtain ⟨k, e, he, hidx, hsettled⟩ := horigin t i r hr
    refine ⟨k, e, he, hidx, fun j hj => ?_⟩
    rcases Nat.lt_or_eq_of_le hj with hlt | rfl
    · exact hsettled j hlt
    · -- The entry of the record itself.
      intro e' he' _
      obtain rfl := Option.some.inj (he.symm.trans he')
      exact .inl ⟨t, i, r, hr, hidx⟩
  · intro t i
    rw [hall]
    exact List.Subset.refl _

theorem Sound.of_step {a : FaultyAction} (hok : s.FailStop L.entries a) (h : Sound L s)
    (hstep : s.step L.entries a = some s') : Sound L s' := by
  cases a with
  | loc =>
    obtain ⟨n, hn, rfl⟩ := map_eq_some_iff.mp hstep
    exact h.loc hn
  | apply =>
    obtain ⟨e, he, hrest⟩ := bind_eq_some_iff.mp hstep
    simp only [ite_none_right_eq_some, Option.some.injEq] at hrest
    obtain ⟨-, rfl⟩ := hrest
    cases hap : appendOf s.node e with
    | none => exact h.applied_of_none he hap
    | some => exact h.applied_of_some he hap (hok (by simp [Writes, he, hap]))
  | fail =>
    obtain ⟨e, he, hrest⟩ := bind_eq_some_iff.mp hstep
    obtain ⟨n, hn, rfl⟩ := map_eq_some_iff.mp hrest
    exact h.fail he hok hn _
  | crash =>
    obtain ⟨n, hn, rfl⟩ := map_eq_some_iff.mp hstep
    exact h.crash hok hn

end FaultyReplica

/-- Over any lives of a replica in which no record is written after a failed append before the next
restart, and whose crashes keep the records that were appended with success or recovered: a publish
that is skipped has its record in the recovered logs or was answered as a duplicate or rejected, and
once the end of the log is reached in a life without a failure, every publish of the log has its
record or was answered so. -/
theorem skip_sound (L : RaftLog) {cfg : Config} {as : List FaultyAction} {s : FaultyReplica}
    (hrun : Run (FaultyReplica.step L.entries) (FaultyReplica.FailStop L.entries) (.new cfg) as s) :
    (∀ e, L.entries[s.pos]? = some e → Skipped s.node e →
        Present s.recovered e.index ∨
          s.first s.pos = some .duplicate ∨ s.first s.pos = some .rejected) ∧
      (s.failed = false → s.pos = L.entries.length → ∀ j e, L.entries[j]? = some e →
        e.env.kind = .publish →
          Present s.log e.index ∨ s.first j = some .duplicate ∨ s.first j = some .rejected) := by
  have hsound : s.Sound L :=
    hrun.invariant (FaultyReplica.sound_new L cfg) fun _ _ _ hok h hstep => h.of_step hok hstep
  constructor
  · exact fun e he hskip => hsound.settled_of_skipped he hskip e he hskip.1
  · intro hclean hpos j e he hkind
    have hlt : j < s.pos := hpos ▸ (List.getElem?_eq_some_iff.mp he).1
    have hsettled : Settled L.entries s.log s.first j :=
      (hsound.clean hclean j hlt).mono (fun t i => take_subset _ _) fun _ _ ha => ha
    exact hsettled e he hkind

/-- `twoTopics` as a committed log. -/
def twoTopicsLog : RaftLog := ⟨twoTopics, by decide⟩

/-- The write of the first publish fails half-way and the broker is restarted. Both publishes are
then applied, and skipped after another restart. -/
def failThenRestart : List FaultyAction :=
  [.fail .torn, .crash false fun _ _ => 0, .apply, .apply, .crash false fun _ _ => 1]

/-- Restarting after the failed append, the broker writes the record of the first publish, and may
skip it later. -/
theorem skip_sound_failThenRestart :
    ∃ s, Run (FaultyReplica.step twoTopics) (FaultyReplica.FailStop twoTopics)
        (.new ⟨8, 1, 4, 0⟩) failThenRestart s ∧
      (s.pos, s.node.appliedHighWater, (s.recovered [97] 0).map (·.raftIndex)) = (0, 2, [1]) ∧
      (∀ e, twoTopics[s.pos]? = some e → Skipped s.node e →
          Present s.recovered e.index ∨
            s.first s.pos = some .duplicate ∨ s.first s.pos = some .rejected) ∧
        (s.failed = false → s.pos = twoTopics.length → ∀ j e, twoTopics[j]? = some e →
          e.env.kind = .publish →
            Present s.log e.index ∨ s.first j = some .duplicate ∨ s.first j = some .rejected) := by
  exact exists_run_of_exec (by decide +kernel) fun _ hrun h => ⟨h, skip_sound twoTopicsLog hrun⟩

theorem not_present {n : Node} {indexes : List UInt64}
    (h : (allRecords n.topics).map (·.raftIndex) = indexes) (hnot : index ∉ indexes) :
    ¬ Present (Data.ofNode n).log index := by
  rintro ⟨t, i, r, hr, hidx⟩
  apply hnot
  rw [← h, List.mem_map]
  exact ⟨r, mem_allRecords.mpr ⟨t, i, hr⟩, hidx⟩

/-- The append of the first publish fails and leaves nothing, and that of the second succeeds. After
a restart that keeps everything the first is below the mark: it is skipped, though it has no record
and was never answered, and at the end of the log it still has none. -/
theorem skip_unsound :
    ∃ s s', Run (FaultyReplica.step twoTopics) (fun _ _ => True) (.new ⟨8, 1, 4, 0⟩)
        [.fail .clean, .apply, .crash false fun _ _ => 1] s ∧
      (∃ e, twoTopics[s.pos]? = some e ∧ e.index = 1 ∧ Skipped s.node e) ∧
      ¬ Present s.recovered 1 ∧ s.first 0 = none ∧
      Run (FaultyReplica.step twoTopics) (fun _ _ => True) s [.apply, .apply] s' ∧
      s'.failed = false ∧ s'.pos = twoTopics.length ∧ ¬ Present s'.log 1 := by
  obtain ⟨s₀, hs₀, hnext, hrecords, hfirst, s', hs', hclean, hpos, hrecords'⟩ :
      ∃ s₀, Run (FaultyReplica.step twoTopics) (fun _ _ => True) (.new ⟨8, 1, 4, 0⟩)
          [.fail .clean, .apply] s₀ ∧
        let s := s₀.restart s₀.node fun _ _ => 1
        (∃ e, twoTopics[s.pos]? = some e ∧ e.index = 1 ∧ Skipped s.node e) ∧
        (allRecords s.node.topics).map (·.raftIndex) = [2] ∧ s.first 0 = none ∧
        ∃ s', Run (FaultyReplica.step twoTopics) (fun _ _ => True) s [.apply, .apply] s' ∧
          s'.failed = false ∧ s'.pos = twoTopics.length ∧
          (allRecords s'.node.topics).map (·.raftIndex) = [2] := by
    decide +kernel
  refine ⟨s₀.restart s₀.node fun _ _ => 1, s', hs₀.trans (.single trivial rfl), hnext, ?_, hfirst,
    hs', hclean, hpos, ?_⟩
  · exact not_present hrecords (by decide)
  · exact not_present hrecords' (by decide)

end ToyMQ.Replication
