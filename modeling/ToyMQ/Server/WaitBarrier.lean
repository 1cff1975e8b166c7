import ToyMQ.Replication.Shape
import ToyMQ.Server.Modes

/-!
# The replication barrier of a publish

A publish to a replicated broker may ask that a number of followers hold it before the call
returns. `PublishCtx` routes the message, proposes it and, once its entry is applied, waits until
`followerAckCount` of the entry's index is high enough, or the time is up.

`wait_never_overreports` says what a call without an error means, unless it is answered as a
duplicate: that many peers hold the entry which wrote the message whose id is returned. A duplicate
returns at once, and the call that wrote its message may have given up (`duplicate_skips_barrier`).

The invariant of the calls, `PublishPhase.Ok`, lasts because logs and the progress of the peers only
grow (`LogsGrow`, `Caught`).
-/

namespace ToyMQ.Server

open Lib Broker Replication List Option

/-! ## What the peers hold -/

/-- The `MatchIndex` of `Status`: up to which index each peer holds the log of the leader. -/
abbrev MatchIndex := AList fun _ : Bytes => UInt64

/-- `followerAckCount`. The leader is a peer of its own, and does not count. -/
def followerAckCount (nodeID : Bytes) (matchIndex : MatchIndex) (raftIndex : UInt64) : ℕ :=
  matchIndex.entries.countP fun peer => peer.1 ≠ nodeID && raftIndex ≤ peer.2

/-- At least `n` peers other than the node itself hold the entry at `index`. -/
def HeldBy (n : ℤ) (nodeID : Bytes) (matchIndex : MatchIndex) (index : UInt64) : Prop :=
  ∃ peers : Finset Bytes, n ≤ peers.card ∧
    ∀ peer ∈ peers, peer ≠ nodeID ∧ ∃ mi, matchIndex.lookup peer = some mi ∧ index ≤ mi

/-- The peers that `followerAckCount` counts. -/
def countedPeers (nodeID : Bytes) (matchIndex : MatchIndex) (raftIndex : UInt64) : List Bytes :=
  (matchIndex.entries.filter fun peer => peer.1 ≠ nodeID && raftIndex ≤ peer.2).map Sigma.fst

variable {nodeID : Bytes} {matchIndex : MatchIndex} {index : UInt64}

theorem mem_countedPeers {raftIndex : UInt64} {peer : Bytes} :
    peer ∈ countedPeers nodeID matchIndex raftIndex ↔
      peer ≠ nodeID ∧ ∃ mi, matchIndex.lookup peer = some mi ∧ raftIndex ≤ mi := by
  unfold countedPeers
  rw [List.mem_map]
  constructor
  · rintro ⟨⟨peer, mi⟩, hmem, rfl⟩
    obtain ⟨hentry, hcond⟩ := mem_filter.mp hmem
    simp only [ne_eq, Bool.and_eq_true, decide_eq_true_eq] at hcond
    exact ⟨hcond.1, mi, AList.mem_lookup_iff.mpr hentry, hcond.2⟩
  · rintro ⟨hne, mi, hlookup, hle⟩
    refine ⟨⟨peer, mi⟩, mem_filter.mpr ⟨AList.mem_lookup_iff.mp hlookup, ?_⟩, rfl⟩
    simp only [ne_eq, Bool.and_eq_true, decide_eq_true_eq]
    exact ⟨hne, hle⟩

theorem length_countedPeers (nodeID : Bytes) (matchIndex : MatchIndex) (raftIndex : UInt64) :
    (countedPeers nodeID matchIndex raftIndex).length =
      followerAckCount nodeID matchIndex raftIndex := by
  rw [countedPeers, length_map, followerAckCount, countP_eq_length_filter]

theorem nodup_countedPeers (nodeID : Bytes) (matchIndex : MatchIndex) (raftIndex : UInt64) :
    (countedPeers nodeID matchIndex raftIndex).Nodup :=
  (filter_sublist.map Sigma.fst).nodup matchIndex.nodupKeys

theorem heldBy_iff {n : ℤ} :
    HeldBy n nodeID matchIndex index ↔ n ≤ followerAckCount nodeID matchIndex index := by
  have hcard : (countedPeers nodeID matchIndex index).toFinset.card =
      followerAckCount nodeID matchIndex index := by
    rw [toFinset_card_of_nodup (nodup_countedPeers _ _ _), length_countedPeers]
  constructor
  · rintro ⟨peers, hn, hpeers⟩
    have hsub : peers ⊆ (countedPeers nodeID matchIndex index).toFinset := fun peer hpeer =>
      List.mem_toFinset.mpr (mem_countedPeers.mpr (hpeers peer hpeer))
    calc n ≤ (peers.card : ℤ) := hn
      _ ≤ ((countedPeers nodeID matchIndex index).toFinset.card : ℤ) :=
        Int.ofNat_le.mpr (Finset.card_le_card hsub)
      _ = followerAckCount nodeID matchIndex index := by rw [hcard]
  · intro hn
    refine ⟨(countedPeers nodeID matchIndex index).toFinset, ?_, fun peer hpeer => ?_⟩
    · rw [hcard]
      exact hn
    · exact mem_countedPeers.mp (List.mem_toFinset.mp hpeer)

/-- No peer has fallen back. -/
def Caught (matchIndex matchIndex' : MatchIndex) : Prop :=
  ∀ peer mi, matchIndex.lookup peer = some mi → ∃ mi', matchIndex'.lookup peer = some mi' ∧ mi ≤ mi'

theorem Caught.refl (matchIndex : MatchIndex) : Caught matchIndex matchIndex :=
  fun _ mi h => ⟨mi, h, UInt64.le_refl mi⟩

/-- What peers hold they go on to hold. -/
theorem HeldBy.mono {n : ℤ} {matchIndex' : MatchIndex} (h : HeldBy n nodeID matchIndex index)
    (hle : Caught matchIndex matchIndex') : HeldBy n nodeID matchIndex' index := by
  obtain ⟨peers, hn, hpeers⟩ := h
  refine ⟨peers, hn, fun peer hpeer => ?_⟩
  obtain ⟨hne, mi, hlookup, hmi⟩ := hpeers peer hpeer
  obtain ⟨mi', hlookup', hmi'⟩ := hle peer mi hlookup
  exact ⟨hne, mi', hlookup', UInt64.le_trans hmi hmi'⟩

/-! ## Logs only grow -/

/-- Every log of a broker goes on from what it was. -/
def LogsGrow (n n' : Node) : Prop := ∀ t i, (Data.ofNode n).log t i <+: (Data.ofNode n').log t i

theorem LogsGrow.refl (n : Node) : LogsGrow n n := fun _ _ => prefix_rfl

variable {n n' : Node}

theorem LogsGrow.trans {n'' : Node} (h : LogsGrow n n') (h' : LogsGrow n' n'') : LogsGrow n n'' :=
  fun t i => (h t i).trans (h' t i)

theorem LogsGrow.of_opensOnly (h : OpensOnly n n') : LogsGrow n n' := fun t i => by
  rw [h.log]

/-- The tail of a publish leaves what is in the log. -/
theorem prefix_applyPublish (p : Partition) (tsNs visibleAtNs raftIndex : UInt64)
    (dedupeKey payload : Bytes) :
    p.log <+: (p.applyPublish tsNs visibleAtNs raftIndex dedupeKey payload).1.log := by
  rcases p.applyPublish_cases tsNs visibleAtNs raftIndex dedupeKey payload with
    ⟨id, -, -, heq⟩ | ⟨-, heq⟩
  · rw [heq]
  · dsimp only at heq
    split_ifs at heq
    · rw [heq]
      exact prefix_append _ _
    · rw [heq]

theorem LogsGrow.applyPublish (n : Node) (topic : Bytes) (partition : ℤ)
    (tsNs visibleAtNs raftIndex : UInt64) (dedupeKey payload : Bytes) :
    LogsGrow n
      (n.applyPublish topic partition tsNs visibleAtNs raftIndex dedupeKey payload).1 := by
  have hopen : LogsGrow n (n.getOrCreateTopic topic).1 := .of_opensOnly (.getOrCreateTopic n topic)
  refine Node.applyPublish_induction (.refl n) hopen fun p hp => hopen.trans fun t i => ?_
  rw [ofNode_setPartition hp, Data.setLog]
  dsimp only
  split_ifs with hat
  · -- The log of the partition itself.
    obtain ⟨rfl, rfl⟩ := hat
    have hread : (Data.ofNode (n.getOrCreateTopic t).1).log t partition.toNat = p.log := by
      simp [Data.ofNode, hp]
    rw [hread]
    exact prefix_applyPublish p _ _ _ _ _
  · exact prefix_rfl

/-- Applying an entry removes no record. -/
theorem LogsGrow.apply (n : Node) (e : Entry) : LogsGrow n (apply n e).node := by
  cases hkind : e.env.kind with
  | publish =>
    unfold Replication.apply
    simp only [hkind]
    exact .applyPublish n _ _ _ _ _ _ _
  | ack =>
    exact (of_opensOnly (.getOrCreateTopic n _)).trans (of_opensOnly (.of_settle (.inl hkind)))
  | nack =>
    exact (of_opensOnly (.getOrCreateTopic n _)).trans (of_opensOnly (.of_settle (.inr hkind)))
  | createTopic =>
    unfold Replication.apply
    simp only [hkind]
    intro t i
    rw [ofNode_createTopicLocal, Data.log_openTopic]

/-- No step of a node removes a record. -/
theorem LogsGrow.of_step {a : Action} (h : step n a = some n') : LogsGrow n n' := by
  cases a with
  | loc => exact .of_opensOnly (OpensOnly.lasting.of_localStep h)
  | apply entry =>
    dsimp only [step] at h
    split_ifs at h
    cases h
    exact .apply n entry

/-! ## Calls on a leader -/

/-- How far a call of `PublishCtx` has got. -/
inductive PublishPhase where
  /-- The message is routed and stamped, and `Propose` is called. -/
  | proposed (partition : ℕ) (clock : UInt64)
  /-- The entry has been applied, and `Propose` is about to return. -/
  | applied (partition : ℕ) (index : UInt64) (outcome : Outcome)
  /-- It is inside `waitForReplication`. -/
  | waiting (partition : ℕ) (index msgID : UInt64)
  /-- The last count was high enough, and the call is about to return. -/
  | passed (partition : ℕ) (msgID : UInt64)
  /-- It has returned without an error. -/
  | succeeded (partition : ℕ) (r : ApplyResult)
  /-- It has returned `ErrWaitTimeout`, with the id of the message. -/
  | timedOut (partition : ℕ) (msgID : UInt64)
  /-- It has returned another error. -/
  | failed
deriving DecidableEq

/-- A call of `PublishCtx`. -/
structure PublishCall where
  command : PubCommand
  phase : PublishPhase
deriving DecidableEq

/-- A node that leads the cluster. -/
structure Leader where
  nodeID : Bytes
  node : Node
  matchIndex : MatchIndex
  /-- The index of the last entry that was applied. -/
  lastApplied : UInt64
  calls : List PublishCall

/-- A leader with no call under way. -/
def Leader.idle (nodeID : Bytes) (node : Node) (matchIndex : MatchIndex) (lastApplied : UInt64) :
    Leader :=
  ⟨nodeID, node, matchIndex, lastApplied, []⟩

/-- A step on a leader. -/
inductive LeaderAction where
  /-- `PublishCtx` is called, up to its proposal. -/
  | publish (c : PubCommand)
  /-- The entry of a call is committed at `index`, and applied. -/
  | commit (i : ℕ) (index : UInt64)
  /-- `Propose` returns an error; its entry may be committed later all the same. -/
  | refuse (i : ℕ)
  /-- `Propose` returns the outcome of the entry. -/
  | resume (i : ℕ)
  /-- The loop of `waitForReplication` counts the followers, and the count is high enough. -/
  | count (i : ℕ)
  /-- A call that was let through returns. -/
  | finish (i : ℕ)
  /-- The time of a call is up, or its context is cancelled. -/
  | timeout (i : ℕ)
  /-- A peer acknowledges the log up to `index`. -/
  | progress (peer : Bytes) (index : UInt64)
  /-- Anything else that happens on the node, the application of other entries included. -/
  | other (a : Action)

/-- The raft node wins or loses an election. -/
def isElection : LocalAction → Bool
  | .setLeader _ => true
  | _ => false

namespace Leader

def setPhase (s : Leader) (i : ℕ) (phase : PublishPhase) : Leader :=
  { s with calls := s.calls.modify i fun call => { call with phase := phase } }

/-- The start of `PublishCtx`: it opens the topic, routes the message and stamps the proposal. -/
def publish (s : Leader) (c : PubCommand) : Leader :=
  match localRoute s.node c.topic c.partition c.partitionSet c.routingKey with
  | (n, .error _) => { s with node := n, calls := s.calls ++ [⟨c, .failed⟩] }
  | (n, .ok partition) =>
    { s with node := n, calls := s.calls ++ [⟨c, .proposed partition n.clock⟩] }

/-- The entry of a call is committed and applied. Raft applies entries in the order of their
indexes, and numbers a new one above every entry that the node has stored before. A log never runs
out of ids. -/
def commit (s : Leader) (i : ℕ) (index : UInt64) (c : PubCommand) (partition : ℕ)
    (clock : UInt64) : Option Leader :=
  let log := (Data.ofNode s.node).log c.topic (int32 partition).toNat
  if s.lastApplied < index ∧ s.node.appliedHighWater < index ∧ log.length < 2 ^ 64 then
    (propose s.node index (publishEnvelope clock c partition)).map fun r =>
      { s with node := r.1, lastApplied := index }.setPhase i (.applied partition index r.2)
  else none

/-- `PublishCtx` behind its proposal. A duplicate skips the barrier. -/
def resume (s : Leader) (i : ℕ) (c : PubCommand) (partition : ℕ) (index : UInt64) :
    Outcome → Option Leader
  | .error _ => some (s.setPhase i .failed)
  | .ok none => none
  | .ok (some r) =>
    if 0 < c.waitReplicas && !r.dup then some (s.setPhase i (.waiting partition index r.msgID))
    else some (s.setPhase i (.succeeded partition r))

/-- A step. The node stays the leader, and no peer falls back. -/
def step (s : Leader) : LeaderAction → Option Leader
  | .publish c => some (s.publish c)
  | .commit i index =>
    match s.calls[i]? with
    | some ⟨c, .proposed partition clock⟩ => s.commit i index c partition clock
    | _ => none
  | .refuse i =>
    match s.calls[i]? with
    | some ⟨_, .proposed _ _⟩ => some (s.setPhase i .failed)
    | _ => none
  | .resume i =>
    match s.calls[i]? with
    | some ⟨c, .applied partition index outcome⟩ => s.resume i c partition index outcome
    | _ => none
  | .count i =>
    match s.calls[i]? with
    | some ⟨c, .waiting partition index msgID⟩ =>
      if c.waitReplicas ≤ followerAckCount s.nodeID s.matchIndex index then
        some (s.setPhase i (.passed partition msgID))
      else none
    | _ => none
  | .finish i =>
    match s.calls[i]? with
    | some ⟨_, .passed partition msgID⟩ =>
      some (s.setPhase i (.succeeded partition ⟨msgID, false⟩))
    | _ => none
  | .timeout i =>
    match s.calls[i]? with
    | some ⟨_, .waiting partition _ msgID⟩ => some (s.setPhase i (.timedOut partition msgID))
    | _ => none
  | .progress peer index =>
    if (s.matchIndex.lookup peer).all (· ≤ index) then
      some { s with matchIndex := s.matchIndex.insert peer index }
    else none
  | .other (.loc a) =>
    if isElection a then none else (localStep s.node a).map fun n => { s with node := n }
  | .other (.apply entry) =>
    if s.lastApplied < entry.index then
      (Replication.step s.node (.apply entry)).map fun n =>
        { s with node := n, lastApplied := entry.index }
    else none

end Leader

/-! ## The entry that wrote a message -/

/-- The index of the entry that wrote a message. The log numbers its records from 0, and each of
them has the index of its entry. -/
def writerIndex (n : Node) (topic : Bytes) (i : ℕ) (msgID : UInt64) : Option UInt64 :=
  (((Data.ofNode n).log topic i)[msgID.toNat]?).map Wal.Record.raftIndex

variable {topic : Bytes} {r : ApplyResult}

theorem writerIndex_of_logsGrow (h : LogsGrow n n') {i : ℕ} {msgID : UInt64}
    (hw : writerIndex n topic i msgID = some index) :
    writerIndex n' topic i msgID = some index := by
  obtain ⟨rec, hrec, rfl⟩ := map_eq_some_iff.mp hw
  obtain ⟨more, hmore⟩ := h topic i
  have hlt := (List.getElem?_eq_some_iff.mp hrec).1
  rw [writerIndex, ← hmore, getElem?_append_left hlt, hrec]
  rfl

theorem writerIndex_applyPublish {partition : ℤ} {tsNs visibleAtNs : UInt64}
    {dedupeKey payload : Bytes} (hfresh : n.appliedHighWater < index)
    (hroom : ((Data.ofNode n).log topic partition.toNat).length < 2 ^ 64)
    (h : (n.applyPublish topic partition tsNs visibleAtNs index dedupeKey payload).2 = .ok r)
    (hdup : r.dup = false) :
    writerIndex (n.applyPublish topic partition tsNs visibleAtNs index dedupeKey payload).1 topic
      partition.toNat r.msgID = some index := by
  have hnew : ¬ (index ≠ 0 ∧ index ≤ n.appliedHighWater) := fun hle =>
    UInt64.not_le.mpr hfresh hle.2
  cases hat : (n.partitionAt topic partition).2 with
  | error =>
    rw [Node.applyPublish_of_error hnew hat] at h
    cases h
  | ok p =>
    have hp := Node.partitionAt_ok hat
    have hread : (Data.ofNode (n.getOrCreateTopic topic).1).log topic partition.toNat = p.log := by
      simp [Data.ofNode, hp]
    rw [(OpensOnly.getOrCreateTopic n topic).log] at hread
    rw [hread] at hroom
    rw [Node.applyPublish_of_ok hnew hat] at h ⊢
    rcases p.applyPublish_cases tsNs visibleAtNs index dedupeKey payload with
      ⟨id, -, -, heq⟩ | ⟨-, heq⟩
    · -- A duplicate.
      rw [heq] at h
      cases h
      cases hdup
    · dsimp only at heq
      split_ifs at heq with hfits
      · -- The record is the last one of the log, and its id is its position there.
        rw [heq] at h ⊢
        cases h
        have hid : (UInt64.ofNat p.log.length).toNat = p.log.length :=
          UInt64.toNat_ofNat_of_lt' hroom
        rw [writerIndex, ofNode_setPartition hp, Data.setLog]
        dsimp only
        rw [if_pos ⟨rfl, rfl⟩, Partition.nextRecord, hid, getElem?_concat_length]
        rfl
      · rw [heq] at h
        cases h

theorem writerIndex_propose {c : PubCommand} {partition : ℕ} {clock : UInt64}
    (hfresh : n.appliedHighWater < index)
    (hroom : ((Data.ofNode n).log c.topic (int32 partition).toNat).length < 2 ^ 64)
    (h : propose n index (publishEnvelope clock c partition) = some (n', .ok (some r)))
    (hdup : r.dup = false) :
    writerIndex n' c.topic (int32 partition).toNat r.msgID = some index := by
  -- `Apply` has decoded the entry, so that it is within the size of an envelope.
  have hsend : (publishEnvelope clock c partition).Sendable := by
    refine ⟨isInt32_int32 _, isInt32_zero, ?_⟩
    by_contra hlarge
    have hrefused : decode (encode (publishEnvelope clock c partition)) = .error .tooLarge :=
      if_pos (Nat.lt_of_not_le hlarge)
    rw [propose, hrefused] at h
    cases h
  rw [propose_eq hsend] at h
  obtain ⟨outcome, houtcome, heq⟩ := map_eq_some_iff.mp h
  obtain ⟨rfl, rfl⟩ := Prod.mk.inj heq
  have hok : Except.map some (n.applyPublish c.topic (int32 partition) clock
      (visibleAt clock c.delayMs) index c.dedupeKey c.payload).2 = .ok (some r) :=
    Option.some.inj houtcome
  refine writerIndex_applyPublish hfresh hroom ?_ hdup
  cases hres : (n.applyPublish c.topic (int32 partition) clock (visibleAt clock c.delayMs) index
      c.dedupeKey c.payload).2 with
  | error e =>
    rw [hres] at hok
    cases hok
  | ok r' =>
    rw [hres] at hok
    cases hok
    exact hres

/-! ## The barrier -/

/-- As many peers as a publish asks for hold the entry that wrote the message. -/
def Replicated (nodeID : Bytes) (n : Node) (matchIndex : MatchIndex) (c : PubCommand)
    (partition : ℕ) (msgID : UInt64) : Prop :=
  ∃ index, writerIndex n c.topic (int32 partition).toNat msgID = some index ∧
    HeldBy c.waitReplicas nodeID matchIndex index

/-- What is known of a call in each of its phases. -/
def PublishPhase.Ok (nodeID : Bytes) (n : Node) (matchIndex : MatchIndex) (c : PubCommand) :
    PublishPhase → Prop
  | .applied partition index (.ok (some r)) =>
    r.dup = false → writerIndex n c.topic (int32 partition).toNat r.msgID = some index
  | .waiting partition index msgID =>
    writerIndex n c.topic (int32 partition).toNat msgID = some index
  | .passed partition msgID => Replicated nodeID n matchIndex c partition msgID
  | .succeeded partition r =>
    0 < c.waitReplicas → r.dup = false → Replicated nodeID n matchIndex c partition r.msgID
  | _ => True

section

variable {nodeID : Bytes} {n n' : Node} {matchIndex matchIndex' : MatchIndex} {c : PubCommand}

theorem Replicated.mono {partition : ℕ} {msgID : UInt64}
    (h : Replicated nodeID n matchIndex c partition msgID) (hlogs : LogsGrow n n')
    (hpeers : Caught matchIndex matchIndex') :
    Replicated nodeID n' matchIndex' c partition msgID := by
  obtain ⟨index, hwriter, hheld⟩ := h
  exact ⟨index, writerIndex_of_logsGrow hlogs hwriter, hheld.mono hpeers⟩

theorem PublishPhase.Ok.mono {phase : PublishPhase} (h : phase.Ok nodeID n matchIndex c)
    (hlogs : LogsGrow n n') (hpeers : Caught matchIndex matchIndex') :
    phase.Ok nodeID n' matchIndex' c := by
  cases phase with
  | applied partition index outcome =>
    match outcome with
    | .error _ => trivial
    | .ok none => trivial
    | .ok (some r) => exact fun hdup => writerIndex_of_logsGrow hlogs (h hdup)
  | waiting => exact writerIndex_of_logsGrow hlogs h
  | passed => exact Replicated.mono h hlogs hpeers
  | succeeded => exact fun hwait hdup => (h hwait hdup).mono hlogs hpeers
  | proposed | timedOut | failed => trivial

end

namespace Leader

/-- The invariant: every call is where its phase says. -/
def Ok (s : Leader) : Prop :=
  ∀ call ∈ s.calls, call.phase.Ok s.nodeID s.node s.matchIndex call.command

namespace Ok

variable {s s' : Leader}

/-- Logs grow and peers catch up, and no call moves. -/
theorem grow (h : s.Ok) (hcalls : s'.calls = s.calls) (hid : s'.nodeID = s.nodeID)
    (hlogs : LogsGrow s.node s'.node) (hpeers : Caught s.matchIndex s'.matchIndex) : s'.Ok := by
  intro call hcall
  rw [hcalls] at hcall
  rw [hid]
  exact (h call hcall).mono hlogs hpeers

variable {i partition : ℕ} {index : UInt64} {c : PubCommand}

/-- A call moves on. -/
theorem setPhase (h : s.Ok) {call : PublishCall} (hi : s.calls[i]? = some call)
    {phase : PublishPhase} (hphase : phase.Ok s.nodeID s.node s.matchIndex call.command) :
    (s.setPhase i phase).Ok := by
  intro call' hcall
  obtain ⟨j, hj⟩ := getElem?_of_mem hcall
  unfold Leader.setPhase at hj
  rw [getElem?_modify] at hj
  obtain ⟨old, hold, rfl⟩ := map_eq_some_iff.mp hj
  by_cases hij : i = j
  · subst hij
    obtain rfl := Option.some.inj (hold.symm.trans hi)
    rw [if_pos rfl]
    exact hphase
  · rw [if_neg hij]
    exact h old (mem_of_getElem? hold)

theorem publish (h : s.Ok) (c : PubCommand) : (s.publish c).Ok := by
  have hlogs := LogsGrow.of_opensOnly
    (OpensOnly.lasting.localRoute s.node c.topic c.partition c.partitionSet c.routingKey)
  unfold Leader.publish
  -- A new call has nothing to answer for yet.
  split
  next n e heq =>
    rw [heq] at hlogs
    intro call hcall
    rcases mem_append.mp hcall with hcall | hcall
    · exact (h call hcall).mono hlogs (.refl _)
    · rw [mem_singleton.mp hcall]
      trivial
  next n partition heq =>
    rw [heq] at hlogs
    intro call hcall
    rcases mem_append.mp hcall with hcall | hcall
    · exact (h call hcall).mono hlogs (.refl _)
    · rw [mem_singleton.mp hcall]
      trivial

theorem commit (h : s.Ok) {clock : UInt64} (hi : s.calls[i]? = some ⟨c, .proposed partition clock⟩)
    (hstep : s.commit i index c partition clock = some s') : s'.Ok := by
  unfold Leader.commit at hstep
  dsimp only at hstep
  split_ifs at hstep with hguard
  obtain ⟨-, hfresh, hroom⟩ := hguard
  obtain ⟨⟨n', outcome⟩, hpropose, rfl⟩ := map_eq_some_iff.mp hstep
  have hlogs : LogsGrow s.node n' := by
    unfold propose at hpropose
    split at hpropose
    · cases hpropose
    · obtain ⟨_, -, heq⟩ := map_eq_some_iff.mp hpropose
      cases heq
      exact .apply s.node _
  have hgrown : Ok { s with node := n', lastApplied := index } := h.grow rfl rfl hlogs (.refl _)
  refine hgrown.setPhase hi ?_
  match outcome, hpropose with
  | .error _, _ => trivial
  | .ok none, _ => trivial
  | .ok (some r), hpropose => exact fun hdup => writerIndex_propose hfresh hroom hpropose hdup

theorem resume (h : s.Ok) {outcome : Outcome}
    (hi : s.calls[i]? = some ⟨c, .applied partition index outcome⟩)
    (hstep : s.resume i c partition index outcome = some s') : s'.Ok := by
  have happlied := h _ (mem_of_getElem? hi)
  match outcome, happlied, hstep with
  | .error _, _, hstep =>
    cases hstep
    exact h.setPhase hi trivial
  | .ok none, _, hstep => cases hstep
  | .ok (some r), happlied, hstep =>
    dsimp only [Leader.resume] at hstep
    split_ifs at hstep with hwaits
    · cases hstep
      rw [Bool.and_eq_true, Bool.not_eq_true'] at hwaits
      exact h.setPhase hi (happlied hwaits.2)
    · -- The call asks for no replica, or is answered as a duplicate.
      cases hstep
      refine h.setPhase hi fun hwait hdup => absurd ?_ hwaits
      simp [hwait, hdup]

theorem progress (h : s.Ok) {peer : Bytes} (hle : (s.matchIndex.lookup peer).all (· ≤ index)) :
    Ok { s with matchIndex := s.matchIndex.insert peer index } := by
  refine h.grow rfl rfl (.refl _) fun other mi hmi => ?_
  by_cases hother : other = peer
  · subst hother
    rw [hmi] at hle
    exact ⟨index, AList.lookup_insert _, of_decide_eq_true hle⟩
  · exact ⟨mi, by rw [AList.lookup_insert_ne hother, hmi], UInt64.le_refl mi⟩

/-- Every step keeps the invariant. -/
theorem of_step (h : s.Ok) {a : LeaderAction} (hstep : s.step a = some s') : s'.Ok := by
  cases a with
  | publish c =>
    cases hstep
    exact h.publish c
  | commit =>
    dsimp only [step] at hstep
    split at hstep
    next hi => exact h.commit hi hstep
    · cases hstep
  | refuse | timeout =>
    dsimp only [step] at hstep
    split at hstep
    next hi =>
      cases hstep
      exact h.setPhase hi trivial
    · cases hstep
  | resume =>
    dsimp only [step] at hstep
    split at hstep
    next hi => exact h.resume hi hstep
    · cases hstep
  | count =>
    dsimp only [step] at hstep
    split at hstep
    next c partition index msgID hi =>
      split_ifs at hstep with hcount
      cases hstep
      have hwriter := h _ (mem_of_getElem? hi)
      exact h.setPhase hi ⟨index, hwriter, heldBy_iff.mpr hcount⟩
    · cases hstep
  | finish =>
    dsimp only [step] at hstep
    split at hstep
    next hi =>
      cases hstep
      have hpassed := h _ (mem_of_getElem? hi)
      exact h.setPhase hi fun _ _ => hpassed
    · cases hstep
  | progress =>
    dsimp only [step] at hstep
    split_ifs at hstep with hle
    cases hstep
    exact h.progress hle
  | other a =>
    cases a with
    | loc =>
      dsimp only [step] at hstep
      split_ifs at hstep
      obtain ⟨n, hn, rfl⟩ := map_eq_some_iff.mp hstep
      exact h.grow rfl rfl (.of_opensOnly (OpensOnly.lasting.of_localStep hn)) (.refl _)
    | apply =>
      dsimp only [step] at hstep
      split_ifs at hstep
      obtain ⟨n, hn, rfl⟩ := map_eq_some_iff.mp hstep
      exact h.grow rfl rfl (.of_step hn) (.refl _)

end Ok

theorem ok_idle (nodeID : Bytes) (node : Node) (matchIndex : MatchIndex) (lastApplied : UInt64) :
    (idle nodeID node matchIndex lastApplied).Ok :=
  fun _ hcall => absurd hcall not_mem_nil

end Leader

/-- Whatever happens on a leader, when a publish has returned without an error, has asked for
replicas and is not answered as a duplicate, then as many peers as it asked for hold the entry that
wrote the message whose id is returned. -/
theorem wait_never_overreports {nodeID : Bytes} {node : Node} {matchIndex : MatchIndex}
    {lastApplied : UInt64} {as : List LeaderAction} {s : Leader}
    (hrun : Run Leader.step (fun _ _ => True) (.idle nodeID node matchIndex lastApplied) as s)
    {c : PubCommand} {partition : ℕ} {r : ApplyResult}
    (hreturned : ⟨c, .succeeded partition r⟩ ∈ s.calls) (hwait : 0 < c.waitReplicas)
    (hdup : r.dup = false) :
    Replicated s.nodeID s.node s.matchIndex c partition r.msgID := by
  have hok : s.Ok := hrun.invariant (Leader.ok_idle _ _ _ _) fun _ _ _ _ h hstep => h.of_step hstep
  exact hok _ hreturned hwait hdup

/-- A leader `a` with the followers `b` and `c`, of which one is cut off. -/
def lagging : Leader :=
  .idle (ascii "a") (.new ⟨8, 1, 4, 0⟩)
    (((∅ : MatchIndex).insert (ascii "a") 0).insert (ascii "b") 0 |>.insert (ascii "c") 0) 0

/-- A publish with key `k` that asks for replicas. -/
def waitFor (replicas : ℤ) : PubCommand :=
  { topic := [116], dedupeKey := [107], routingKey := [], partition := 0, partitionSet := false
    payload := [1], delayMs := 0, waitReplicas := replicas, waitTimeoutMs := 10 }

/-- The publish, up to the wait. Its entry is held by the leader and by `b`, which is a majority. -/
def proposedTo (index : UInt64) (i : ℕ) (replicas : ℤ) : List LeaderAction :=
  [.publish (waitFor replicas), .progress (ascii "a") index, .progress (ascii "b") index,
    .commit i index, .resume i]

/-- One follower is enough for a publish that asks for one. -/
theorem wait_never_overreports_majority :
    ∃ s, Run Leader.step (fun _ _ => True) lagging (proposedTo 1 0 1 ++ [.count 0, .finish 0]) s ∧
      ⟨waitFor 1, .succeeded 0 ⟨0, false⟩⟩ ∈ s.calls ∧
      Replicated s.nodeID s.node s.matchIndex (waitFor 1) 0 0 := by
  exact exists_run_of_exec (by decide +kernel) fun _ hrun hreturned =>
    ⟨hreturned, wait_never_overreports hrun hreturned (by decide) rfl⟩

/-- A publish asks for two replicas and times out, since `c` is cut off. The same publish is sent
again and returns without an error, with the id of the message that only `b` holds. -/
theorem duplicate_skips_barrier :
    ∃ s, Run Leader.step (fun _ _ => True) lagging
        (proposedTo 1 0 2 ++ [.timeout 0] ++ proposedTo 2 1 2) s ∧
      s.calls = [⟨waitFor 2, .timedOut 0 0⟩, ⟨waitFor 2, .succeeded 0 ⟨0, true⟩⟩] ∧
      ¬ Replicated s.nodeID s.node s.matchIndex (waitFor 2) 0 0 := by
  refine exists_run_of_exec (P := fun s =>
    s.calls = [⟨waitFor 2, .timedOut 0 0⟩, ⟨waitFor 2, .succeeded 0 ⟨0, true⟩⟩] ∧
    writerIndex s.node [116] 0 0 = some 1 ∧ followerAckCount s.nodeID s.matchIndex 1 = 1)
    (by decide +kernel) ?_
  rintro s - ⟨hcalls, hwriter, hcount⟩
  refine ⟨hcalls, ?_⟩
  rintro ⟨index, hindex, hheld⟩
  obtain rfl : 1 = index := Option.some.inj (hwriter.symm.trans hindex)
  have htwo : (2 : ℤ) ≤ followerAckCount s.nodeID s.matchIndex 1 := heldBy_iff.mp hheld
  rw [hcount] at htwo
  omega

end ToyMQ.Server
