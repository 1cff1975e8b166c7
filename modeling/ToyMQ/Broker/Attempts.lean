import ToyMQ.Broker.Window

/-!
# Attempts and deliveries

A failed delivery kills a message once its attempts have reached the dead-letter threshold. Attempts
are counted ahead of the delivery: the goroutine of a subscription registers a message before it
sends it, and a nack or a sweep counts an attempt when it takes a snapshot, which it offers to a
channel afterwards. The offer is dropped when the channel is full, and the channel may belong to a
session that is gone.

`Pushes` is a consumer with the channels of its subscriptions and the snapshots still to be offered.
`attempts_le` is the invariant: the attempts of a message are covered by the snapshots that were
taken and those on their way. `killed_after_deliveries` follows for the runs in which no snapshot is
lost and no verdict is passed while one is on its way; otherwise see `killed_undelivered`.
-/

namespace ToyMQ.Broker

open Lib List Option
open Wal (Record)

/-! ## The system -/

/-- The goroutine is about to send this message. -/
def Phase.sends (msgID : ℕ) : Phase → Bool
  | .sending _ k => k == msgID
  | _ => false

/-- How many goroutines are about to send a message. -/
def Delivery.sending (d : Delivery) (msgID : ℕ) : ℕ := d.phases.countP (Phase.sends msgID)

/-- The configuration that the count depends on. -/
structure PushEnv where
  /-- `dlqThreshold` of the topic. -/
  threshold : ℕ
  /-- The size of a channel's buffer. -/
  capacity : ℕ
  /-- Whether nacks go through raft. -/
  raft : Bool

structure Pushes where
  feed : Feed
  /-- `sendCh` of each subscription. -/
  sendCh : ℕ → ℕ
  /-- How many snapshots are in the buffer of a channel, those of other consumers included. -/
  buffered : ℕ → ℕ
  /-- The snapshots that a nack or a sweep took and has not offered yet, each with its channel. -/
  tasks : List (ℕ × ℕ)
  /-- How many snapshots of a message were taken by the channel of a live subscription. -/
  accepted : ℕ → ℕ

/-- A step of the system. -/
inductive PushAction where
  /-- A step of the consumer that has nothing to do with a channel. -/
  | feed (a : FeedAction)
  /-- A session subscribes with its channel. -/
  | subscribe (ch : ℕ)
  /-- The goroutine of a subscription sends the message that it has registered. -/
  | send (i : ℕ)
  /-- `nackOrKill`, for a session with this channel. -/
  | nack (ch msgID : ℕ)
  /-- `collectExpired`. -/
  | sweep (expired : List ℕ)
  /-- A nack or the redelivery loop offers one of its snapshots. -/
  | push (j : ℕ)
  /-- A snapshot of another consumer enters a channel. -/
  | fill (ch : ℕ)
  /-- The writer of a session takes a snapshot from its channel. -/
  | drain (ch : ℕ)

namespace Pushes

/-- A consumer of an empty partition. -/
def new (id : Bytes) (window : ℕ) : Pushes :=
  ⟨.new id window, fun _ => 0, fun _ => 0, [], fun _ => 0⟩

/-- The channel belongs to a subscription of the consumer whose context is not cancelled. -/
def live (s : Pushes) (ch : ℕ) : Bool :=
  (List.range s.feed.delivery.subs.length).any fun i =>
    s.sendCh i == ch && s.feed.delivery.subs[i]?.any fun sub => !sub.cancelled

/-- `c.sub.sendCh`: the channel of the latest subscription. -/
def current (s : Pushes) : ℕ := s.sendCh (s.feed.delivery.subs.length - 1)

/-- The channel has room for one more. -/
def room (env : PushEnv) (s : Pushes) (ch : ℕ) : Bool := s.buffered ch < env.capacity

/-- A channel takes a snapshot. -/
def accept (s : Pushes) (ch msgID : ℕ) : Pushes :=
  { s with
    buffered := Function.update s.buffered ch (s.buffered ch + 1)
    accepted :=
      if s.live ch then Function.update s.accepted msgID (s.accepted msgID + 1) else s.accepted }

/-- The action has nothing to do with a channel. -/
def apart (s : Pushes) : FeedAction → Bool
  | .deliver .subscribe | .deliver (.nack _) | .deliver (.sweep _) => false
  | .deliver (.advance i) =>
    match s.feed.phases[i]? with
    | some (.sending _ _) => false
    | _ => true
  | _ => true

/-- A restart takes the sessions and what was in flight with it. What was accepted is counted anew,
as the log may assign the ids of lost records again. -/
def afterFeed (s : Pushes) (feed : Feed) : FeedAction → Pushes
  | .restart _ _ _ => ⟨feed, fun _ => 0, fun _ => 0, [], fun _ => 0⟩
  | _ => { s with feed := feed }

/-- The snapshot that a nack takes. The replicated one takes none. -/
def nackTask (env : PushEnv) (s : Pushes) (ch msgID : ℕ) : List (ℕ × ℕ) :=
  match s.feed.delivery.consumer.nackOrKill msgID env.threshold with
  | .ok (_, .redeliver _) => if env.raft then [] else [(ch, msgID)]
  | _ => []

/-- The snapshots that a sweep takes, all for the channel of the latest subscription. -/
def sweepTasks (env : PushEnv) (s : Pushes) (expired : List ℕ) : List (ℕ × ℕ) :=
  (s.feed.delivery.consumer.redeliveries env.threshold expired).map fun task =>
    (s.current, task.1)

/-- A step. A range over the map of messages in flight meets each of them once. -/
def step (env : PushEnv) (s : Pushes) : PushAction → Option Pushes
  | .feed a =>
    if s.apart a then (s.feed.step env.threshold a).map fun feed => s.afterFeed feed a else none
  | .subscribe ch =>
    (s.feed.step env.threshold (.deliver .subscribe)).map fun feed =>
      { s with
        feed := feed
        sendCh := Function.update s.sendCh s.feed.delivery.subs.length ch }
  | .send i =>
    match s.feed.phases[i]? with
    | some (.sending _ msgID) =>
      if s.room env (s.sendCh i) then
        (s.feed.step env.threshold (.deliver (.advance i))).map fun feed =>
          { s.accept (s.sendCh i) msgID with feed := feed }
      else none
    | _ => none
  | .nack ch msgID =>
    (s.feed.step env.threshold (.deliver (.nack msgID))).map fun feed =>
      { s with feed := feed, tasks := s.tasks ++ s.nackTask env ch msgID }
  | .sweep expired =>
    if expired.Nodup then
      (s.feed.step env.threshold (.deliver (.sweep expired))).map fun feed =>
        { s with feed := feed, tasks := s.tasks ++ s.sweepTasks env expired }
    else none
  | .push j =>
    s.tasks[j]?.map fun task =>
      let s' := if s.room env task.1 then s.accept task.1 task.2 else s
      { s' with tasks := s.tasks.eraseIdx j }
  | .fill ch =>
    if s.room env ch then
      some { s with buffered := Function.update s.buffered ch (s.buffered ch + 1) }
    else none
  | .drain ch =>
    if 0 < s.buffered ch then
      some { s with buffered := Function.update s.buffered ch (s.buffered ch - 1) }
    else none

/-- The messages that a nack or a sweep dead-letters. -/
def kills (env : PushEnv) (s : Pushes) : PushAction → Finset ℕ
  | .nack _ msgID => s.feed.kills env.threshold (.deliver (.nack msgID))
  | .sweep expired => s.feed.kills env.threshold (.deliver (.sweep expired))
  | _ => ∅

/-- The snapshots of a message that are counted and not yet sent or offered. -/
def pending (s : Pushes) (msgID : ℕ) : ℕ :=
  s.tasks.countP (fun task => task.2 == msgID) + s.feed.delivery.sending msgID

/-- No verdict on a message that has had its attempts while a snapshot of it is on its way. -/
def Waits (env : PushEnv) (s : Pushes) (msgID : ℕ) : Prop :=
  s.pending msgID = 0 ∨
    (s.feed.delivery.consumer.inflight.lookup msgID).all (·.attempts < env.threshold)

instance (env : PushEnv) (s : Pushes) (msgID : ℕ) : Decidable (s.Waits env msgID) :=
  inferInstanceAs (Decidable (_ ∨ _))

/-- No snapshot is lost: what is sent or offered goes to the channel of a live subscription, and an
offer finds room. A nack offers its snapshot, and verdicts wait for the snapshots on their way. -/
def Lossless (env : PushEnv) (s : Pushes) : PushAction → Prop
  | .send i => s.live (s.sendCh i)
  | .push j => ∀ task ∈ s.tasks[j]?, s.live task.1 ∧ s.room env task.1
  | .nack _ msgID => env.raft = false ∧ s.Waits env msgID
  | .sweep expired => ∀ msgID ∈ expired, s.Waits env msgID
  | _ => True

instance (env : PushEnv) (s : Pushes) : (a : PushAction) → Decidable (s.Lossless env a)
  | .send i => inferInstanceAs (Decidable (s.live (s.sendCh i) = true))
  | .push j => inferInstanceAs (Decidable (∀ task ∈ s.tasks[j]?, s.live task.1 ∧ s.room env task.1))
  | .nack _ msgID => inferInstanceAs (Decidable (env.raft = false ∧ s.Waits env msgID))
  | .sweep expired => inferInstanceAs (Decidable (∀ msgID ∈ expired, s.Waits env msgID))
  | .feed _ | .subscribe _ | .fill _ | .drain _ => inferInstanceAs (Decidable True)

end Pushes

/-! ## Verdicts -/

/-- The verdicts of a nack or a sweep on the messages in flight: each touched message gets its own,
and the others stay as they are. -/
structure Consumer.Verdicts (threshold : ℕ) (touched : List ℕ) (c c' : Consumer) : Prop where
  own : ∀ msgID ∈ touched, ∀ inf, c.inflight.lookup msgID = some inf →
    c'.inflight.lookup msgID = (inf.verdict threshold).kept
  subset : ∀ msgID ∈ c'.inflight, msgID ∈ c.inflight
  other : ∀ msgID ∉ touched, c'.inflight.lookup msgID = c.inflight.lookup msgID

variable {msgID : ℕ} {c : Consumer}

theorem Consumer.Verdicts.kept {threshold : ℕ} {touched : List ℕ} {c' : Consumer} {inf' : Inflight}
    (h : Verdicts threshold touched c c') (hinf' : c'.inflight.lookup msgID = some inf')
    (hmem : msgID ∈ touched) :
    ∃ inf, c.inflight.lookup msgID = some inf ∧ (inf.verdict threshold).kept ≠ none ∧
      inf'.attempts = inf.attempts + 1 := by
  have hin : msgID ∈ c'.inflight := AList.lookup_isSome.mp (by rw [hinf']; rfl)
  obtain ⟨inf, hinf⟩ := isSome_iff_exists.mp (AList.lookup_isSome.mpr (h.subset msgID hin))
  have hkept := h.own msgID hmem inf hinf
  rw [hinf'] at hkept
  refine ⟨inf, hinf, by rw [← hkept]; simp, ?_⟩
  unfold Inflight.verdict at hkept
  split_ifs at hkept
  · cases hkept
  · cases hkept
    rfl

/-- What a nack or a sweep does to the messages in flight. One more attempt is counted only for a
snapshot that is handed back, and only what was touched and has had its attempts is killed. -/
structure Consumer.Judged (threshold : ℕ) (touched handed : List ℕ) (c c' : Consumer) : Prop where
  kept : ∀ (msgID : ℕ) (inf' : Inflight), c'.inflight.lookup msgID = some inf' →
    ∃ inf, c.inflight.lookup msgID = some inf ∧
      inf'.attempts ≤ inf.attempts + handed.count msgID
  killed : ∀ (msgID : ℕ) (inf : Inflight), c.inflight.lookup msgID = some inf →
    msgID ∉ c'.inflight → msgID ∈ touched ∧ threshold ≤ inf.attempts

namespace Consumer.Judged

variable {threshold : ℕ} {touched handed : List ℕ} {c c' : Consumer}

/-- Nothing in flight changes. -/
theorem of_lookup_eq (h : ∀ msgID, c'.inflight.lookup msgID = c.inflight.lookup msgID) :
    Judged threshold touched handed c c' where
  kept msgID inf' hinf' := ⟨inf', by rw [← h, hinf'], Nat.le_add_right _ _⟩
  killed msgID inf hinf hnot := by
    refine absurd (AList.lookup_isSome.mp ?_) hnot
    rw [h, hinf]
    rfl

theorem of_verdicts (h : Verdicts threshold touched c c')
    (hhanded : ∀ msgID ∈ touched, ∀ inf, c.inflight.lookup msgID = some inf →
      (inf.verdict threshold).kept ≠ none → msgID ∈ handed) :
    Judged threshold touched handed c c' where
  kept msgID inf' hinf' := by
    by_cases hmem : msgID ∈ touched
    · obtain ⟨inf, hinf, hkept, hone⟩ := h.kept hinf' hmem
      have hcount := one_le_count_iff.mpr (hhanded msgID hmem inf hinf hkept)
      exact ⟨inf, hinf, by omega⟩
    · exact ⟨inf', by rw [← h.other msgID hmem, hinf'], Nat.le_add_right _ _⟩
  killed msgID inf hinf hnot := by
    have hgone : c'.inflight.lookup msgID = none := AList.lookup_eq_none.mpr hnot
    by_cases hmem : msgID ∈ touched
    · refine ⟨hmem, ?_⟩
      rw [h.own msgID hmem inf hinf] at hgone
      unfold Inflight.verdict at hgone
      split_ifs at hgone with hdead
      · exact hdead.2
      · cases hgone
    · rw [h.other msgID hmem, hinf] at hgone
      cases hgone

end Consumer.Judged

theorem Consumer.nack_of_none (h : c.inflight.lookup msgID = none) (threshold : ℕ) :
    c.nackOrKill msgID threshold = .error (.nackNotInflight msgID c.id) ∧
      c.failed threshold (.nack msgID) = c := by
  have hnack : c.nackOrKill msgID threshold = .error (.nackNotInflight msgID c.id) := by
    rw [Consumer.nackOrKill, h]
  exact ⟨hnack, by rw [Consumer.failed, hnack]⟩

variable {inf : Inflight} {k i : ℕ}

/-- A nack of a message in flight passes its verdict. -/
theorem Consumer.nack_of_some (h : c.inflight.lookup msgID = some inf) (threshold : ℕ) :
    c.nackOrKill msgID threshold =
        .ok (c.settle msgID (inf.verdict threshold), inf.verdict threshold) ∧
      c.failed threshold (.nack msgID) = c.settle msgID (inf.verdict threshold) := by
  have hnack : c.nackOrKill msgID threshold =
      .ok (c.settle msgID (inf.verdict threshold), inf.verdict threshold) := by
    rw [Consumer.nackOrKill, h]
  exact ⟨hnack, by rw [Consumer.failed, hnack]⟩

theorem Consumer.verdicts_nack (h : c.inflight.lookup msgID = some inf) (threshold : ℕ) :
    c.Verdicts threshold [msgID] (c.failed threshold (.nack msgID)) := by
  obtain ⟨hnack, hfailed⟩ := Consumer.nack_of_some h threshold
  rw [hfailed]
  refine ⟨fun k hk inf' hinf' => ?_, fun k hk => Consumer.mem_of_mem_nackOrKill hnack hk,
    fun k hk => Consumer.lookup_nackOrKill hnack fun heq => hk (mem_singleton.mpr heq)⟩
  obtain rfl := mem_singleton.mp hk
  obtain rfl := Option.some.inj (h.symm.trans hinf')
  exact Consumer.lookup_settle_self _ _ _

theorem Consumer.verdicts_sweep {expired : List ℕ} (hserving : ¬ (!c.subscribed || c.paused) = true)
    (threshold : ℕ) (hnodup : expired.Nodup) :
    c.Verdicts threshold expired (c.collectExpired threshold expired) := by
  refine ⟨fun k hk inf hinf => ?_, fun k hk => Consumer.mem_of_mem_collectExpired hk,
    fun k hk => c.lookup_collectExpired hk⟩
  rw [Consumer.collectExpired, if_neg hserving]
  exact Consumer.lookup_foldl_expire_of_mem hnodup hk hinf

namespace Pushes

variable {env : PushEnv} {s : Pushes}

theorem judged_nack (hraft : env.raft = false) (ch msgID : ℕ) :
    Consumer.Judged env.threshold [msgID] ((s.nackTask env ch msgID).map Prod.snd)
      s.feed.delivery.consumer
      (s.feed.delivery.consumer.failed env.threshold (.nack msgID)) := by
  cases hinf : s.feed.delivery.consumer.inflight.lookup msgID with
  | none =>
    refine .of_lookup_eq fun k => ?_
    rw [(Consumer.nack_of_none hinf env.threshold).2]
  | some inf =>
    refine .of_verdicts (Consumer.verdicts_nack hinf env.threshold) fun k hk inf' hinf' hkept => ?_
    obtain rfl := mem_singleton.mp hk
    obtain rfl := Option.some.inj (hinf.symm.trans hinf')
    rw [nackTask, (Consumer.nack_of_some hinf env.threshold).1, hraft]
    cases hverdict : inf.verdict env.threshold with
    | redeliver => exact mem_singleton.mpr rfl
    | killed => exact absurd (by rw [hverdict]; rfl) hkept

theorem judged_sweep {expired : List ℕ} (hnodup : expired.Nodup) :
    Consumer.Judged env.threshold expired ((s.sweepTasks env expired).map Prod.snd)
      s.feed.delivery.consumer
      (s.feed.delivery.consumer.failed env.threshold (.sweep expired)) := by
  set c := s.feed.delivery.consumer with hc
  change Consumer.Judged env.threshold expired _ c (c.collectExpired env.threshold expired)
  by_cases hidle : (!c.subscribed || c.paused) = true
  · refine .of_lookup_eq fun k => ?_
    rw [Consumer.collectExpired, if_pos hidle]
  · refine .of_verdicts (Consumer.verdicts_sweep hidle env.threshold hnodup)
      fun k hk inf hinf hkept => ?_
    have htask : ∃ inf', (k, inf') ∈ c.redeliveries env.threshold expired := by
      unfold Consumer.redeliveries
      rw [if_neg hidle]
      cases hverdict : inf.verdict env.threshold with
      | redeliver inf' =>
        refine ⟨inf', mem_filterMap.mpr ⟨k, hk, ?_⟩⟩
        rw [hinf, bind_some, hverdict]
      | killed => exact absurd (by rw [hverdict]; rfl) hkept
    obtain ⟨inf', hmem⟩ := htask
    rw [sweepTasks, List.map_map]
    exact List.mem_map.mpr ⟨(k, inf'), hmem, rfl⟩

end Pushes

/-! ## What the steps of the consumer leave covered -/

theorem lookup_of_lookup_erase {inflight : AList fun _ : ℕ => Inflight}
    (h : (inflight.erase msgID).lookup k = some inf) :
    k ≠ msgID ∧ inflight.lookup k = some inf := by
  have hne : k ≠ msgID := by
    rintro rfl
    rw [AList.lookup_erase] at h
    cases h
  rw [AList.lookup_erase_ne hne] at h
  exact ⟨hne, h⟩

theorem countP_set_of_not_sends {phases : List Phase} {a : Phase} (phase : Phase)
    (hi : phases[i]? = some a) (ha : a.sends msgID = false) :
    (phases.set i phase).countP (Phase.sends msgID) =
      phases.countP (Phase.sends msgID) + if phase.sends msgID then 1 else 0 := by
  obtain ⟨hlen, hget⟩ := List.getElem?_eq_some_iff.mp hi
  rw [countP_set hlen, hget, ha]
  simp

theorem Delivery.sending_sent {d : Delivery} {pos : ℕ} (hi : d.phases[i]? = some (.sending pos k))
    (msgID : ℕ) :
    (d.setPhase i (.credit pos)).sending msgID + (if k = msgID then 1 else 0) =
      d.sending msgID := by
  obtain ⟨hlen, hget⟩ := List.getElem?_eq_some_iff.mp hi
  have hpos : (if k = msgID then 1 else 0) ≤ d.sending msgID := by
    split_ifs with hk
    · exact one_le_countP_iff.mpr ⟨_, mem_of_getElem? hi, by simp [Phase.sends, hk]⟩
    · exact Nat.zero_le _
  unfold Delivery.sending at hpos ⊢
  rw [Delivery.phases_setPhase, countP_set hlen, hget]
  simp only [Phase.sends, beq_iff_eq, Bool.false_eq_true, if_false, Nat.add_zero]
  omega

/-- A snapshot that was offered is no longer to be offered. -/
theorem countP_tasks_eraseIdx {tasks : List (ℕ × ℕ)} {j : ℕ} {task : ℕ × ℕ}
    (hj : tasks[j]? = some task) (msgID : ℕ) :
    (tasks.eraseIdx j).countP (fun task => task.2 == msgID) + (if task.2 = msgID then 1 else 0) =
      tasks.countP fun task => task.2 == msgID := by
  obtain ⟨hlen, rfl⟩ := List.getElem?_eq_some_iff.mp hj
  have hcount := (getElem_cons_eraseIdx_perm hlen).countP_eq (fun task => task.2 == msgID)
  rw [countP_cons] at hcount
  simp only [beq_iff_eq] at hcount
  exact hcount

/-- Each message in flight was there before and is being sent as before, or it has one attempt and
is being sent now. -/
def Delivery.Carried (d d' : Delivery) : Prop :=
  ∀ (msgID : ℕ) (inf : Inflight), d'.consumer.inflight.lookup msgID = some inf →
    (d.consumer.inflight.lookup msgID = some inf ∧ d.sending msgID ≤ d'.sending msgID) ∨
      (inf.attempts = 1 ∧ 1 ≤ d'.sending msgID)

/-- Each message in flight was there before and is being sent by as many goroutines as before, or
it is the one that was registered, with one attempt, and one goroutine more is sending it. -/
def Delivery.Turn (registered : Option ℕ) (d d' : Delivery) : Prop :=
  ∀ (msgID : ℕ) (inf : Inflight), d'.consumer.inflight.lookup msgID = some inf →
    (d.consumer.inflight.lookup msgID = some inf ∧ d'.sending msgID = d.sending msgID) ∨
      (registered = some msgID ∧ inf.attempts = 1 ∧ d'.sending msgID = d.sending msgID + 1)

namespace Delivery.Turn

variable {d d' : Delivery} {r : Option ℕ}

theorem carried (h : d.Turn r d') : d.Carried d' := by
  intro msgID inf hinf
  rcases h msgID inf hinf with ⟨hold, hsent⟩ | ⟨-, hone, hsent⟩
  · exact .inl ⟨hold, hsent.ge⟩
  · exact .inr ⟨hone, by omega⟩

/-- Nothing enters and the goroutines stay as they are. -/
theorem of_phases_eq (hphases : d'.phases = d.phases)
    (hlookup : ∀ (msgID : ℕ) (inf : Inflight), d'.consumer.inflight.lookup msgID = some inf →
      d.consumer.inflight.lookup msgID = some inf) : d.Turn r d' := by
  intro msgID inf hinf
  refine .inl ⟨hlookup msgID inf hinf, ?_⟩
  rw [sending, sending, hphases]

theorem trans {d'' : Delivery} (h : d.Turn none d') (h' : d'.Turn none d'') :
    d.Turn none d'' := by
  intro msgID inf hinf
  rcases h' msgID inf hinf with ⟨hinf', hsent'⟩ | ⟨hreg, -⟩
  · rcases h msgID inf hinf' with ⟨hold, hsent⟩ | ⟨hreg, -⟩
    · exact .inl ⟨hold, hsent'.trans hsent⟩
    · cases hreg
  · cases hreg

variable {i : ℕ}

theorem setPhase {a phase : Phase} (hi : d.phases[i]? = some a)
    (ha : ∀ msgID, a.sends msgID = false) (hphase : ∀ msgID, phase.sends msgID = false) :
    d.Turn r (d.setPhase i phase) := by
  intro msgID inf hinf
  refine .inl ⟨hinf, ?_⟩
  rw [sending, sending, phases_setPhase, countP_set_of_not_sends phase hi (ha msgID), hphase]
  rfl

theorem register {pos : ℕ} {rec : Record} (hi : d.phases[i]? = some (.holding pos rec)) :
    d.Turn (some rec.msgID.toNat)
      ({ d with consumer := d.consumer.register rec.msgID.toNat rec.payload }.setPhase i
        (.sending pos rec.msgID.toNat)) := by
  intro msgID inf hinf
  have hset : ({ d with consumer := d.consumer.register rec.msgID.toNat rec.payload }.setPhase i
      (.sending pos rec.msgID.toNat)).phases = d.phases.set i (.sending pos rec.msgID.toNat) :=
    Delivery.phases_setPhase _ i _
  change (d.consumer.inflight.insert rec.msgID.toNat ⟨rec.payload, 1⟩).lookup msgID = some inf
    at hinf
  rw [sending, sending, hset, countP_set_of_not_sends _ hi rfl]
  by_cases hid : msgID = rec.msgID.toNat
  · subst hid
    rw [AList.lookup_insert] at hinf
    cases hinf
    exact .inr ⟨rfl, rfl, by simp [Phase.sends]⟩
  · rw [AList.lookup_insert_ne hid] at hinf
    exact .inl ⟨hinf, by simp [Phase.sends, Ne.symm hid]⟩

theorem rollback {pos k : ℕ} (hi : d.phases[i]? = some (.sending pos k)) :
    d.Turn r ({ d with consumer := d.consumer.rollback k }.setPhase i .exiting) := by
  intro msgID inf hinf
  have hset : ({ d with consumer := d.consumer.rollback k }.setPhase i .exiting).phases =
      d.phases.set i .exiting := Delivery.phases_setPhase _ i _
  -- What the goroutine was sending is no longer in flight, so that only the others count.
  obtain ⟨hne, hinf⟩ := lookup_of_lookup_erase hinf
  have hother : (Phase.sending pos k).sends msgID = false := by
    simpa [Phase.sends] using Ne.symm hne
  rw [sending, sending, hset, countP_set_of_not_sends _ hi hother]
  exact .inl ⟨hinf, rfl⟩

/-- A new subscription sends nothing. -/
theorem subscribe (consumer : Consumer) (hinflight : consumer.inflight = d.consumer.inflight) :
    d.Turn r
      { d with consumer := consumer, subs := d.subs ++ [⟨.swapped, false⟩] } := by
  intro msgID inf hinf
  refine .inl ⟨hinflight ▸ hinf, ?_⟩
  rw [sending, sending, phases, phases, map_append, countP_append]
  rfl

end Delivery.Turn

namespace Feed

variable {s s' : Feed} {threshold : ℕ}

/-- The message that a step puts in flight. -/
def registers (s : Feed) : FeedAction → Option ℕ
  | .deliver (.advance i) =>
    match s.delivery.phases[i]? with
    | some (.holding _ rec) => some rec.msgID.toNat
    | _ => none
  | _ => none

/-- A restart finds nothing in flight. -/
theorem inflight_restart {k floor : ℕ} {file : Option ℕ}
    (hstep : s.step threshold (.restart k floor file) = some s') :
    s'.delivery.consumer.inflight = ∅ := by
  cases rule_of_step hstep with
  | restart => rfl
  | goes ha => cases ha

theorem Goes.sends {phase phase' : Phase} (h : s.Goes phase phase') (msgID : ℕ) :
    phase.sends msgID = false ∧ phase'.sends msgID = false := by
  cases h with
  | left hphase =>
    refine ⟨?_, rfl⟩
    cases phase with
    | sending => cases hphase
    | _ => rfl
  | _ => exact ⟨rfl, rfl⟩

end Feed

namespace Pushes

variable {env : PushEnv} {s s' : Pushes}

theorem sends_of_apart {i : ℕ} {phase : Phase} (hapart : s.apart (.deliver (.advance i)) = true)
    (hi : s.feed.phases[i]? = some phase) (msgID : ℕ) : phase.sends msgID = false := by
  dsimp only [apart] at hapart
  rw [hi] at hapart
  cases phase with
  | sending => cases hapart
  | _ => rfl

theorem turn_of_feed {a : FeedAction} {feed : Feed} (hapart : s.apart a = true)
    (hstep : s.feed.step env.threshold a = some feed) :
    s.feed.delivery.Turn (s.feed.registers a) feed.delivery := by
  cases Feed.rule_of_step hstep with
  | write | commit | ackRefused | setPaused | flushOffsets | drop =>
    exact .of_phases_eq rfl fun _ _ hinf => hinf
  | subscribe | nack | sweep => cases hapart
  | first hi | prevDone hi | start hi => exact .setPhase hi (fun _ => rfl) fun _ => rfl
  | @cancelPrev i hi =>
    exact (Delivery.Turn.of_phases_eq (s.feed.delivery.phases_cancel (i - 1))
      fun _ _ hinf => hinf).trans
        (.setPhase (by rw [Delivery.phases_cancel]; exact hi) (fun _ => rfl) fun _ => rfl)
  | cancel i => exact .of_phases_eq (s.feed.delivery.phases_cancel i) fun _ _ hinf => hinf
  | goes ha hi hgoes =>
    exact .setPhase hi (fun msgID => (hgoes.sends msgID).1) fun msgID => (hgoes.sends msgID).2
  | register hi =>
    have hregisters : s.feed.delivery.phases[_]? = _ := hi
    rw [Feed.registers, hregisters]
    exact .register hi
  | @sent i pos msgID hi =>
    have hsends := sends_of_apart hapart hi msgID
    simp [Phase.sends] at hsends
  | rollback hi => exact .rollback hi
  | ack => exact .of_phases_eq rfl fun k inf hinf => (lookup_of_lookup_erase hinf).2
  | restart =>
    intro msgID inf hinf
    cases hinf

/-! ## The invariant -/

/-- The attempts of each message are covered by the snapshots that were taken and those that are
still on their way. -/
def Covered (s : Pushes) : Prop :=
  ∀ (msgID : ℕ) (inf : Inflight), s.feed.delivery.consumer.inflight.lookup msgID = some inf →
    inf.attempts ≤ s.accepted msgID + s.pending msgID

theorem covered_new (id : Bytes) (window : ℕ) : (new id window).Covered := by
  intro msgID inf hinf
  cases hinf

theorem accepted_accept {ch : ℕ} (hlive : s.live ch = true) (k msgID : ℕ) :
    (s.accept ch k).accepted msgID = s.accepted msgID + if k = msgID then 1 else 0 := by
  unfold accept
  rw [if_pos hlive]
  by_cases hk : k = msgID
  · subst hk
    rw [if_pos rfl]
    exact Function.update_self _ _ _
  · rw [if_neg hk]
    exact Function.update_of_ne (Ne.symm hk) _ _

namespace Covered

/-- Nothing that was counted or taken changes. -/
theorem of_carried (h : s.Covered) {feed : Feed} (hcarried : s.feed.delivery.Carried feed.delivery)
    (hfeed : s'.feed = feed) (htasks : s'.tasks = s.tasks) (haccepted : s'.accepted = s.accepted) :
    s'.Covered := by
  intro msgID inf hinf
  rw [hfeed] at hinf
  rw [pending, hfeed, htasks, haccepted]
  rcases hcarried msgID inf hinf with ⟨hold, hle⟩ | ⟨hone, hsent⟩
  · have hcov := h msgID inf hold
    unfold pending at hcov
    omega
  · omega

/-- A nack or a sweep passes its verdicts, and keeps the snapshots to offer them. -/
theorem of_judged (h : s.Covered) {feed : Feed} {touched : List ℕ} {tasks : List (ℕ × ℕ)}
    (hjudged : Consumer.Judged env.threshold touched (tasks.map Prod.snd) s.feed.delivery.consumer
      feed.delivery.consumer)
    (hphases : feed.delivery.phases = s.feed.delivery.phases) :
    { s with feed := feed, tasks := s.tasks ++ tasks }.Covered := by
  intro msgID inf' hinf'
  -- Each attempt that was counted has its snapshot among the new tasks.
  obtain ⟨inf, hinf, hle⟩ := hjudged.kept msgID inf' hinf'
  have hcov := h msgID inf hinf
  unfold pending Delivery.sending at hcov ⊢
  dsimp only
  rw [hphases, countP_append]
  rw [List.count, countP_map] at hle
  change inf'.attempts ≤ inf.attempts + tasks.countP (fun task => task.2 == msgID) at hle
  omega

theorem of_send (h : s.Covered) {i pos k : ℕ}
    (hi : s.feed.delivery.phases[i]? = some (.sending pos k))
    (hlive : s.live (s.sendCh i) = true) {feed : Feed}
    (hfeed : feed.delivery = s.feed.delivery.setPhase i (.credit pos)) :
    { s.accept (s.sendCh i) k with feed := feed }.Covered := by
  intro msgID inf hinf
  have hcov := h msgID inf (by rw [hfeed] at hinf; exact hinf)
  have hacc := accepted_accept hlive k msgID
  -- One goroutine less is sending the message, and one snapshot more is accepted.
  have hsent := Delivery.sending_sent hi msgID
  rw [← hfeed] at hsent
  unfold pending at hcov ⊢
  change inf.attempts ≤ (s.accept (s.sendCh i) k).accepted msgID +
    (s.tasks.countP (fun task => task.2 == msgID) + feed.delivery.sending msgID)
  omega

theorem of_push (h : s.Covered) {j : ℕ} {task : ℕ × ℕ} (hj : s.tasks[j]? = some task)
    (hlive : s.live task.1 = true) :
    { s.accept task.1 task.2 with tasks := s.tasks.eraseIdx j }.Covered := by
  intro msgID inf hinf
  have hcov := h msgID inf hinf
  have hacc := accepted_accept hlive task.2 msgID
  -- The task leaves the list, and is accepted.
  have hcount := countP_tasks_eraseIdx hj msgID
  unfold pending at hcov ⊢
  change inf.attempts ≤ (s.accept task.1 task.2).accepted msgID +
    ((s.tasks.eraseIdx j).countP (fun task => task.2 == msgID) +
      s.feed.delivery.sending msgID)
  omega

theorem of_step (h : s.Covered) {a : PushAction} (hok : s.Lossless env a)
    (hstep : s.step env a = some s') : s'.Covered := by
  cases a with
  | feed a =>
    dsimp only [step] at hstep
    split_ifs at hstep with hapart
    obtain ⟨feed, hfeed, rfl⟩ := map_eq_some_iff.mp hstep
    have hcarried := (turn_of_feed hapart hfeed).carried
    cases a with
    | restart =>
      intro msgID inf hinf
      rw [afterFeed, Feed.inflight_restart hfeed] at hinf
      cases hinf
    | deliver | drop | fail => exact h.of_carried hcarried rfl rfl rfl
  | subscribe =>
    cases hstep
    exact h.of_carried (Delivery.Turn.subscribe (r := none) _ rfl).carried rfl rfl rfl
  | send =>
    dsimp only [step] at hstep
    split at hstep
    next pos k hi =>
      split_ifs at hstep
      obtain ⟨feed, hfeed, rfl⟩ := map_eq_some_iff.mp hstep
      exact h.of_send hi hok (congrArg Feed.delivery (Feed.eq_of_sent hi hfeed))
    · cases hstep
  | nack ch msgID =>
    cases hstep
    exact h.of_judged (judged_nack hok.1 ch msgID) rfl
  | sweep =>
    dsimp only [step] at hstep
    split_ifs at hstep with hnodup
    cases hstep
    exact h.of_judged (judged_sweep hnodup) rfl
  | push =>
    obtain ⟨task, hj, rfl⟩ := map_eq_some_iff.mp hstep
    obtain ⟨hlive, hroom⟩ := hok task hj
    rw [if_pos hroom]
    exact h.of_push hj hlive
  | fill | drain =>
    dsimp only [step] at hstep
    split_ifs at hstep
    cases hstep
    exact h

end Covered

/-- The attempts of a message are covered. -/
theorem attempts_le {id : Bytes} {window : ℕ} {as : List PushAction}
    (hrun : Run (step env) (Lossless env) (new id window) as s) : s.Covered :=
  hrun.invariant (I := Covered) (covered_new id window) fun _ _ _ hok h hstep => h.of_step hok hstep

theorem le_accepted_of_judged (h : s.Covered) {c' : Consumer} {touched handed : List ℕ}
    (hjudged : Consumer.Judged env.threshold touched handed s.feed.delivery.consumer c')
    (hwaits : ∀ msgID ∈ touched, s.Waits env msgID) {msgID : ℕ}
    (hmem : msgID ∈ s.feed.delivery.consumer.inflight) (hgone : msgID ∉ c'.inflight) :
    env.threshold ≤ s.accepted msgID := by
  obtain ⟨inf, hinf⟩ := isSome_iff_exists.mp (AList.lookup_isSome.mpr hmem)
  obtain ⟨htouched, hattempts⟩ := hjudged.killed msgID inf hinf hgone
  have hcov := h msgID inf hinf
  -- A message that has had its attempts was judged with nothing of it on its way.
  rcases hwaits msgID htouched with hnone | hfew
  · omega
  · rw [hinf, all_some, decide_eq_true_eq] at hfew
    omega

/-- While no snapshot of a message is lost, and none is on its way when the last verdict is passed
on it, a message is dead-lettered only after channels of live subscriptions have taken as many
snapshots of it as the threshold says. -/
theorem killed_after_deliveries {id : Bytes} {window : ℕ} {as : List PushAction} {a : PushAction}
    (hrun : Run (step env) (Lossless env) (new id window) as s) (hok : s.Lossless env a)
    (hstep : s.step env a = some s') :
    ∀ msgID ∈ s.kills env a, env.threshold ≤ s.accepted msgID := by
  have hcov := attempts_le hrun
  intro msgID hkill
  cases a with
  | nack ch k =>
    obtain ⟨hmem, hgone⟩ := mem_filter.mp (List.mem_toFinset.mp hkill)
    refine le_accepted_of_judged hcov (judged_nack hok.1 ch k) (fun j hj => ?_)
      (AList.mem_keys.mpr hmem) (of_decide_eq_true hgone)
    rw [mem_singleton.mp hj]
    exact hok.2
  | sweep =>
    obtain ⟨hmem, hgone⟩ := mem_filter.mp (List.mem_toFinset.mp hkill)
    dsimp only [step] at hstep
    split_ifs at hstep with hnodup
    exact le_accepted_of_judged hcov (judged_sweep hnodup) hok (AList.mem_keys.mpr hmem)
      (of_decide_eq_true hgone)
  | feed | subscribe | send | push | fill | drain =>
    exact absurd hkill (Finset.notMem_empty msgID)

/-- A message is published and handed to the first subscription, whose session has channel 7 and
writes it to its client. -/
def delivered : List PushAction :=
  [.feed (.deliver (.write ⟨0, 0, [], [97], 0, 0⟩)), .feed (.deliver (.commit 1)), .subscribe 7,
    .feed (.deliver (.cancelPrev 0)), .feed (.deliver (.advance 0)), .feed (.deliver (.advance 0)),
    .feed (.deliver (.advance 0)), .feed (.deliver (.advance 0)), .feed (.deliver (.advance 0)),
    .send 0, .drain 7]

/-- With a threshold of two, the client rejects the message twice and gets it twice. -/
theorem killed_after_deliveries_nacked :
    ∃ s s', Run (step ⟨2, 64, false⟩) (Lossless ⟨2, 64, false⟩) (new [99] 16)
        (delivered ++ [.nack 7 0, .push 0, .drain 7]) s ∧
      s.Lossless ⟨2, 64, false⟩ (.nack 7 0) ∧ s.step ⟨2, 64, false⟩ (.nack 7 0) = some s' ∧
      s.kills ⟨2, 64, false⟩ (.nack 7 0) = {0} ∧
      ∀ msgID ∈ s.kills ⟨2, 64, false⟩ (.nack 7 0), 2 ≤ s.accepted msgID := by
  obtain ⟨s, hs, hok, hkills⟩ :
      ∃ s, Run (step ⟨2, 64, false⟩) (Lossless ⟨2, 64, false⟩) (new [99] 16)
          (delivered ++ [.nack 7 0, .push 0, .drain 7]) s ∧
        s.Lossless ⟨2, 64, false⟩ (.nack 7 0) ∧ s.kills ⟨2, 64, false⟩ (.nack 7 0) = {0} := by
    decide +kernel
  exact ⟨s, _, hs, hok, rfl, hkills, killed_after_deliveries hs hok rfl⟩

/-- The session is gone after the first delivery. The sweep counts a second attempt and pushes it to
the channel of that session, and the next one kills the message, which was delivered once. -/
theorem killed_undelivered :
    ∃ s s', Run (step ⟨2, 64, false⟩) (fun _ _ => True) (new [99] 16)
        (delivered ++ [.feed (.deliver (.cancel 0)), .feed (.deliver (.stop 0)),
          .feed (.deliver (.advance 0)), .sweep [0], .push 0]) s ∧
      s.step ⟨2, 64, false⟩ (.sweep [0]) = some s' ∧
      0 ∈ s.kills ⟨2, 64, false⟩ (.sweep [0]) ∧ s.accepted 0 = 1 := by
  obtain ⟨s, hs, hkills⟩ : ∃ s, Run (step ⟨2, 64, false⟩) (fun _ _ => True) (new [99] 16)
      (delivered ++ [.feed (.deliver (.cancel 0)), .feed (.deliver (.stop 0)),
        .feed (.deliver (.advance 0)), .sweep [0], .push 0]) s ∧
      0 ∈ s.kills ⟨2, 64, false⟩ (.sweep [0]) ∧ s.accepted 0 = 1 := by
    decide +kernel
  exact ⟨s, _, hs, rfl, hkills⟩

end Pushes

end ToyMQ.Broker
