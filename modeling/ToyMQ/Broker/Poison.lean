import ToyMQ.Broker.Attempts

/-!
# Messages that are never acknowledged

With a dead-letter threshold, a message that channels of the consumer's subscriptions have taken as
often as the threshold says is to be dead-lettered at its next failure. The number that decides is
that of the attempts in the message's in-flight entry, and the entry is made anew, with one attempt,
whenever the goroutine of a subscription reads the message.

`Poison` counts beside a consumer how often each message was taken since its last ack. The count and
what is on its way stay within the attempts (`Poison.Within`) as long as no message is registered
that was taken or is on its way; a message that is registered again after a new subscription starts
from one (`poison_redelivered`).
-/

namespace ToyMQ.Broker

open Lib List Option

/-! ## What a failure counts -/

/-- What stays in flight has at least one attempt more for each snapshot that is handed back. -/
def Consumer.Counted (handed : List ℕ) (c c' : Consumer) : Prop :=
  ∀ (msgID : ℕ) (inf' : Inflight), c'.inflight.lookup msgID = some inf' →
    ∃ inf, c.inflight.lookup msgID = some inf ∧
      inf.attempts + handed.count msgID ≤ inf'.attempts

namespace Consumer.Counted

variable {touched handed : List ℕ} {c c' : Consumer}

/-- Nothing changes and nothing is handed back. -/
theorem refl (c : Consumer) : Counted [] c c := fun _ inf hinf => ⟨inf, hinf, le_rfl⟩

theorem of_verdicts {threshold : ℕ} (h : Verdicts threshold touched c c') (hnodup : touched.Nodup)
    (hhanded : ∀ msgID, handed.count msgID ≤ touched.count msgID) : Counted handed c c' := by
  intro msgID inf' hinf'
  have hcount := hhanded msgID
  by_cases hmem : msgID ∈ touched
  · obtain ⟨inf, hinf, -, hone⟩ := h.kept hinf' hmem
    have honce := nodup_iff_count_le_one.mp hnodup msgID
    exact ⟨inf, hinf, by omega⟩
  · rw [count_eq_zero.mpr hmem] at hcount
    exact ⟨inf', by rw [← h.other msgID hmem, hinf'], by omega⟩

end Consumer.Counted

/-- A sweep hands back at most what it goes over. -/
theorem Consumer.count_redeliveries_le (c : Consumer) (threshold : ℕ) (expired : List ℕ)
    (msgID : ℕ) :
    ((c.redeliveries threshold expired).map Prod.fst).count msgID ≤ expired.count msgID := by
  unfold Consumer.redeliveries
  split_ifs
  · exact Nat.zero_le _
  · induction expired with
    | nil => exact le_rfl
    | cons k expired ih =>
      rw [filterMap_cons]
      split
      · exact ih.trans (count_le_count_cons)
      next task htask =>
        -- What is handed back for a message has its id.
        have hid : task.1 = k := by
          obtain ⟨inf, -, htask⟩ := bind_eq_some_iff.mp htask
          split at htask
          · cases htask
            rfl
          · cases htask
        rw [map_cons, hid, count_cons, count_cons]
        exact Nat.add_le_add_right ih _

namespace Pushes

variable {env : PushEnv} {s : Pushes}

theorem counted_nack (ch msgID : ℕ) :
    Consumer.Counted ((s.nackTask env ch msgID).map Prod.snd) s.feed.delivery.consumer
      (s.feed.delivery.consumer.failed env.threshold (.nack msgID)) := by
  cases hinf : s.feed.delivery.consumer.inflight.lookup msgID with
  | none =>
    obtain ⟨hnack, hfailed⟩ := Consumer.nack_of_none hinf env.threshold
    rw [nackTask, hfailed, hnack]
    exact .refl _
  | some inf =>
    have hnack := (Consumer.nack_of_some hinf env.threshold).1
    -- A snapshot is taken of this message only, and not of one that is killed.
    have htask : (s.nackTask env ch msgID).map Prod.snd = [] ∨
        (s.nackTask env ch msgID).map Prod.snd = [msgID] := by
      rw [nackTask, hnack]
      cases inf.verdict env.threshold with
      | killed => exact .inl rfl
      | redeliver =>
        split_ifs
        · exact .inl rfl
        · exact .inr rfl
    have hcount : ∀ k, ((s.nackTask env ch msgID).map Prod.snd).count k ≤ [msgID].count k :=
      fun k => by
        rcases htask with hnone | hone
        · rw [hnone]
          exact Nat.zero_le _
        · rw [hone]
    exact .of_verdicts (Consumer.verdicts_nack hinf env.threshold) (nodup_singleton msgID)
      hcount

theorem counted_sweep {expired : List ℕ} (hnodup : expired.Nodup) :
    Consumer.Counted ((s.sweepTasks env expired).map Prod.snd) s.feed.delivery.consumer
      (s.feed.delivery.consumer.failed env.threshold (.sweep expired)) := by
  set c := s.feed.delivery.consumer with hc
  have hhanded : (s.sweepTasks env expired).map Prod.snd =
      (c.redeliveries env.threshold expired).map Prod.fst := by
    rw [sweepTasks, List.map_map]
    rfl
  rw [hhanded]
  change Consumer.Counted _ c (c.collectExpired env.threshold expired)
  by_cases hidle : (!c.subscribed || c.paused) = true
  · rw [Consumer.redeliveries, Consumer.collectExpired, if_pos hidle, if_pos hidle]
    exact .refl c
  · exact .of_verdicts (Consumer.verdicts_sweep hidle env.threshold hnodup) hnodup
      (c.count_redeliveries_le _ expired)

/-- The channel belongs to a subscription of the consumer, cancelled or not. -/
def owns (s : Pushes) (ch : ℕ) : Bool :=
  (List.range s.feed.delivery.subs.length).any fun i => s.sendCh i == ch

end Pushes

/-! ## The system -/

/-- A consumer, and how often channels of its subscriptions have taken each message since the last
ack of it. -/
structure Poison where
  pushes : Pushes
  taken : ℕ → ℕ

namespace Poison

def new (id : Bytes) (window : ℕ) : Poison := ⟨.new id window, fun _ => 0⟩

/-- One more snapshot of a message was taken. -/
def take (s : Poison) (msgID : ℕ) : ℕ → ℕ :=
  Function.update s.taken msgID (s.taken msgID + 1)

/-- What has been taken after a step. The counts are those of one process. -/
def takenAfter (env : PushEnv) (s : Poison) : PushAction → ℕ → ℕ
  | .send i =>
    match s.pushes.feed.phases[i]? with
    | some (.sending _ msgID) => s.take msgID
    | _ => s.taken
  | .push j =>
    match s.pushes.tasks[j]? with
    | some (ch, msgID) =>
      if s.pushes.room env ch && s.pushes.owns ch then s.take msgID else s.taken
    | none => s.taken
  | .feed (.deliver (.ack msgID)) =>
    if msgID ∈ s.pushes.feed.delivery.consumer.inflight then Function.update s.taken msgID 0
    else s.taken
  | .feed (.restart _ _ _) => fun _ => 0
  | _ => s.taken

def step (env : PushEnv) (s : Poison) (a : PushAction) : Option Poison :=
  (s.pushes.step env a).map fun pushes => ⟨pushes, s.takenAfter env a⟩

/-- The condition on the steps of a run: a goroutine registers a record only when nothing of its
message was taken since the last ack, and no snapshot of it is on its way. -/
def Untaken (s : Poison) : PushAction → Prop
  | .feed a => ∀ msgID ∈ s.pushes.feed.registers a,
      s.taken msgID = 0 ∧ s.pushes.pending msgID = 0
  | _ => True

instance (s : Poison) : (a : PushAction) → Decidable (s.Untaken a)
  | .feed a => inferInstanceAs (Decidable (∀ msgID ∈ s.pushes.feed.registers a, _))
  | .subscribe _ | .send _ | .nack _ _ | .sweep _ | .push _ | .fill _ | .drain _ =>
    inferInstanceAs (Decidable True)

/-- What was taken of a message in flight, and what is on its way, is within its attempts. -/
def Within (s : Poison) : Prop :=
  ∀ (msgID : ℕ) (inf : Inflight), s.pushes.feed.delivery.consumer.inflight.lookup msgID = some inf →
    s.taken msgID + s.pushes.pending msgID ≤ inf.attempts

variable {env : PushEnv} {s s' : Poison}

theorem take_apply (s : Poison) (k msgID : ℕ) :
    s.take k msgID = s.taken msgID + if k = msgID then 1 else 0 := by
  by_cases hk : k = msgID
  · subst hk
    rw [if_pos rfl]
    exact Function.update_self _ _ _
  · rw [if_neg hk]
    exact Function.update_of_ne (Ne.symm hk) _ _

namespace Within

theorem of_turn (h : s.Within) {r : Option ℕ} {feed : Feed}
    (hturn : s.pushes.feed.delivery.Turn r feed.delivery) (hfeed : s'.pushes.feed = feed)
    (htasks : s'.pushes.tasks = s.pushes.tasks) (htaken : ∀ msgID, s'.taken msgID ≤ s.taken msgID)
    (hreg : ∀ msgID ∈ r, s.taken msgID = 0 ∧ s.pushes.pending msgID = 0) : s'.Within := by
  intro msgID inf hinf
  have hle := htaken msgID
  rw [hfeed] at hinf
  rw [Pushes.pending, hfeed, htasks]
  rcases hturn msgID inf hinf with ⟨hold, hsent⟩ | ⟨hr, hone, hsent⟩
  · have hwithin := h msgID inf hold
    unfold Pushes.pending at hwithin
    omega
  · have hnone := hreg msgID hr
    unfold Pushes.pending at hnone
    omega

theorem of_counted (h : s.Within) {feed : Feed} {tasks : List (ℕ × ℕ)}
    (hcounted : Consumer.Counted (tasks.map Prod.snd) s.pushes.feed.delivery.consumer
      feed.delivery.consumer)
    (hphases : feed.delivery.phases = s.pushes.feed.delivery.phases) :
    (⟨{ s.pushes with feed := feed, tasks := s.pushes.tasks ++ tasks }, s.taken⟩ :
      Poison).Within := by
  intro msgID inf' hinf'
  obtain ⟨inf, hinf, hle⟩ := hcounted msgID inf' hinf'
  have hwithin := h msgID inf hinf
  unfold Pushes.pending Delivery.sending at hwithin ⊢
  dsimp only
  rw [hphases, countP_append]
  rw [List.count, countP_map] at hle
  change inf.attempts + tasks.countP (fun task => task.2 == msgID) ≤ inf'.attempts at hle
  omega

variable {pushes : Pushes}

/-- A goroutine hands its message to a channel. -/
theorem of_send (h : s.Within) {i pos k : ℕ}
    (hi : s.pushes.feed.delivery.phases[i]? = some (.sending pos k))
    (hfeed : pushes.feed.delivery = s.pushes.feed.delivery.setPhase i (.credit pos))
    (htasks : pushes.tasks = s.pushes.tasks) : (⟨pushes, s.take k⟩ : Poison).Within := by
  intro msgID inf hinf
  have hwithin := h msgID inf (by rw [hfeed] at hinf; exact hinf)
  have hsent := Delivery.sending_sent hi msgID
  have htake := s.take_apply k msgID
  unfold Pushes.pending at hwithin ⊢
  dsimp only at hinf ⊢
  rw [htasks, hfeed]
  omega

/-- A snapshot is offered, and taken or not. -/
theorem of_push (h : s.Within) {j : ℕ} {task : ℕ × ℕ} {taken : ℕ → ℕ}
    (hj : s.pushes.tasks[j]? = some task) (hfeed : pushes.feed = s.pushes.feed)
    (htasks : pushes.tasks = s.pushes.tasks.eraseIdx j)
    (htaken : taken = s.take task.2 ∨ taken = s.taken) : (⟨pushes, taken⟩ : Poison).Within := by
  intro msgID inf hinf
  have hwithin := h msgID inf (by rw [← hfeed]; exact hinf)
  have hcount := countP_tasks_eraseIdx hj msgID
  have htake := s.take_apply task.2 msgID
  unfold Pushes.pending at hwithin ⊢
  dsimp only
  rw [htasks, hfeed]
  rcases htaken with rfl | rfl
  · omega
  · omega

theorem takenAfter_feed_le (env : PushEnv) (s : Poison) (a : FeedAction) (msgID : ℕ) :
    s.takenAfter env (.feed a) msgID ≤ s.taken msgID := by
  cases a with
  | deliver a =>
    cases a with
    | ack k =>
      dsimp only [takenAfter]
      split_ifs
      · by_cases hk : msgID = k
        · rw [hk, Function.update_self]
          exact Nat.zero_le _
        · rw [Function.update_of_ne hk]
      · exact le_rfl
    | _ => exact le_rfl
  | restart => exact Nat.zero_le _
  | drop | fail => exact le_rfl

theorem of_step (h : s.Within) {a : PushAction} (hok : s.Untaken a)
    (hstep : s.step env a = some s') : s'.Within := by
  obtain ⟨pushes, hpushes, rfl⟩ := map_eq_some_iff.mp hstep
  cases a with
  | feed a =>
    dsimp only [Pushes.step] at hpushes
    split_ifs at hpushes with hapart
    obtain ⟨feed, hfeed, rfl⟩ := map_eq_some_iff.mp hpushes
    have hturn := Pushes.turn_of_feed hapart hfeed
    have htaken := takenAfter_feed_le env s a
    cases a with
    | restart =>
      intro msgID inf hinf
      dsimp only [Pushes.afterFeed] at hinf
      rw [Feed.inflight_restart hfeed] at hinf
      cases hinf
    | deliver | drop | fail =>
      exact h.of_turn hturn rfl rfl htaken hok
  | subscribe =>
    cases hpushes
    exact h.of_turn (.subscribe (r := none) _ rfl) rfl rfl (fun _ => le_rfl)
      fun _ hr => by cases hr
  | send i =>
    dsimp only [Pushes.step] at hpushes
    split at hpushes
    next pos k hi =>
      have htaken : takenAfter env s (.send i) = s.take k := by
        rw [takenAfter, hi]
      split_ifs at hpushes
      obtain ⟨feed, hfeed, rfl⟩ := map_eq_some_iff.mp hpushes
      rw [htaken]
      exact h.of_send hi (congrArg Feed.delivery (Feed.eq_of_sent hi hfeed)) rfl
    · cases hpushes
  | nack ch msgID =>
    cases hpushes
    exact h.of_counted (Pushes.counted_nack ch msgID) rfl
  | sweep =>
    dsimp only [Pushes.step] at hpushes
    split_ifs at hpushes with hnodup
    cases hpushes
    exact h.of_counted (Pushes.counted_sweep hnodup) rfl
  | push =>
    obtain ⟨task, hj, rfl⟩ := map_eq_some_iff.mp hpushes
    dsimp only [takenAfter]
    rw [hj]
    refine h.of_push hj ?_ rfl ?_
    · split_ifs
      · rfl
      · rfl
    · dsimp only
      split_ifs
      · exact .inl rfl
      · exact .inr rfl
  | fill | drain =>
    dsimp only [Pushes.step] at hpushes
    split_ifs at hpushes
    cases hpushes
    exact h

end Within

theorem within_new (id : Bytes) (window : ℕ) : (new id window).Within := by
  intro msgID inf hinf
  cases hinf

variable {p : Pushes} {msgID : ℕ} {inf : Inflight}

theorem nack_kills (hthreshold : 0 < env.threshold)
    (hinf : p.feed.delivery.consumer.inflight.lookup msgID = some inf)
    (hattempts : env.threshold ≤ inf.attempts) (ch : ℕ) :
    msgID ∈ p.kills env (.nack ch msgID) ∧ p.nackTask env ch msgID = [] := by
  have hverdict : inf.verdict env.threshold = .killed inf := if_pos ⟨hthreshold, hattempts⟩
  obtain ⟨hnack, hfailed⟩ := Consumer.nack_of_some hinf env.threshold
  rw [hverdict] at hnack hfailed
  constructor
  · refine List.mem_toFinset.mpr (mem_filter.mpr ⟨?_, decide_eq_true ?_⟩)
    · exact AList.lookup_isSome.mp (hinf ▸ rfl)
    · rw [hfailed]
      exact fun hmem => (AList.mem_erase.mp hmem).1 rfl
  · rw [Pushes.nackTask, hnack]

theorem sweep_kills {expired : List ℕ} (hthreshold : 0 < env.threshold)
    (hinf : p.feed.delivery.consumer.inflight.lookup msgID = some inf)
    (hattempts : env.threshold ≤ inf.attempts) (hnodup : expired.Nodup) (hmem : msgID ∈ expired)
    (hsubscribed : p.feed.delivery.consumer.subscribed = true)
    (hpaused : p.feed.delivery.consumer.paused = false) :
    msgID ∈ p.kills env (.sweep expired) ∧
      msgID ∉ (p.sweepTasks env expired).map Prod.snd := by
  set c := p.feed.delivery.consumer with hc
  have hverdict : inf.verdict env.threshold = .killed inf := if_pos ⟨hthreshold, hattempts⟩
  have hactive : ¬ (!c.subscribed || c.paused) = true := by simp [hsubscribed, hpaused]
  have hgone : (c.collectExpired env.threshold expired).inflight.lookup msgID = none := by
    rw [Consumer.collectExpired, if_neg hactive,
      Consumer.lookup_foldl_expire_of_mem hnodup hmem hinf, hverdict]
    rfl
  constructor
  · refine List.mem_toFinset.mpr (mem_filter.mpr ⟨?_, decide_eq_true ?_⟩)
    · exact AList.lookup_isSome.mp (hinf ▸ rfl)
    · exact AList.lookup_eq_none.mp hgone
  · intro htask
    rw [Pushes.sweepTasks, List.map_map] at htask
    obtain ⟨⟨k, inf'⟩, hlisted, hk⟩ := List.mem_map.mp htask
    obtain rfl : k = msgID := hk
    rw [← hc, Consumer.redeliveries, if_neg hactive] at hlisted
    obtain ⟨k', -, hback⟩ := mem_filterMap.mp hlisted
    obtain ⟨inf'', hinf'', hback⟩ := bind_eq_some_iff.mp hback
    split at hback
    next inf₁ hredeliver =>
      cases hback
      rw [hinf] at hinf''
      cases hinf''
      rw [hverdict] at hredeliver
      cases hredeliver
    · cases hback

/-- As long as no message is registered that was taken since its last ack or is on its way, a
message in flight that channels of the consumer's subscriptions have taken as often as the threshold
says since its last ack is dead-lettered by the next nack and by the next sweep that finds it
expired, and neither takes a snapshot of it to deliver it again. -/
theorem poison_dead_lettered {id : Bytes} {window : ℕ} {as : List PushAction} {msgID : ℕ}
    (hthreshold : 0 < env.threshold) (hrun : Run (step env) Untaken (new id window) as s)
    (hinflight : msgID ∈ s.pushes.feed.delivery.consumer.inflight)
    (htaken : env.threshold ≤ s.taken msgID) :
    (∀ ch, msgID ∈ s.pushes.kills env (.nack ch msgID) ∧
      s.pushes.nackTask env ch msgID = []) ∧
    ∀ expired : List ℕ, expired.Nodup → msgID ∈ expired →
      s.pushes.feed.delivery.consumer.subscribed = true →
      s.pushes.feed.delivery.consumer.paused = false →
      msgID ∈ s.pushes.kills env (.sweep expired) ∧
        msgID ∉ (s.pushes.sweepTasks env expired).map Prod.snd := by
  have hwithin : s.Within :=
    hrun.invariant (within_new id window) fun _ _ _ hok h hstep => h.of_step hok hstep
  obtain ⟨inf, hinf⟩ := isSome_iff_exists.mp (AList.lookup_isSome.mpr hinflight)
  have hattempts : env.threshold ≤ inf.attempts := by
    have hle := hwithin msgID inf hinf
    omega
  exact ⟨nack_kills hthreshold hinf hattempts,
    fun _ hnodup hmem => sweep_kills hthreshold hinf hattempts hnodup hmem⟩

/-- With a threshold of two, the message is taken twice by one subscription. -/
theorem poison_dead_lettered_nacked :
    ∃ s, Run (step ⟨2, 64, false⟩) Untaken (new [99] 16)
        (Pushes.delivered ++ [.nack 7 0, .push 0]) s ∧
      0 ∈ s.pushes.feed.delivery.consumer.inflight ∧ s.taken 0 = 2 ∧
      0 ∈ s.pushes.kills ⟨2, 64, false⟩ (.nack 7 0) := by
  refine exists_run_of_exec (P := fun s =>
    0 ∈ s.pushes.feed.delivery.consumer.inflight ∧ s.taken 0 = 2) (by decide +kernel) ?_
  rintro s hrun ⟨hinflight, htaken⟩
  exact ⟨hinflight, htaken,
    ((poison_dead_lettered (by decide) hrun hinflight htaken.ge).1 7).1⟩

/-- The message is taken once by each of two subscriptions. The second one registers it anew, so
that a nack finds one attempt and hands it back for another delivery. -/
theorem poison_redelivered :
    ∃ s, Run (step ⟨2, 64, false⟩) (fun _ _ => True) (new [99] 16)
        (Pushes.delivered ++ [.feed (.deliver (.cancel 0)), .feed (.deliver (.stop 0)),
          .feed (.deliver (.advance 0)), .subscribe 8, .feed (.deliver (.cancelPrev 1)),
          .feed (.deliver (.prevDone 1)), .feed (.deliver (.advance 1)),
          .feed (.deliver (.advance 1)), .feed (.deliver (.advance 1)),
          .feed (.deliver (.advance 1)), .feed (.deliver (.advance 1)), .send 1]) s ∧
      0 ∈ s.pushes.feed.delivery.consumer.inflight ∧ s.taken 0 = 2 ∧
      0 ∉ s.pushes.kills ⟨2, 64, false⟩ (.nack 8 0) ∧
      s.pushes.nackTask ⟨2, 64, false⟩ 8 0 = [(8, 0)] := by
  decide +kernel

end Poison

end ToyMQ.Broker
