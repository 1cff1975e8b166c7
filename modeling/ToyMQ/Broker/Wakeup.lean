import ToyMQ.Broker.Window
import ToyMQ.Lib.Signal

/-!
# The wake channel of flow control

`awaitCredit` tests under the consumer's lock whether it may deliver one more message, and otherwise
waits in a select on `wake`, a channel with one slot. An ack, a nack that kills and a sweep that
kills send to it before they release the lock, and `RESUME` afterwards. A rollback frees a slot of
the window and sends nothing.

`Gate` is a `Feed` with that channel, the lock and the goroutines in the select, and
`no_lost_credit_wakeup` says that none of them is blocked, while there is credit, without a token in
the channel or a sender on its way. It rests on there being one delivery goroutine at a time
(`Chain`): nobody else is blocked when one takes the token or rolls a message back.
-/

namespace ToyMQ.Broker

open Lib

/-! ## The system -/

def FeedAction.restarts : FeedAction → Bool
  | .restart _ _ _ => true
  | _ => false

/-- A consumer with its `wake` channel. -/
structure Gate where
  feed : Feed
  /-- There is a token in `wake`. -/
  wake : Bool
  /-- A goroutine that has taken messages out of flight holds the lock, and is about to send. -/
  locked : Bool
  /-- How many goroutines are about to send without the lock, in `setPaused`. -/
  resumes : ℕ
  /-- The subscriptions whose goroutine has found no credit, and is in the select. -/
  parked : Finset ℕ

/-- A step of the system. -/
inductive GateAction where
  /-- What also happens without the channel, under a dead-letter threshold. -/
  | feed (threshold : ℕ) (a : FeedAction)
  /-- `awaitCredit` finds no credit, and goes on to the select. -/
  | park (i : ℕ)
  /-- A goroutine in the select receives the token, and tests again. -/
  | receive (i : ℕ)
  /-- `signalWake` of the goroutine that holds the lock, which it then releases. -/
  | signalLocked
  /-- `signalWake` of a goroutine in `setPaused`. -/
  | signalResume

namespace Gate

/-- A new consumer. -/
def new (id : Bytes) (window : ℕ) : Gate := ⟨.new id window, false, false, 0, ∅⟩

def consumer (s : Gate) : Consumer := s.feed.delivery.consumer

/-- The step of a goroutine at this phase takes the consumer's lock: to read where to start, to
test for credit, or to put a message in flight. -/
def advanceLocks : Phase → Bool
  | .spawned | .credit _ | .holding _ _ => true
  | _ => false

/-- The action takes the consumer's lock. -/
def locks (s : Gate) : FeedAction → Bool
  | .deliver .subscribe | .deliver (.ack _) | .deliver (.nack _) | .deliver (.sweep _)
  | .deliver (.setPaused _) | .deliver .flushOffsets => true
  | .deliver (.advance i) => (s.feed.phases[i]?).any advanceLocks
  | .deliver (.stop i) => (s.feed.phases[i]?).any fun
    | .sending _ _ => true
    | _ => false
  | _ => false

/-- A goroutine in the select goes on only when it receives or when its context is cancelled, and
`awaitCredit` looks at the context nowhere else. -/
def admits (s : Gate) : FeedAction → Bool
  | .deliver (.stop i) => i ∈ s.parked || (s.feed.phases[i]?).all fun
    | .credit _ => false
    | _ => true
  | a => a.actor.all (· ∉ s.parked)

/-- The action takes messages out of flight and goes on to `signalWake`: an ack of a message in
flight, a nack that kills, and a sweep with a message that is dead. -/
def signals (threshold : ℕ) (s : Gate) : FeedAction → Bool
  | .deliver (.ack msgID) => msgID ∈ s.consumer.inflight
  | .deliver (.nack msgID) => s.feed.kills threshold (.deliver (.nack msgID)) ≠ ∅
  | .deliver (.sweep expired) => s.feed.kills threshold (.deliver (.sweep expired)) ≠ ∅
  | _ => false

/-- What becomes of the channel, the lock and the select with an action. A restart begins with a
new consumer. -/
def after (threshold : ℕ) (s : Gate) (a : FeedAction) (feed : Feed) : Gate :=
  match a with
  -- `setPaused` releases the lock before it sends, the others send while they hold it.
  | .deliver (.setPaused false) => { s with feed := feed, resumes := s.resumes + 1 }
  | .deliver (.stop i) => { s with feed := feed, parked := s.parked.erase i }
  | .restart _ _ _ => ⟨feed, false, false, 0, ∅⟩
  | _ => { s with feed := feed, locked := s.locked || s.signals threshold a }

def step (s : Gate) : GateAction → Option Gate
  | .feed threshold a =>
    if (s.locks a && s.locked) = false ∧ s.admits a = true then
      (s.feed.step threshold a).map (s.after threshold a)
    else none
  | .park i =>
    match s.feed.phases[i]? with
    | some (.credit _) =>
      -- The test is made under the lock, so that no sender is between its change and its send.
      if s.locked = false ∧ i ∉ s.parked ∧ s.consumer.hasCredit = false then
        some { s with parked := insert i s.parked }
      else none
    | _ => none
  | .receive i =>
    if i ∈ s.parked ∧ s.wake = true then some { s with wake := false, parked := s.parked.erase i }
    else none
  | .signalLocked => if s.locked then some { s with wake := true, locked := false } else none
  | .signalResume =>
    if 0 < s.resumes then some { s with wake := true, resumes := s.resumes - 1 } else none

/-- A goroutine is about to execute the send in `signalWake`. -/
def Sending (s : Gate) : Prop := s.locked = true ∨ 0 < s.resumes

/-- Who waits for what on the channel. -/
def signal : Signal Gate ℕ where
  blocked s i := i ∈ s.parked
  ready s _ := s.consumer.hasCredit = true
  pending s := s.wake = true ∨ s.Sending

end Gate

/-! ## What a step does to the others -/

namespace Feed

/-- A goroutine that is not moved stays, unless the broker restarts. -/
theorem phase_of_step {s s' : Feed} {threshold : ℕ} {a : FeedAction}
    (h : s.step threshold a = some s') {i : ℕ} {phase : Phase} (hi : s.phases[i]? = some phase)
    (hactor : a.actor ≠ some i) (hrestarts : a.restarts = false) :
    s'.phases[i]? = some phase := by
  have hother : ∀ (d : Delivery) (j : ℕ) (phase' : Phase), d.phases = s.phases → some j ≠ some i →
      (d.setPhase j phase').phases[i]? = some phase := by
    intro d j phase' hd hne
    rw [Delivery.phases_setPhase, List.getElem?_set_ne fun hji => hne (congrArg some hji), hd]
    exact hi
  cases rule_of_step h with
  | write | commit | ack | ackRefused | nack | sweep | setPaused | flushOffsets | drop => exact hi
  | subscribe =>
    have hphases : (s.delivery.subs ++ [(⟨.swapped, false⟩ : Sub)]).map Sub.phase =
        s.phases ++ [.swapped] := List.map_append
    rw [phases, Delivery.phases, hphases,
      List.getElem?_append_left (List.getElem?_eq_some_iff.mp hi).1]
    exact hi
  | cancel =>
    rw [phases, Delivery.phases_cancel]
    exact hi
  | @cancelPrev j => exact hother _ j _ (s.delivery.phases_cancel (j - 1)) hactor
  | goes ha => exact hother _ _ _ rfl (ha ▸ hactor)
  | first | prevDone | start | register | sent | rollback => exact hother _ _ _ rfl hactor
  | restart => cases hrestarts

end Feed

/-! ## What gives credit -/

/-- Credit does not come while nothing leaves flight. -/
theorem Consumer.hasCredit_of_grow {c c' : Consumer} (hpaused : c'.paused = c.paused)
    (hwindow : c'.window = c.window) (hinflight : ∀ k ∈ c.inflight, k ∈ c'.inflight)
    (h : c'.hasCredit = true) : c.hasCredit = true := by
  have hle := Feed.length_keys_le hinflight
  simp only [Consumer.hasCredit, Bool.and_eq_true, Bool.not_eq_true', decide_eq_true_eq] at h ⊢
  exact ⟨hpaused ▸ h.1, hle.trans_lt (hwindow ▸ h.2)⟩

namespace Gate

variable {s s' : Gate} {threshold window : ℕ} {a : FeedAction} {feed : Feed}

/-- Every way in which an action can give credit. -/
inductive CreditStep (threshold : ℕ) (s : Gate) (a : FeedAction) (feed : Feed) : Prop where
  /-- It gives none. -/
  | kept (h : feed.delivery.consumer.hasCredit = true → s.consumer.hasCredit = true)
  | freed (h : s.signals threshold a = true)
  | resumed (ha : a = .deliver (.setPaused false))
  | rolledBack {i pos msgID : ℕ} (ha : a = .deliver (.stop i))
      (hi : s.feed.phases[i]? = some (.sending pos msgID))
  | restarted (ha : a.restarts = true)

/-- Without a kill, a nack or a sweep gives no credit. -/
theorem CreditStep.of_failed {a : DeliveryAction}
    (hkills : s.feed.kills threshold (.deliver a) = ∅)
    (h : (s.consumer.failed threshold a).hasCredit = true) : s.consumer.hasCredit = true := by
  have heq := s.consumer.failed_eq threshold a
  refine Consumer.hasCredit_of_grow (by rw [heq]) (by rw [heq]) (fun k hk => ?_) h
  by_contra hout
  have hmem : k ∈ s.feed.kills threshold (.deliver a) :=
    List.mem_toFinset.mpr (List.mem_filter.mpr ⟨AList.mem_keys.mp hk, decide_eq_true hout⟩)
  rw [hkills] at hmem
  exact Finset.notMem_empty k hmem

theorem creditStep_of_step (h : s.feed.step threshold a = some feed) :
    CreditStep threshold s a feed := by
  cases Feed.rule_of_step h with
  | write | commit | subscribe | first | cancelPrev | prevDone | cancel | goes | start | sent
  | ackRefused | flushOffsets | drop => exact .kept id
  | @register i pos rec =>
    -- A message more in flight gives no credit.
    refine .kept fun hcredit => ?_
    have hregister : (s.consumer.register rec.msgID.toNat rec.payload).hasCredit = true := hcredit
    refine Consumer.hasCredit_of_grow ?_ ?_ (fun k hk => ?_) hregister
    · rfl
    · rfl
    · exact (AList.mem_insert _).mpr (.inr hk)
  | rollback hi => exact .rolledBack rfl hi
  | ack hmem => exact .freed (decide_eq_true hmem)
  | nack msgID =>
    by_cases hkills : s.feed.kills threshold (.deliver (.nack msgID)) = ∅
    · exact .kept (CreditStep.of_failed hkills)
    · exact .freed (decide_eq_true hkills)
  | sweep expired =>
    by_cases hkills : s.feed.kills threshold (.deliver (.sweep expired)) = ∅
    · exact .kept (CreditStep.of_failed hkills)
    · exact .freed (decide_eq_true hkills)
  | setPaused paused =>
    cases paused with
    | false => exact .resumed rfl
    | true => exact .kept fun hcredit => absurd hcredit (by simp [Feed.withConsumer,
        Consumer.hasCredit])
  | restart => exact .restarted rfl

/-! ## The invariant -/

/-- The goroutines in the select wait for credit. -/
structure Ok (window : ℕ) (s : Gate) : Prop where
  bounded : s.feed.delivery.Bounded window
  parked : ∀ i ∈ s.parked, ∃ pos, s.feed.phases[i]? = some (.credit pos)

theorem ok_new (id : Bytes) (window : ℕ) : (new id window).Ok window :=
  ⟨Delivery.bounded_of_idle rfl rfl rfl, fun i hi => absurd hi (Finset.notMem_empty i)⟩

/-- While a goroutine is in the select, no other one runs. -/
theorem Ok.eq_of_running (h : s.Ok window) {i j : ℕ} {phase : Phase} (hi : i ∈ s.parked)
    (hj : s.feed.phases[j]? = some phase) (hphase : phase.Running) : j = i := by
  obtain ⟨pos, hpos⟩ := h.parked i hi
  by_contra hne
  rcases h.bounded.chain.idle hpos trivial (by simp) hj hne with hdone | hwaits
  · exact hphase.2 hdone
  · exact hwaits hphase.1

theorem feed_after (threshold : ℕ) (s : Gate) (a : FeedAction) (feed : Feed) :
    (s.after threshold a feed).feed = feed := by
  unfold after
  split <;> rfl

/-- A goroutine that is in the select after an action was there before, and the action is not a step
of its own. -/
theorem mem_parked_of_after (hadmits : s.admits a = true) {i : ℕ}
    (hi : i ∈ (s.after threshold a feed).parked) :
    i ∈ s.parked ∧ a.actor ≠ some i ∧ a.restarts = false := by
  cases a with
  | restart => exact absurd hi (Finset.notMem_empty i)
  | drop => exact ⟨hi, by simp [FeedAction.actor], rfl⟩
  | fail =>
    refine ⟨hi, fun hj => ?_, rfl⟩
    cases hj
    exact absurd (show i ∈ s.parked from hi) (by simpa [admits, FeedAction.actor] using hadmits)
  | deliver a =>
    cases a with
    | stop =>
      obtain ⟨hne, hmem⟩ := Finset.mem_erase.mp hi
      exact ⟨hmem, fun hj => hne (Option.some.inj hj).symm, rfl⟩
    | cancelPrev | prevDone | advance =>
      refine ⟨hi, fun hj => ?_, rfl⟩
      cases hj
      exact absurd (show i ∈ s.parked from hi) (by simpa [admits, FeedAction.actor] using hadmits)
    | setPaused paused =>
      cases paused with
      | false | true => exact ⟨hi, by simp [FeedAction.actor], rfl⟩
    | write | commit | subscribe | cancel | ack | nack | sweep | flushOffsets | restart =>
      exact ⟨hi, by simp [FeedAction.actor], rfl⟩

theorem Ok.of_feed (h : s.Ok window) (hadmits : s.admits a = true)
    (hstep : s.feed.step threshold a = some feed) : (s.after threshold a feed).Ok window := by
  refine ⟨?_, fun i hi => ?_⟩
  · rw [feed_after]
    exact Feed.bounded_of_step h.bounded hstep
  · obtain ⟨hmem, hactor, hrestarts⟩ := mem_parked_of_after hadmits hi
    obtain ⟨pos, hpos⟩ := h.parked i hmem
    rw [feed_after]
    exact ⟨pos, Feed.phase_of_step hstep hpos hactor hrestarts⟩

theorem locked_of_signals (h : s.signals threshold a = true) :
    (s.after threshold a feed).locked = true := by
  cases a with
  | deliver a =>
    cases a with
    | ack | nack | sweep => exact Bool.or_eq_true_iff.mpr (.inr h)
    | _ => exact absurd h Bool.false_ne_true
  | _ => exact absurd h Bool.false_ne_true

/-- An action takes no token, nor a sender off its way. -/
theorem pending_after (hrestarts : a.restarts = false) (h : signal.pending s) :
    signal.pending (s.after threshold a feed) := by
  unfold after
  split
  · exact .inr (.inr (Nat.succ_pos _))
  · exact h
  · exact absurd hrestarts (by simp [FeedAction.restarts])
  · rcases h with hwake | hlocked | hresumes
    · exact .inl hwake
    · exact .inr (.inl (Bool.or_eq_true_iff.mpr (.inl hlocked)))
    · exact .inr (.inr hresumes)

/-- What the actions of the feed do to those who wait. -/
theorem signal_of_feed (h : s.Ok window) (hadmits : s.admits a = true)
    (hstep : s.feed.step threshold a = some feed) :
    signal.Step s (s.after threshold a feed) := by
  by_cases hrestarts : a.restarts = true
  · refine .taken fun i hi => ?_
    obtain ⟨-, -, hnot⟩ := mem_parked_of_after hadmits hi
    exact absurd (hrestarts.symm.trans hnot) (by decide)
  · have hrestarts' : a.restarts = false := eq_false_of_ne_true hrestarts
    cases creditStep_of_step hstep with
    | kept hkept =>
      refine .quiet (pending_after hrestarts') fun i hi hready => ?_
      have hcredit : (s.after threshold a feed).feed.delivery.consumer.hasCredit = true := hready
      rw [feed_after] at hcredit
      exact ⟨(mem_parked_of_after hadmits hi).1, hkept hcredit⟩
    | freed hsignals => exact .sent (.inr (.inl (locked_of_signals hsignals)))
    | resumed ha =>
      subst ha
      exact .sent (.inr (.inr (Nat.succ_pos _)))
    | @rolledBack j pos msgID ha hj =>
      -- The goroutine that rolls back runs, so that it would be the one in the select.
      refine .taken fun i hi => ?_
      obtain ⟨hmem, hactor, -⟩ := mem_parked_of_after hadmits hi
      have hji : j = i := h.eq_of_running hmem hj ⟨trivial, by simp⟩
      exact absurd (by rw [ha, hji]; rfl) hactor
    | restarted ha => exact absurd ha hrestarts

theorem signal_step {a : GateAction} (h : s.Ok window) (hstep : s.step a = some s') :
    s'.Ok window ∧ signal.Step s s' := by
  cases a with
  | feed =>
    dsimp only [step] at hstep
    split_ifs at hstep with hguard
    obtain ⟨feed, hfeed, rfl⟩ := Option.map_eq_some_iff.mp hstep
    exact ⟨h.of_feed hguard.2 hfeed, signal_of_feed h hguard.2 hfeed⟩
  | park =>
    dsimp only [step] at hstep
    split at hstep
    next pos hi =>
      split_ifs at hstep with hguard
      cases hstep
      refine ⟨⟨h.bounded, fun j hj => ?_⟩, .taken fun j _ hready => ?_⟩
      · rcases Finset.mem_insert.mp hj with rfl | hj
        · exact ⟨pos, hi⟩
        · exact h.parked j hj
      · exact absurd (hguard.2.2.symm.trans hready) (by decide)
    · cases hstep
  | receive =>
    dsimp only [step] at hstep
    split_ifs at hstep with hguard
    cases hstep
    refine ⟨⟨h.bounded, fun j hj => h.parked j (Finset.mem_of_mem_erase hj)⟩, .taken fun j hj => ?_⟩
    -- Nobody else is in the select.
    obtain ⟨hne, hmem⟩ := Finset.mem_erase.mp hj
    obtain ⟨pos, hpos⟩ := h.parked j hmem
    exact absurd (h.eq_of_running hguard.1 hpos ⟨trivial, by simp⟩) hne
  | signalLocked | signalResume =>
    dsimp only [step] at hstep
    split_ifs at hstep
    cases hstep
    exact ⟨⟨h.bounded, h.parked⟩, .sent (.inl rfl)⟩

/-- Whatever happens to a consumer, its delivery goroutine is in the select with a free slot in the
window and no pause only while a token is in `wake` or a goroutine is about to send one. -/
theorem no_lost_credit_wakeup {id : Bytes} {as : List GateAction}
    (hrun : Run step (fun _ _ => True) (new id window) as s) {i : ℕ} (hi : i ∈ s.parked)
    (hpaused : s.consumer.paused = false)
    (hwindow : s.consumer.inflight.keys.length < s.consumer.window) :
    s.wake = true ∨ s.Sending := by
  have hawake : signal.Awake (new id window) := fun j hj => absurd hj (Finset.notMem_empty j)
  have hcredit : s.consumer.hasCredit = true := by simp [Consumer.hasCredit, hpaused, hwindow]
  exact Signal.awake_of_run hrun (ok_new id window) hawake
    (fun _ _ _ _ hok hstep => signal_step hok hstep) i hi hcredit

/-- A window of one. The goroutine parks behind the first message; that is acked during a pause, so
that the token is taken in vain, and `RESUME` is about to send the next one. -/
def resumedAfterAck : List GateAction :=
  ([.write ⟨0, 0, [], [97], 0, 0⟩, .commit 1, .subscribe, .cancelPrev 0, .advance 0, .advance 0,
    .advance 0, .advance 0, .advance 0, .advance 0].map fun a => .feed 3 (.deliver a)) ++
  [.park 0, .feed 3 (.deliver (.setPaused true)), .feed 3 (.deliver (.ack 0)), .signalLocked,
    .receive 0, .park 0, .feed 3 (.deliver (.setPaused false))]

theorem no_lost_credit_wakeup_resumed :
    ∃ s, Run step (fun _ _ => True) (new [99] 1) resumedAfterAck s ∧
      (0 ∈ s.parked ∧ s.consumer.paused = false ∧
        s.consumer.inflight.keys.length < s.consumer.window) ∧
      (s.wake = true ∨ s.Sending) := by
  refine exists_run_of_exec (P := fun s => 0 ∈ s.parked ∧ s.consumer.paused = false ∧
    s.consumer.inflight.keys.length < s.consumer.window) (by decide +kernel) ?_
  rintro s hrun ⟨hparked, hpaused, hwindow⟩
  exact ⟨⟨hparked, hpaused, hwindow⟩, no_lost_credit_wakeup hrun hparked hpaused hwindow⟩

end Gate

end ToyMQ.Broker
