import ToyMQ.Lib.Run
import ToyMQ.Broker.AckedSet
import ToyMQ.Server.Standalone

/-!
# The paused flag across sessions

`PAUSE` and `RESUME` of a session set the flag of the consumers behind its current subscriptions.
The flag outlives subscriptions and sessions: `subscribe` does not reset it, and a session keeps its
handles when another one has taken over its subscriptions.

`Pausing` is a broker with its sessions, which subscribe and pause their partitions one after the
other. Beside the state stands, for each consumer, the session that owns it and whether that session
has sent `PAUSE` since. A consumer is not paused as long as it is taken over unpaused and paused
only by its owner (`fresh_subscription_unpaused`); otherwise it can be (`reconnect_starts_paused`).
-/

namespace ToyMQ.Server

open Lib Broker List Option

/-! ## Subscribing and pausing at one partition -/

/-- `subscribe` of a partition: the consumer is there afterwards, and subscribed. -/
def openAt (n : Node) (sub : Subscription) : Option Node :=
  (n.partition? sub.topic sub.partition).map fun p =>
    n.setPartition sub.topic sub.partition (p.setConsumer sub.consumerID
      { p.getOrCreateConsumer sub.consumerID with subscribed := true })

/-- `SetPaused` of a subscription. -/
def pauseAt (n : Node) (sub : Subscription) (paused : Bool) : Node :=
  (n.modifyConsumer sub.topic sub.partition sub.consumerID
    fun _ con => some { con with paused := paused }).getD n

def consumerAt (n : Node) (sub : Subscription) : Option Consumer :=
  n.consumer? sub.topic sub.partition sub.consumerID

/-- Whether the consumer behind a subscription is paused. -/
def pausedAt (n : Node) (sub : Subscription) : Bool := (consumerAt n sub).any Consumer.paused

variable {n n' : Node} {sub : Subscription} {p : Partition} {i : ℕ} {topic : Bytes}

theorem consumerAt_setConsumer (hp : n.partition? sub.topic sub.partition = some p) (c : Consumer)
    (sub' : Subscription) :
    consumerAt (n.setPartition sub.topic sub.partition (p.setConsumer sub.consumerID c)) sub' =
      if sub' = sub then some c else consumerAt n sub' := by
  unfold consumerAt Node.consumer?
  rw [Node.partition?_setPartition hp]
  obtain ⟨topic, partition, consumerID⟩ := sub
  obtain ⟨topic', partition', consumerID'⟩ := sub'
  by_cases hplace : topic' = topic ∧ partition' = partition
  · obtain ⟨rfl, rfl⟩ := hplace
    rw [if_pos ⟨rfl, rfl⟩, hp, bind_some, bind_some, Partition.setConsumer]
    by_cases hid : consumerID' = consumerID
    · rw [hid, AList.lookup_insert, if_pos rfl]
    · rw [AList.lookup_insert_ne hid, if_neg fun h => hid (Subscription.mk.inj h).2.2]
  · have hne : Subscription.mk topic' partition' consumerID' ≠ ⟨topic, partition, consumerID⟩ := by
      intro h
      cases h
      exact hplace ⟨rfl, rfl⟩
    rw [if_neg hplace, if_neg hne]

theorem consumerAt_of_partition? (hp : n.partition? sub.topic sub.partition = some p) :
    consumerAt n sub = p.consumers.lookup sub.consumerID := by
  unfold consumerAt Node.consumer?
  rw [hp, bind_some]

theorem consumerAt_modifyConsumer {f : Partition → Consumer → Option Consumer}
    (h : n.modifyConsumer sub.topic sub.partition sub.consumerID f = some n') :
    ∃ p c c', consumerAt n sub = some c ∧ f p c = some c' ∧
      ∀ sub', consumerAt n' sub' = if sub' = sub then some c' else consumerAt n sub' := by
  obtain ⟨p, hp, h⟩ := bind_eq_some_iff.mp h
  obtain ⟨c, hc, h⟩ := bind_eq_some_iff.mp h
  obtain ⟨c', hf, rfl⟩ := map_eq_some_iff.mp h
  exact ⟨p, c, c', (consumerAt_of_partition? hp).trans hc, hf, consumerAt_setConsumer hp c'⟩

theorem consumerAt_openAt (h : openAt n sub = some n') :
    ∃ c, c.subscribed = true ∧ c.paused = pausedAt n sub ∧
      ∀ sub', consumerAt n' sub' = if sub' = sub then some c else consumerAt n sub' := by
  obtain ⟨p, hp, rfl⟩ := map_eq_some_iff.mp h
  refine ⟨{ p.getOrCreateConsumer sub.consumerID with subscribed := true }, rfl, ?_,
    consumerAt_setConsumer hp _⟩
  unfold pausedAt Partition.getOrCreateConsumer
  rw [consumerAt_of_partition? hp]
  cases p.consumers.lookup sub.consumerID with
  | none => rfl
  | some => rfl

theorem consumerAt_pauseAt (n : Node) (sub : Subscription) (paused : Bool) (sub' : Subscription) :
    consumerAt (pauseAt n sub paused) sub' =
      if sub' = sub then (consumerAt n sub).map fun c => { c with paused := paused }
      else consumerAt n sub' := by
  unfold pauseAt
  cases h : n.modifyConsumer sub.topic sub.partition sub.consumerID
      fun _ con => some { con with paused := paused } with
  | some n' =>
    obtain ⟨_, c, c', hc, hf, hat⟩ := consumerAt_modifyConsumer h
    cases hf
    rw [getD_some, hat, hc, map_some]
  | none =>
    have hnone : consumerAt n sub = none := by
      rw [consumerAt, Node.consumer?, bind_eq_none_iff]
      intro p hp
      have hmap := bind_eq_none_iff.mp (bind_eq_none_iff.mp h p hp)
      cases hc : p.consumers.lookup sub.consumerID with
      | none => rfl
      | some c => cases hmap c hc
    rw [getD_none, hnone, map_none]
    by_cases hsub : sub' = sub
    · rw [if_pos hsub, hsub, hnone]
    · rw [if_neg hsub]

theorem standalone_setPaused (text : BrokerError → Bytes) :
    (standalone text).setPaused = pauseAt := rfl

theorem openAt_eq_withConsumer (hp : n.partition? sub.topic sub.partition = some p) :
    openAt n sub = some (n.withConsumer sub.topic sub.partition sub.consumerID fun con =>
      .ok ({ con with subscribed := con.subscribed || true }, ())).1 := by
  obtain ⟨t, ht, hi⟩ := bind_eq_some_iff.mp hp
  have hopened : n.getOrCreateTopic sub.topic = (n, t) := by
    unfold Node.getOrCreateTopic
    rw [ht]
  have hat : t.at (sub.partition : ℤ) = .ok p := Topic.at_eq_ok_iff.mpr ⟨by omega, hi⟩
  unfold openAt Node.withConsumer Node.partitionAt
  rw [hp, hopened, map_some]
  rw [hat]
  simp only [Bool.or_true, Int.toNat_natCast]

theorem partition?_of_selected {c : SubCommand} (hi : i ∈ (selected n c).2) :
    ∃ p, (selected n c).1.partition? c.topic i = some p := by
  have hread (i : ℕ) : (n.getOrCreateTopic c.topic).1.partition? c.topic i =
      (n.getOrCreateTopic c.topic).2.partitions[i]? := by
    unfold Node.partition?
    rw [n.lookup_getOrCreateTopic, bind_some]
  unfold selected at hi ⊢
  rw [hread]
  split_ifs at hi
  · exact ⟨_, getElem?_eq_getElem (mem_range.mp hi)⟩
  · obtain ⟨p, hp, rfl⟩ := map_eq_some_iff.mp (mem_toList.mp hi)
    exact ⟨p, (Topic.at_eq_ok_iff.mp (ok_of_toOption hp)).2⟩

theorem partition?_openAt (h : openAt n sub = some n')
    (hthere : ∃ p, n.partition? topic i = some p) : ∃ p, n'.partition? topic i = some p := by
  obtain ⟨p, hp, rfl⟩ := map_eq_some_iff.mp h
  rw [Node.partition?_setPartition hp]
  split_ifs
  · exact ⟨_, rfl⟩
  · exact hthere

theorem foldlM_openAt {consumerID : Bytes} {l : List ℕ}
    (hthere : ∀ i ∈ l, ∃ p, n.partition? topic i = some p) :
    (l.map fun i => Subscription.mk topic i consumerID).foldlM openAt n =
      some (l.foldl (fun n i => (n.withConsumer topic i consumerID fun con =>
        .ok ({ con with subscribed := con.subscribed || true }, ())).1) n) := by
  induction l generalizing n with
  | nil => rfl
  | cons i l ih =>
    obtain ⟨p, hp⟩ := hthere i mem_cons_self
    have hopen : openAt n ⟨topic, i, consumerID⟩ = some _ := openAt_eq_withConsumer hp
    rw [map_cons, foldlM_cons, hopen, foldl_cons]
    exact ih fun j hj => partition?_openAt hopen (hthere j (mem_cons_of_mem i hj))

/-- They subscribe to one partition at a time. -/
theorem subscribe_eq_foldlM (n : Node) (c : SubCommand) :
    (subscribe n c true).2.foldlM openAt (selected n c).1 = some (subscribe n c true).1 := by
  unfold subscribe
  dsimp only
  rw [foldlM_openAt fun _ => partition?_of_selected, bind_pure_comp, List.map_eq_map,
    foldl_map]

/-! ## What leaves the flag alone -/

theorem flags_settle (c : Consumer) (msgID : ℕ) (v : Verdict) :
    (c.settle msgID v).paused = c.paused ∧ (c.settle msgID v).subscribed = c.subscribed := by
  cases v with
  | killed | redeliver => exact ⟨rfl, rfl⟩

theorem flags_foldl_expire (threshold : ℕ) (expired : List ℕ) (c : Consumer) :
    (expired.foldl (Consumer.expire threshold) c).paused = c.paused ∧
      (expired.foldl (Consumer.expire threshold) c).subscribed = c.subscribed := by
  induction expired generalizing c with
  | nil => exact ⟨rfl, rfl⟩
  | cons msgID expired ih =>
    have hexpire : (c.expire threshold msgID).paused = c.paused ∧
        (c.expire threshold msgID).subscribed = c.subscribed := by
      unfold Consumer.expire
      split
      · exact ⟨rfl, rfl⟩
      · exact flags_settle c msgID _
    rw [foldl_cons, ← hexpire.1, ← hexpire.2]
    exact ih _

theorem flags_of_step {c c' : Consumer} {a : AckAction} (h : a.step c = some c') :
    c'.paused = c.paused ∧ c'.subscribed = c.subscribed := by
  cases a with
  | deliver | rollback =>
    cases h
    exact ⟨rfl, rfl⟩
  | nack msgID =>
    obtain ⟨⟨c₁, v⟩, hnack, rfl⟩ := map_eq_some_iff.mp h
    unfold Consumer.nackOrKill at hnack
    split at hnack
    · cases hnack
    · cases hnack
      exact flags_settle c msgID _
  | sweep threshold expired =>
    cases h
    unfold Consumer.collectExpired
    split_ifs
    · exact ⟨rfl, rfl⟩
    · exact flags_foldl_expire threshold expired c
  | ack =>
    have hack := ok_of_toOption h
    unfold Consumer.ack64 at hack
    split_ifs at hack
    cases hack
    exact ⟨rfl, rfl⟩

/-! ## The system -/

/-- What the reader of a session is in the middle of. -/
inductive Handling where
  | reading
  /-- `handleSub`, with the subscriptions opened and those left to open. -/
  | subscribing (opened left : List Subscription)
  /-- `handlePauseResume`, with the handles left. -/
  | pausing (left : List Subscription) (paused : Bool)
deriving DecidableEq, Repr

structure SessionState where
  /-- `currentSubs`. -/
  subs : List Subscription
  handling : Handling
  closed : Bool
deriving DecidableEq, Repr

def SessionState.opensNext (st : SessionState) : Option Subscription :=
  match st.handling with
  | .subscribing _ (sub :: _) => some sub
  | _ => none

def SessionState.pausesNext (st : SessionState) : Option Subscription :=
  match st.handling with
  | .pausing (sub :: _) true => some sub
  | _ => none

/-- A broker with its sessions. -/
structure Pausing where
  node : Node
  sessions : ℕ → SessionState
  /-- The session whose subscription is the latest of a consumer. -/
  owner : Subscription → Option ℕ
  /-- Whether that session has sent `PAUSE` since it subscribed. -/
  told : Subscription → Bool

inductive PauseAction where
  /-- A topic is opened. -/
  | topic (name : Bytes)
  /-- A delivery, an ack, a nack or a sweep at a consumer. -/
  | serve (sub : Subscription) (a : AckAction)
  /-- A session reads a `SUB`, for these subscriptions; for none if it is refused. -/
  | sub (i : ℕ) (subs : List Subscription)
  | openNext (i : ℕ)
  | subscribed (i : ℕ)
  /-- A session reads a `PAUSE` or a `RESUME`. -/
  | pause (i : ℕ) (paused : Bool)
  | setNext (i : ℕ)
  | answered (i : ℕ)
  | disconnect (i : ℕ)
deriving DecidableEq, Repr

namespace Pausing

/-- A broker before the first session. -/
def new (config : Config) : Pausing :=
  ⟨.new config, fun _ => ⟨[], .reading, false⟩, fun _ => none, fun _ => false⟩

def setSession (s : Pausing) (i : ℕ) (st : SessionState) : Pausing :=
  { s with sessions := Function.update s.sessions i st }

/-- The session reads its next command. -/
def ready (s : Pausing) (i : ℕ) : Bool :=
  (s.sessions i).handling == .reading && !(s.sessions i).closed

/-- `told` once a session has sent a `PAUSE` or a `RESUME`. -/
def toldAfter (s : Pausing) (i : ℕ) (paused : Bool) (sub : Subscription) : Bool :=
  s.told sub || (paused && decide (sub ∈ (s.sessions i).subs ∧ s.owner sub = some i))

def step (s : Pausing) : PauseAction → Option Pausing
  | .topic name => some { s with node := (s.node.getOrCreateTopic name).1 }
  | .serve sub a =>
    (s.node.modifyConsumer sub.topic sub.partition sub.consumerID fun _ c => a.step c).map
      fun n => { s with node := n }
  | .sub i subs =>
    -- The subscriptions that the session has end first.
    if s.ready i then some (s.setSession i ⟨[], .subscribing [] subs, false⟩) else none
  | .openNext i =>
    match (s.sessions i).handling with
    | .subscribing opened (sub :: left) =>
      (openAt s.node sub).map fun n =>
        { s.setSession i { s.sessions i with handling := .subscribing (opened ++ [sub]) left } with
          node := n
          owner := Function.update s.owner sub (some i)
          told := Function.update s.told sub false }
    | _ => none
  | .subscribed i =>
    match (s.sessions i).handling with
    | .subscribing opened [] =>
      some (s.setSession i { s.sessions i with subs := opened, handling := .reading })
    | _ => none
  | .pause i paused =>
    if s.ready i then
      -- Without a subscription the answer is `NO_SUB`, which is the case of an empty list.
      some { s.setSession i
          { s.sessions i with handling := .pausing (s.sessions i).subs paused } with
        told := s.toldAfter i paused }
    else none
  | .setNext i =>
    match (s.sessions i).handling with
    | .pausing (sub :: left) paused =>
      some { s.setSession i { s.sessions i with handling := .pausing left paused } with
        node := pauseAt s.node sub paused }
    | _ => none
  | .answered i =>
    match (s.sessions i).handling with
    | .pausing [] _ => some (s.setSession i { s.sessions i with handling := .reading })
    | _ => none
  | .disconnect i =>
    if s.ready i then some (s.setSession i ⟨[], .reading, true⟩) else none

/-- The condition on the steps of a run: a consumer is subscribed to while it is not paused, and it
is paused only by the session that owns it. -/
def Fair (s : Pausing) : PauseAction → Prop
  | .openNext i => ∀ sub ∈ (s.sessions i).opensNext, pausedAt s.node sub = false
  | .setNext i => ∀ sub ∈ (s.sessions i).pausesNext, s.owner sub = some i
  | _ => True

instance (s : Pausing) : DecidablePred s.Fair := fun a =>
  match a with
  | .openNext i =>
    inferInstanceAs (Decidable (∀ sub ∈ (s.sessions i).opensNext, pausedAt s.node sub = false))
  | .setNext i =>
    inferInstanceAs (Decidable (∀ sub ∈ (s.sessions i).pausesNext, s.owner sub = some i))
  | .topic _ | .serve _ _ | .sub _ _ | .subscribed _ | .pause _ _ | .answered _ | .disconnect _ =>
    .isTrue trivial

/-- A session that is about to pause a consumer that it owns has said so. -/
def Announced (s : Pausing) (i : ℕ) (handling : Handling) : Prop :=
  ∀ left, handling = .pausing left true →
    ∀ sub ∈ left, s.owner sub = some i → s.told sub = true

/-- The invariant. -/
structure Ok (s : Pausing) : Prop where
  /-- A paused consumer was paused by its owner. -/
  flags : ∀ sub, pausedAt s.node sub = true → s.told sub = true
  /-- A consumer that is owned is there and subscribed. -/
  owned : ∀ sub i, s.owner sub = some i →
    ∃ c, consumerAt s.node sub = some c ∧ c.subscribed = true
  announced : ∀ i, s.Announced i (s.sessions i).handling

theorem ok_new (config : Config) : (new config).Ok where
  flags sub h := by
    have hnone : consumerAt (Node.new config) sub = none := rfl
    rw [pausedAt, new, hnone] at h
    cases h
  owned sub i h := by cases h
  announced i left h := by cases h

namespace Ok

variable {s s' : Pausing}

variable {i : ℕ} {n : Node} {sub : Subscription}

/-- A session goes on. -/
theorem setSession (h : s.Ok) {st : SessionState} (hst : s.Announced i st.handling) :
    (s.setSession i st).Ok where
  flags := h.flags
  owned := h.owned
  announced j := by
    change s.Announced j (Function.update s.sessions i st j).handling
    by_cases hj : j = i
    · rw [hj, Function.update_self]
      exact hst
    · rw [Function.update_of_ne hj]
      exact h.announced j

/-- A delivery, an ack, a nack or a sweep. -/
theorem serve (h : s.Ok) {a : AckAction}
    (hserve : s.node.modifyConsumer sub.topic sub.partition sub.consumerID
      (fun _ c => a.step c) = some n) : Ok { s with node := n } := by
  obtain ⟨_, c, c', hc, hstep, hat⟩ := consumerAt_modifyConsumer hserve
  obtain ⟨hpaused, hsubscribed⟩ := flags_of_step hstep
  refine ⟨fun sub' hflag => h.flags sub' ?_, fun sub' i howner => ?_, h.announced⟩
  · rw [pausedAt, hat] at hflag
    split_ifs at hflag with hsub
    · rw [hsub, pausedAt, hc]
      exact hpaused.symm.trans hflag
    · exact hflag
  · obtain ⟨c₀, hc₀, hsubscribed₀⟩ := h.owned sub' i howner
    rw [hat]
    split_ifs with hsub
    · rw [hsub, hc] at hc₀
      cases hc₀
      exact ⟨c', rfl, hsubscribed.trans hsubscribed₀⟩
    · exact ⟨c₀, hc₀, hsubscribed₀⟩

theorem openNext (h : s.Ok) {opened left : List Subscription}
    (hhandling : (s.sessions i).handling = .subscribing opened (sub :: left))
    (hopen : openAt s.node sub = some n) (hunpaused : pausedAt s.node sub = false) :
    Ok { s with
      node := n
      owner := Function.update s.owner sub (some i)
      told := Function.update s.told sub false } := by
  obtain ⟨c, hsubscribed, hpaused, hat⟩ := consumerAt_openAt hopen
  refine ⟨fun sub' hflag => ?_, fun sub' j howner => ?_, fun j left' hj sub' hmem howner => ?_⟩
  · rw [pausedAt, hat] at hflag
    split_ifs at hflag with hsub
    · have hcontra : c.paused = true := hflag
      rw [hpaused, hunpaused] at hcontra
      cases hcontra
    · exact (Function.update_of_ne hsub _ _).trans (h.flags sub' hflag)
  · dsimp only at howner ⊢
    rw [hat]
    split_ifs with hsub
    · exact ⟨c, rfl, hsubscribed⟩
    · rw [Function.update_of_ne hsub] at howner
      exact h.owned sub' j howner
  · dsimp only at howner ⊢
    by_cases hsub : sub' = sub
    · -- The session that opens the subscription is not in the middle of a `PAUSE`.
      rw [hsub, Function.update_self] at howner
      cases howner
      cases hhandling.symm.trans hj
    · rw [Function.update_of_ne hsub] at howner ⊢
      exact h.announced j left' hj sub' hmem howner

/-- A `PAUSE` or a `RESUME` is sent. -/
theorem pause (h : s.Ok) (i : ℕ) (paused : Bool) : Ok { s with told := s.toldAfter i paused } := by
  have hgrows (sub : Subscription) (hsub : s.told sub = true) :
      s.toldAfter i paused sub = true := by
    rw [toldAfter, hsub, Bool.true_or]
  exact ⟨fun sub hflag => hgrows sub (h.flags sub hflag), h.owned,
    fun j left hj sub hmem howner => hgrows sub (h.announced j left hj sub hmem howner)⟩

theorem setNext (h : s.Ok) {left : List Subscription} {paused : Bool}
    (hhandling : (s.sessions i).handling = .pausing (sub :: left) paused)
    (howner : paused = true → s.owner sub = some i) :
    Ok { s with node := pauseAt s.node sub paused } := by
  have hat := consumerAt_pauseAt s.node sub paused
  refine ⟨fun sub' hflag => ?_, fun sub' j howner' => ?_, h.announced⟩
  · rw [pausedAt, hat] at hflag
    split_ifs at hflag with hsub
    · obtain ⟨c, hc⟩ : ∃ c, consumerAt s.node sub = some c := by
        cases hc : consumerAt s.node sub with
        | none =>
          rw [hc] at hflag
          cases hflag
        | some c => exact ⟨c, rfl⟩
      rw [hc] at hflag
      have hpause : paused = true := hflag
      rw [hpause] at hhandling
      rw [hsub]
      exact h.announced i _ hhandling sub mem_cons_self (howner hpause)
    · exact h.flags sub' hflag
  · obtain ⟨c, hc, hsubscribed⟩ := h.owned sub' j howner'
    rw [hat]
    split_ifs with hsub
    · rw [← hsub, hc]
      exact ⟨_, rfl, hsubscribed⟩
    · exact ⟨c, hc, hsubscribed⟩

theorem of_step {a : PauseAction} (hfair : s.Fair a) (hstep : s.step a = some s') (h : s.Ok) :
    s'.Ok := by
  cases a with
  | topic name =>
    cases hstep
    have hsame : consumerAt (s.node.getOrCreateTopic name).1 = consumerAt s.node := by
      funext sub
      rw [consumerAt, Node.consumer?_getOrCreateTopic, consumerAt]
    refine ⟨fun sub hflag => h.flags sub ?_, fun sub i howner => ?_, h.announced⟩
    · rwa [pausedAt, hsame] at hflag
    · rw [hsame]
      exact h.owned sub i howner
  | serve =>
    obtain ⟨n, hserve, rfl⟩ := map_eq_some_iff.mp hstep
    exact h.serve hserve
  | sub | disconnect =>
    simp only [step] at hstep
    split_ifs at hstep
    cases hstep
    exact h.setSession fun left hleft => by cases hleft
  | openNext =>
    simp only [step] at hstep
    split at hstep
    case h_1 opened sub left hhandling =>
      obtain ⟨n, hopen, rfl⟩ := map_eq_some_iff.mp hstep
      have hunpaused : pausedAt s.node sub = false := by
        refine hfair sub ?_
        rw [SessionState.opensNext, hhandling]
        rfl
      exact (h.openNext hhandling hopen hunpaused).setSession fun left hleft => by cases hleft
    case h_2 => cases hstep
  | subscribed | answered =>
    simp only [step] at hstep
    split at hstep
    · cases hstep
      exact h.setSession fun left hleft => by cases hleft
    · cases hstep
  | pause i paused =>
    simp only [step] at hstep
    split_ifs at hstep
    cases hstep
    refine (h.pause i paused).setSession fun left hleft sub hmem howner => ?_
    cases hleft
    have hsent : (sub ∈ (s.sessions i).subs ∧ s.owner sub = some i) := ⟨hmem, howner⟩
    change s.toldAfter i true sub = true
    rw [toldAfter, decide_eq_true hsent, Bool.true_and, Bool.or_true]
  | setNext i =>
    simp only [step] at hstep
    split at hstep
    case h_1 sub left paused hhandling =>
      cases hstep
      have hnext : paused = true → s.owner sub = some i := by
        intro hpause
        refine hfair sub ?_
        rw [SessionState.pausesNext, hhandling, hpause]
        rfl
      refine (h.setNext hhandling hnext).setSession fun left' hleft sub' hmem => ?_
      cases hleft
      exact h.announced i _ hhandling sub' (mem_cons_of_mem sub hmem)
    case h_2 => cases hstep

end Ok

/-- In a run in which consumers are subscribed to while they are not paused, and paused only by the
session that owns them, a consumer is not paused from when it is subscribed to until its owner sends
`PAUSE`: a delivery waits for nothing but the window, and a sweep goes over the messages. -/
theorem fresh_subscription_unpaused {config : Config} {as : List PauseAction} {s : Pausing}
    (hrun : Run step Fair (new config) as s) {sub : Subscription} {i : ℕ}
    (howner : s.owner sub = some i) (htold : s.told sub = false) :
    ∃ c, consumerAt s.node sub = some c ∧ c.paused = false ∧
      c.hasCredit = decide (c.inflight.keys.length < c.window) ∧
      ∀ threshold expired, c.collectExpired threshold expired =
        expired.foldl (Consumer.expire threshold) c := by
  have hok : s.Ok := hrun.invariant (ok_new config) fun _ _ _ hfair h hstep => h.of_step hfair hstep
  obtain ⟨c, hc, hsubscribed⟩ := hok.owned sub i howner
  have hpaused : c.paused = false := by
    by_contra hflag
    have hat : pausedAt s.node sub = true := by
      rw [pausedAt, hc]
      exact Bool.eq_true_of_not_eq_false hflag
    rw [hok.flags sub hat] at htold
    cases htold
  refine ⟨c, hc, hpaused, ?_, fun threshold expired => ?_⟩
  · rw [Consumer.hasCredit, hpaused, Bool.not_false, Bool.true_and]
  · rw [Consumer.collectExpired, hsubscribed, hpaused]
    rfl

/-- The steps of a `SUB` of one partition. -/
def subSteps (i : ℕ) (sub : Subscription) : List PauseAction :=
  [.sub i [sub], .openNext i, .subscribed i]

/-- The steps of a `PAUSE` or a `RESUME` with one handle. -/
def pauseSteps (i : ℕ) (paused : Bool) : List PauseAction :=
  [.pause i paused, .setNext i, .answered i]

/-- A session that pauses and resumes before it disconnects. -/
theorem fresh_subscription_unpaused_resumed :
    let sub : Subscription := ⟨[97], 0, [98]⟩
    ∃ s, Run step Fair (new ⟨0, 1, 1, 0⟩) ([.topic [97]] ++ subSteps 0 sub ++ pauseSteps 0 true ++
        pauseSteps 0 false ++ [.disconnect 0] ++ subSteps 1 sub) s ∧
      s.owner sub = some 1 ∧ s.told sub = false ∧
      ∃ c, consumerAt s.node sub = some c ∧ c.paused = false := by
  intro sub
  refine exists_run_of_exec (P := fun s => s.owner sub = some 1 ∧ s.told sub = false)
    (by decide +kernel) ?_
  rintro s hrun ⟨howner, htold⟩
  obtain ⟨c, hc, hpaused, -⟩ := fresh_subscription_unpaused hrun howner htold
  exact ⟨howner, htold, c, hc, hpaused⟩

/-- The consumer of a subscription is paused, and gets nothing delivered, though the session that
owns it has not sent `PAUSE`. -/
def Stalled (s : Pausing) (sub : Subscription) (i : ℕ) : Prop :=
  s.owner sub = some i ∧ s.told sub = false ∧
    ∃ c, consumerAt s.node sub = some c ∧ c.paused = true ∧ c.hasCredit = false

/-- A subscription starts paused when the session before it disconnected without a `RESUME`; and it
is paused by a session that it took the consumer over from. -/
theorem reconnect_starts_paused :
    let sub : Subscription := ⟨[97], 0, [98]⟩
    let left := [.topic [97]] ++ subSteps 0 sub ++ pauseSteps 0 true ++ [.disconnect 0] ++
      subSteps 1 sub
    let superseded := [.topic [97]] ++ subSteps 0 sub ++ subSteps 1 sub ++ pauseSteps 0 true
    (∃ s, Run step (fun _ _ => True) (new ⟨0, 1, 1, 0⟩) left s ∧ s.Stalled sub 1) ∧
      ∃ s, Run step (fun _ _ => True) (new ⟨0, 1, 1, 0⟩) superseded s ∧ s.Stalled sub 1 := by
  intro sub left superseded
  unfold Stalled
  exact ⟨by decide +kernel, by decide +kernel⟩

end Pausing

end ToyMQ.Server
