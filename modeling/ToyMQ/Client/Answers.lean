import ToyMQ.Client.Link
import ToyMQ.Replication.Convergence
import ToyMQ.Server.Modes

/-!
# Answers and the topic of a session

An `ACK` or `NACK` carries no topic. The session puts in the topic of its latest subscription, so
that the answer to a message of the topic before settles the message of the new topic with the same
partition and id (`answer_settles_other_topic`).

An answer changes no consumer of another topic than that of its message when a subscription to
another topic is opened only after all messages were answered, and messages are pushed only for the
topic of the latest subscription (`Steady`). This is `answer_keeps_other_topics`, for standalone and
for replicated brokers (`OnNode`), with the invariant `Aligned`.
-/

namespace ToyMQ.Client

open Lib Broker Server Replication List Option

/-! ## What an ack or a nack does to a broker -/

/-- What an ack or a nack can do: nothing when it is refused, what it does on a standalone broker,
or what `Apply` does with its envelope. -/
inductive SettlesTo (n : Node) (topic : Bytes) (partition : ℤ) (consumerID : Bytes)
    (msgID : UInt64) : Kind → Node → Prop where
  | refused (kind : Kind) : SettlesTo n topic partition consumerID msgID kind n
  | ack : SettlesTo n topic partition consumerID msgID .ack
      (n.applyAck topic partition consumerID msgID.toNat).1
  | nack : SettlesTo n topic partition consumerID msgID .nack
      (nackCtx n topic partition consumerID msgID.toNat).1
  | applied {kind : Kind} (hkind : kind = .ack ∨ kind = .nack) (index : UInt64) :
      SettlesTo n topic partition consumerID msgID kind
        (apply n ⟨index, settleEnvelope kind topic partition consumerID msgID⟩).node

/-- The calls of a session are made on a broker, standalone or with a raft node. -/
structure OnNode {ς : Type} (calls : Calls Node ς) : Prop where
  ack : ∀ n topic partition consumerID msgID,
    SettlesTo n topic partition consumerID msgID .ack
      (calls.ack n topic partition consumerID msgID).1
  nack : ∀ n topic partition consumerID msgID,
    SettlesTo n topic partition consumerID msgID .nack
      (calls.nack n topic partition consumerID msgID).1

theorem onNode_standalone (text : BrokerError → Bytes) : OnNode (standalone text) where
  ack _ _ _ _ _ := .ack
  nack _ _ _ _ _ := .nack

section

variable {n n' : Node} {topic t : Bytes} {partition : ℤ} {consumerID : Bytes}

theorem consumer?_publishCtx (n : Node) (topic dedupeKey routingKey : Bytes) (partition : ℤ)
    (partitionSet : Bool) (payload : Bytes) (delayMs : UInt64) :
    (publishCtx n topic dedupeKey routingKey partition partitionSet payload delayMs).1.consumer? =
      n.consumer? := by
  have hroute := funext fun t =>
    (opening_consumer? t).localRoute n topic partition partitionSet routingKey
  unfold publishCtx
  split
  next hres =>
    rw [hres] at hroute
    exact hroute
  next hres =>
    rw [hres] at hroute
    exact (Node.consumer?_applyPublish _ _ _ _ _ _ _ _).trans hroute

theorem consumer?_createTopic (n : Node) (name : Bytes) (partitions : ℤ) :
    (createTopic n name partitions).1.consumer? = n.consumer? := by
  unfold createTopic
  split_ifs
  · rfl
  · exact n.consumer?_createTopicLocal name partitions

theorem consumer?_nackCtx (ht : t ≠ topic) (msgID : ℕ) :
    (nackCtx n topic partition consumerID msgID).1.consumer? t = n.consumer? t := by
  have hnack : (n.applyNack topic partition consumerID msgID).1.consumer? t = n.consumer? t :=
    n.consumer?_withConsumer ht partition consumerID _
  unfold nackCtx
  split
  next hres =>
    rw [hres] at hnack
    exact hnack
  next hres =>
    rw [hres] at hnack
    exact hnack
  next hres =>
    rw [hres] at hnack
    rw [consumer?_publishCtx, consumer?_createTopic]
    exact hnack

theorem SettlesTo.consumer? {kind : Kind} {msgID : UInt64}
    (h : SettlesTo n topic partition consumerID msgID kind n') (ht : t ≠ topic) :
    n'.consumer? t = n.consumer? t := by
  cases h with
  | refused => rfl
  | ack => exact n.consumer?_withConsumer ht partition consumerID _
  | nack => exact consumer?_nackCtx ht _
  | applied hkind =>
    rcases hkind with rfl | rfl
    · exact n.consumer?_withConsumer ht _ consumerID _
    · exact (opening_consumer? t).applyNack (n.consumer?_withConsumer ht _ consumerID _)

end

namespace Link

variable {β ς : Type} {calls : Calls β ς} {s s' : Link β ς}

/-! ## Messages that may still be answered -/

/-- The messages in the channel of the session, on the connection and with the client, and those
whose answers the session has yet to read. -/
def outstanding (s : Link β ς) : List Delivery :=
  s.sendCh.map Push.delivery ++ ((s.written.drop s.seen).filterMap Written.delivery? ++
    (s.held ++ s.inbox.filterMap Incoming.answers))

theorem mem_outstanding {d : Delivery} : d ∈ s.outstanding ↔
    (∃ p ∈ s.sendCh, p.delivery = d) ∨ (∃ w ∈ s.written.drop s.seen, w.delivery? = some d) ∨
      d ∈ s.held ∨ ∃ it ∈ s.inbox, it.answers = some d := by
  simp only [outstanding, mem_append, List.mem_map, mem_filterMap]

/-- A subscription to another topic is opened only when no message is left to be answered, and
messages are pushed only for the topic of the latest subscription. -/
def Steady (s : Link β ς) : LinkAction β → Prop
  | .push p => p.delivery.topic = s.session.currentTopic
  | .openSub => ∀ c ∈ s.opening, c.topic = s.session.currentTopic ∨ s.outstanding = []
  | _ => True

instance (s : Link β ς) : (a : LinkAction β) → Decidable (s.Steady a)
  | .push p => inferInstanceAs (Decidable (p.delivery.topic = s.session.currentTopic))
  | .openSub => inferInstanceAs
      (Decidable (∀ c ∈ s.opening, c.topic = s.session.currentTopic ∨ s.outstanding = []))
  | .issue _ | .answer _ _ _ | .discard _ | .receive | .read | .respond | .poll | .selectResp
  | .selectMsg | .park | .exit | .others _ => inferInstanceAs (Decidable True)

/-- The invariant. -/
structure Aligned (s : Link β ς) : Prop where
  /-- What may still be answered is of the topic of the session. -/
  topic : ∀ d ∈ s.outstanding, d.topic = s.session.currentTopic
  answers : ∀ it ∈ s.inbox, ∀ d, it.answers = some d →
    ∃ consumerID ack, it.parsed = .ok (answerCommand d consumerID ack)

theorem aligned_new (ς : Type) (broker : β) : (Link.new ς broker).Aligned where
  topic d hd := by cases hd
  answers it hit := by cases hit

variable (calls) in
theorem handle_apart (s : Link β ς) (parsed : Except Bytes Command) :
    (s.handle calls parsed).sendCh = s.sendCh ∧ (s.handle calls parsed).written = s.written ∧
      (s.handle calls parsed).seen = s.seen ∧ (s.handle calls parsed).held = s.held ∧
      (s.handle calls parsed).inbox = s.inbox := by
  unfold handle
  split
  · unfold readSub
    split <;> exact ⟨rfl, rfl, rfl, rfl, rfl⟩
  · exact ⟨rfl, rfl, rfl, rfl, rfl⟩

variable (calls) in
theorem currentTopic_handle (s : Link β ς) (parsed : Except Bytes Command) :
    (s.handle calls parsed).session.currentTopic = s.session.currentTopic := by
  unfold handle
  split
  next c =>
    have htopic := (s.session.endSub calls).currentTopic_admitSub calls c
    rw [s.session.currentTopic_endSub calls] at htopic
    unfold readSub
    split
    next hchecked =>
      rw [hchecked] at htopic
      exact htopic
    next hchecked =>
      rw [hchecked] at htopic
      exact htopic
  next hsub => exact s.session.currentTopic_handleParsed calls hsub

namespace Aligned

theorem of_subset (h : s.Aligned) (htopic : s'.session.currentTopic = s.session.currentTopic)
    (hsend : ∀ p ∈ s'.sendCh, p ∈ s.sendCh)
    (hwritten : ∀ w ∈ s'.written.drop s'.seen, w ∈ s.written.drop s.seen)
    (hheld : ∀ d ∈ s'.held, d ∈ s.outstanding)
    (hinbox : ∀ it ∈ s'.inbox, it ∈ s.inbox ∨ ∀ d, it.answers = some d →
      d ∈ s.held ∧ ∃ consumerID ack, it.parsed = .ok (answerCommand d consumerID ack)) :
    s'.Aligned where
  topic d hd := by
    rw [htopic]
    apply h.topic d
    rcases mem_outstanding.mp hd with ⟨p, hp, hd'⟩ | ⟨w, hw, hd'⟩ | hd' | ⟨it, hit, hd'⟩
    · exact mem_outstanding.mpr (.inl ⟨p, hsend p hp, hd'⟩)
    · exact mem_outstanding.mpr (.inr (.inl ⟨w, hwritten w hw, hd'⟩))
    · exact hheld d hd'
    · rcases hinbox it hit with hold | hnew
      · exact mem_outstanding.mpr (.inr (.inr (.inr ⟨it, hold, hd'⟩)))
      · exact mem_outstanding.mpr (.inr (.inr (.inl (hnew d hd').1)))
  answers it hit d hd := by
    rcases hinbox it hit with hold | hnew
    · exact h.answers it hold d hd
    · exact (hnew d hd).2

theorem held_subset {d : Delivery} (hd : d ∈ s.held) : d ∈ s.outstanding :=
  mem_outstanding.mpr (.inr (.inr (.inl hd)))

variable {w : Written}

theorem write (h : s.Aligned) (hw : ∀ d, w.delivery? = some d → d.topic = s.session.currentTopic) :
    (s.write w).Aligned where
  topic d hd := by
    rcases mem_outstanding.mp hd with hsend | ⟨w', hw', hd'⟩ | hrest
    · exact h.topic d (mem_outstanding.mpr (.inl hsend))
    · change w' ∈ (s.written ++ [w]).drop s.seen at hw'
      rw [drop_append] at hw'
      rcases mem_append.mp hw' with hold | hnew
      · exact h.topic d (mem_outstanding.mpr (.inr (.inl ⟨w', hold, hd'⟩)))
      · obtain rfl := mem_singleton.mp (mem_of_mem_drop hnew)
        exact hw d hd'
    · exact h.topic d (mem_outstanding.mpr (.inr (.inr hrest)))
  answers := h.answers

/-- The writer writes a response. -/
theorem writeResp (h : s.Aligned) (r : Response) : (s.write (.resp r)).Aligned :=
  h.write fun d hd => by cases hd

/-- The client reads a frame. -/
theorem receive (h : s.Aligned) (hw : s.written[s.seen]? = some w) :
    { s with seen := s.seen + 1, held := s.held ++ w.delivery?.toList }.Aligned := by
  obtain ⟨hlt, hget⟩ := List.getElem?_eq_some_iff.mp hw
  have hdrop : s.written.drop s.seen = w :: s.written.drop (s.seen + 1) := by
    rw [drop_eq_getElem_cons hlt, hget]
  refine h.of_subset rfl (fun p hp => hp) (fun w' hw' => ?_) (fun d hd => ?_) fun it hit => .inl hit
  · rw [hdrop]
    exact mem_cons_of_mem w hw'
  · rcases mem_append.mp hd with hold | hnew
    · exact held_subset hold
    · -- The message in the frame was on the connection.
      refine mem_outstanding.mpr (.inr (.inl ⟨w, ?_, mem_toList.mp hnew⟩))
      rw [hdrop]
      exact mem_cons_self

/-- The reader reads something, and handles it. -/
theorem read (h : s.Aligned) {it : Incoming} {rest : List Incoming}
    (hinbox : s.inbox = it :: rest) :
    ({ s with inbox := rest }.handle calls it.parsed).Aligned := by
  obtain ⟨hsend, hwritten, hseen, hheld, hin⟩ :=
    handle_apart calls { s with inbox := rest } it.parsed
  refine h.of_subset (currentTopic_handle calls { s with inbox := rest } it.parsed)
    (fun p hp => hsend ▸ hp) (fun w hw => ?_) (fun d hd => held_subset (hheld ▸ hd))
    fun it' hit' => .inl ?_
  · rwa [hwritten, hseen] at hw
  · rw [hin] at hit'
    rw [hinbox]
    exact mem_cons_of_mem it hit'

/-- A subscription is opened. -/
theorem openSub (h : s.Aligned) {c : SubCommand} (subs : List Bytes)
    (hc : c.topic = s.session.currentTopic ∨ s.outstanding = []) :
    { s with
      session := s.session.completeSub calls c
      opening := none
      subs := subs }.Aligned where
  topic d hd := by
    -- The topic may change only when nothing is left to be answered.
    change d ∈ s.outstanding at hd
    rcases hc with hsame | hnone
    · rcases s.session.currentTopic_completeSub calls c with hold | hnew
      · rw [hold]
        exact h.topic d hd
      · rw [hnew, hsame]
        exact h.topic d hd
    · rw [hnone] at hd
      cases hd
  answers := h.answers

theorem of_step (h : s.Aligned) {a : LinkAction β} (hok : s.Steady a)
    (hstep : s.step calls a = some s') : s'.Aligned := by
  -- Most steps leave the channel, the connection and the client.
  have hsame : ∀ {t : Link β ς}, t.session.currentTopic = s.session.currentTopic →
      t.sendCh = s.sendCh → t.written = s.written → t.seen = s.seen → t.held = s.held →
      t.inbox = s.inbox → t.Aligned := by
    intro t htopic hsend hwritten hseen hheld hinbox
    refine h.of_subset htopic (fun p hp => hsend ▸ hp) (fun w hw => ?_)
      (fun d hd => held_subset (hheld ▸ hd)) fun it hit => .inl (hinbox ▸ hit)
    rwa [hwritten, hseen] at hw
  cases step_cases hstep with
  | issue =>
    refine h.of_subset rfl (fun p hp => hp) (fun w hw => hw) (fun d hd => held_subset hd)
      fun it hit => (mem_append.mp hit).imp_right fun hnew d hd => ?_
    rw [mem_singleton.mp hnew] at hd
    cases hd
  | @answer d hheld consumerID ack =>
    refine h.of_subset rfl (fun p hp => hp) (fun w hw => hw) (fun d hd => held_subset hd)
      fun it hit => (mem_append.mp hit).imp_right fun hnew d' hd' => ?_
    obtain rfl := mem_singleton.mp hnew
    obtain rfl := Option.some.inj hd'
    exact ⟨hheld, consumerID, ack, rfl⟩
  | discard =>
    exact h.of_subset rfl (fun p hp => hp) (fun w hw => hw)
      (fun d' hd' => held_subset (mem_of_mem_erase hd')) fun it hit => .inl hit
  | receive hw => exact h.receive hw
  | read hopening hinbox => exact h.read hinbox
  | respondParked | pollResp | selectResp =>
    refine Aligned.writeResp ?_ _
    exact hsame rfl rfl rfl rfl rfl rfl
  | respondExited | respondQueued =>
    exact hsame rfl rfl rfl rfl rfl rfl
  | openSub hopening => exact h.openSub _ (hok _ hopening)
  | pushParked =>
    refine h.write fun d hd => ?_
    obtain rfl := Option.some.inj hd
    exact hok
  | pushQueued =>
    refine ⟨fun d hd => ?_, h.answers⟩
    rcases mem_outstanding.mp hd with ⟨q, hq, rfl⟩ | hrest
    · rcases mem_append.mp hq with hold | hnew
      · exact h.topic _ (mem_outstanding.mpr (.inl ⟨q, hold, rfl⟩))
      · rw [mem_singleton.mp hnew]
        exact hok
    · exact h.topic d (mem_outstanding.mpr (.inr hrest))
  | pollNone | park | exit | others => exact hsame rfl rfl rfl rfl rfl rfl
  | @selectMsg p rest hwriter hsend =>
    have hsub : ∀ q ∈ p :: rest, q ∈ s.sendCh := fun q hq => hsend ▸ hq
    have hrest : { s with sendCh := rest }.Aligned :=
      h.of_subset rfl (fun q hq => hsub q (mem_cons_of_mem p hq)) (fun w hw => hw)
        (fun d hd => held_subset hd) fun it hit => .inl hit
    refine hrest.write fun d hd => ?_
    obtain rfl := Option.some.inj hd
    exact h.topic _ (mem_outstanding.mpr (.inl ⟨p, hsub p mem_cons_self, rfl⟩))

end Aligned

end Link

/-! ## Answers -/

theorem consumer?_handleParsed {ς : Type} {calls : Calls Node ς} (hcalls : OnNode calls)
    (session : Session Node ς) (d : Delivery) (consumerID : Bytes) (ack : Bool) {t : Bytes}
    (ht : t ≠ session.currentTopic) :
    (session.handleParsed calls (.ok (answerCommand d consumerID ack))).1.broker.consumer? t =
      session.broker.consumer? t := by
  cases ack with
  | true =>
    change (session.handleAck calls consumerID d.partition d.msgID).1.broker.consumer? t = _
    unfold Session.handleAck Session.handleSettle
    split_ifs
    · rfl
    · exact (hcalls.ack _ _ _ _ _).consumer? ht
  | false =>
    change (session.handleNack calls consumerID d.partition d.msgID).1.broker.consumer? t = _
    unfold Session.handleNack Session.handleSettle
    split_ifs
    · rfl
    · exact (hcalls.nack _ _ _ _ _).consumer? ht

namespace Link

variable {ς : Type} {calls : Calls Node ς} {s s' : Link Node ς}

/-- An `ACK` or `NACK` that answers a message changes no consumer of another topic than that of the
message, when a subscription to another topic is opened only with no message left to be answered and
messages are pushed only for the topic of the latest subscription. -/
theorem answer_keeps_other_topics (hcalls : OnNode calls) {broker : Node}
    {as : List (LinkAction Node)}
    (hrun : Run (step calls) Steady (Link.new ς broker) as s) {it : Incoming}
    {rest : List Incoming} {d : Delivery} (hinbox : s.inbox = it :: rest)
    (hanswers : it.answers = some d) (hstep : s.step calls .read = some s') :
    ∀ t ≠ d.topic, s'.session.broker.consumer? t = s.session.broker.consumer? t := by
  have hok : s.Aligned := hrun.invariant (I := Aligned) (aligned_new ς broker)
    fun _ _ _ hok h hstep => h.of_step hok hstep
  have hmem : it ∈ s.inbox := by
    rw [hinbox]
    exact mem_cons_self
  obtain ⟨consumerID, ack, hparsed⟩ := hok.answers it hmem d hanswers
  have htopic : d.topic = s.session.currentTopic :=
    hok.topic d (mem_outstanding.mpr (.inr (.inr (.inr ⟨it, hmem, hanswers⟩))))
  intro t ht
  -- The step handles the answer, on the topic of the session, which is that of the message.
  cases step_cases hstep with
  | read hopening hinbox' =>
    obtain ⟨rfl, rfl⟩ := List.cons.inj (hinbox.symm.trans hinbox')
    rw [hparsed]
    have hplain : ({ s with inbox := rest }.handle calls
        (.ok (answerCommand d consumerID ack))).session =
          (s.session.handleParsed calls (.ok (answerCommand d consumerID ack))).1 := by
      cases ack <;> rfl
    rw [hplain]
    exact consumer?_handleParsed hcalls s.session d consumerID ack (htopic ▸ ht)

/-- Consumer `c` subscribes to a topic. -/
def subscribeTo (topic : Bytes) : LinkAction Node :=
  .issue (.ok (.sub ⟨topic, 0, true, [99], false⟩))

def messageOf (topic : Bytes) : Delivery := ⟨topic, 0, 0, [120]⟩

/-- The session handles a subscribe, and message 0 of the topic is put in flight and pushed. -/
def subscribed (topic : Bytes) (k : ℕ) : List (LinkAction Node) :=
  [othersPublish topic [120], subscribeTo topic, .read, .respond, .openSub, .poll,
    othersRegister topic [99] 0, .push ⟨messageOf topic, k⟩]

/-- The client gets the message, answers it, and reads the `OK`. -/
def answered (topic : Bytes) : List (LinkAction Node) :=
  [.poll, .selectMsg, .receive, .receive, .answer (messageOf topic) [99] true]

/-- The client finishes with topic `a` before it subscribes to topic `b`. -/
def finished : List (LinkAction Node) :=
  subscribed [97] 0 ++ answered [97] ++
    [.read, .respond, .poll, .receive, .discard (messageOf [97])] ++ subscribed [98] 1 ++
    answered [98]

theorem answer_keeps_other_topics_finished :
    ∃ (s s' : Link Node Subscription) (it : Incoming) (rest : List Incoming),
      Run (step (standalone fun _ => [])) Steady (Link.new Subscription emptyNode) finished s ∧
      s.inbox = it :: rest ∧ it.answers = some (messageOf [98]) ∧
      s.step (standalone fun _ => []) .read = some s' ∧
      ∀ t ≠ [98], s'.session.broker.consumer? t = s.session.broker.consumer? t := by
  obtain ⟨s, hs, hinbox, hread⟩ :
      ∃ s, Run (step (standalone fun _ => [])) Steady (Link.new Subscription emptyNode) finished s ∧
        s.inbox.map Incoming.answers = [some (messageOf [98])] ∧
        (s.step (standalone fun _ => []) .read).isSome := by
    decide +kernel
  obtain ⟨it, hit, hanswers⟩ := map_eq_singleton_iff.mp hinbox
  obtain ⟨s', hs'⟩ := isSome_iff_exists.mp hread
  exact ⟨s, s', it, [], hs, hit, hanswers, hs',
    answer_keeps_other_topics (onNode_standalone fun _ => []) hs hit hanswers hs'⟩

/-- The client subscribes to topic `b` while message 0 of topic `a` is in the channel. It answers
that message when message 0 of topic `b` is in flight. -/
def switched : List (LinkAction Node) :=
  subscribed [97] 0 ++ subscribed [98] 1 ++ [.receive] ++ answered [97]

theorem answer_settles_other_topic :
    ∃ (s s' : Link Node Subscription) (it : Incoming) (rest : List Incoming),
      Run (step (standalone fun _ => [])) (fun _ _ => True) (Link.new Subscription emptyNode)
        switched s ∧
      s.inbox = it :: rest ∧ it.answers = some (messageOf [97]) ∧
      s.step (standalone fun _ => []) .read = some s' ∧
      s'.session.broker.consumer? [98] ≠ s.session.broker.consumer? [98] := by
  obtain ⟨s, hs, hinbox, hbefore, s', hs', hafter⟩ :
      ∃ s, Run (step (standalone fun _ => [])) (fun _ _ => True)
          (Link.new Subscription emptyNode) switched s ∧
        s.inbox.map Incoming.answers = [some (messageOf [97])] ∧
        (s.session.broker.consumer? [98] 0 [99]).map (·.inflight.keys) = some [0] ∧
        ∃ s', s.step (standalone fun _ => []) .read = some s' ∧
          (s'.session.broker.consumer? [98] 0 [99]).map (·.inflight.keys) = some [] := by
    decide +kernel
  obtain ⟨it, hit, hanswers⟩ := map_eq_singleton_iff.mp hinbox
  refine ⟨s, s', it, [], hs, hit, hanswers, hs', fun heq => ?_⟩
  rw [heq, hbefore] at hafter
  cases hafter

end Link

end ToyMQ.Client
