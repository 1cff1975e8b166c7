import ToyMQ.Client.Link

/-!
# The `OK` of a subscribe and its messages

A session acknowledges a subscribe before it opens the subscription, and its writer takes responses
first, so that no message should reach the client before the `OK` of the subscribe that it is pushed
for. But the writer looks for responses, and in a second select takes whatever is ready. When an
`OK` and a message arrive between the two, both are ready there, and the message may go first
(`message_before_ok`).

It does not happen when no `OK` of a subscribe is handed over at this point (`Undivided`):
`oks_first` says so for every broker and every run. While the writer is past its first select no
such `OK` waits in the response channel, and whatever is pushed belongs to a subscribe whose `OK`
was handed over before (`Ordered`).
-/

namespace ToyMQ.Client

open Lib Broker Server List

/-- The `OK` of subscribe number `k`. -/
def okOf (k : ℕ) : Response := ⟨.ok 0, some k⟩

/-- Before each message stands the `OK` of the subscribe that it was pushed for. -/
def OksFirst (written : List Written) : Prop :=
  ∀ (i : ℕ) (p : Push), written[i]? = some (.msg p) →
    ∃ j < i, written[j]? = some (.resp (okOf p.sub))

theorem OksFirst.snoc {written : List Written} (h : OksFirst written) {w : Written}
    (hw : ∀ p, w = .msg p → .resp (okOf p.sub) ∈ written) : OksFirst (written ++ [w]) := by
  intro i p hi
  rcases Nat.lt_or_ge i written.length with hlt | hge
  · rw [getElem?_append_left hlt] at hi
    obtain ⟨j, hj, hget⟩ := h i p hi
    exact ⟨j, hj, by rw [getElem?_append_left (hj.trans hlt), hget]⟩
  · -- The last frame is the new one.
    rw [getElem?_append_right hge] at hi
    have hmem := hw p (mem_singleton.mp (mem_of_getElem? hi)).symm
    obtain ⟨j, hj, hget⟩ := getElem_of_mem hmem
    exact ⟨j, hj.trans_le hge, by
      rw [getElem?_append_left hj, getElem?_eq_getElem hj, hget]⟩

namespace Link

variable {β ς : Type} {calls : Calls β ς} {s s' : Link β ς}

/-- No `OK` of a subscribe is handed over while the writer is between its two selects. -/
def Undivided (s : Link β ς) : LinkAction β → Prop
  | .respond => s.writer = .between → ∀ r ∈ s.outbox.head?, r.sub = none
  | _ => True

instance (s : Link β ς) : (a : LinkAction β) → Decidable (s.Undivided a)
  | .respond =>
    inferInstanceAs (Decidable (s.writer = .between → ∀ r ∈ s.outbox.head?, r.sub = none))
  | .issue _ | .answer _ _ _ | .discard _ | .receive | .read | .openSub | .push _ | .poll
  | .selectResp | .selectMsg | .park | .exit | .others _ => inferInstanceAs (Decidable True)

/-- The `OK` of a subscribe was handed over. -/
def Acknowledged (s : Link β ς) (k : ℕ) : Prop :=
  .resp (okOf k) ∈ s.written ∨ okOf k ∈ s.respCh ∨ s.writer = .exited

theorem Acknowledged.mono {k : ℕ} (h : s.Acknowledged k)
    (hwritten : ∀ w ∈ s.written, w ∈ s'.written)
    (hresp : ∀ r ∈ s.respCh, .resp r ∈ s'.written ∨ r ∈ s'.respCh)
    (hexited : s.writer = .exited → s'.writer = .exited) : s'.Acknowledged k := by
  rcases h with hw | hr | hx
  · exact .inl (hwritten _ hw)
  · exact (hresp _ hr).imp_right .inl
  · exact .inr (.inr (hexited hx))

/-- The invariant. -/
structure Ordered (s : Link β ς) : Prop where
  first : OksFirst s.written
  acknowledged : ∀ k < s.subs.length, s.Acknowledged k
  opening : s.opening.isSome → s.outbox = [okOf s.subs.length] ∨
    (s.outbox = [] ∧ s.Acknowledged s.subs.length)
  closed : s.opening = none → ∀ r ∈ s.outbox, r.sub = none
  pushes : ∀ p ∈ s.sendCh, p.sub < s.subs.length
  /-- Past the first select, no `OK` of a subscribe waits. -/
  waiting : s.writer = .between ∨ s.writer = .parked → ∀ r ∈ s.respCh, r.sub = none

theorem ordered_new (ς : Type) (broker : β) : (Link.new ς broker).Ordered where
  first i p hi := by cases hi
  acknowledged k hk := absurd hk (Nat.not_lt_zero k)
  opening h := by cases h
  closed _ r hr := by cases hr
  pushes p hp := by cases hp
  waiting h := by rcases h with h | h <;> cases h

namespace Ordered

theorem of_reader_eq (h : s.Ordered) (hsubs : s'.subs = s.subs) (hopening : s'.opening = s.opening)
    (houtbox : s'.outbox = s.outbox) (hmono : ∀ k, s.Acknowledged k → s'.Acknowledged k)
    (hfirst : OksFirst s'.written) (hpushes : ∀ p ∈ s'.sendCh, p.sub < s.subs.length)
    (hwaiting : s'.writer = .between ∨ s'.writer = .parked → ∀ r ∈ s'.respCh, r.sub = none) :
    s'.Ordered where
  first := hfirst
  acknowledged k hk := hmono k (h.acknowledged k (hsubs ▸ hk))
  opening hsome := by
    rw [houtbox, hsubs]
    exact (h.opening (hopening ▸ hsome)).imp_right fun hsent => ⟨hsent.1, hmono _ hsent.2⟩
  closed hnone := by
    rw [houtbox]
    exact h.closed (hopening ▸ hnone)
  pushes := by
    rw [hsubs]
    exact hpushes
  waiting := hwaiting

theorem mem_written (h : s.Ordered) (hwriter : s.writer = .between ∨ s.writer = .parked) {k : ℕ}
    (hk : k < s.subs.length) : .resp (okOf k) ∈ s.written := by
  -- It cannot wait in the response channel, and the writer has not stopped.
  rcases h.acknowledged k hk with hw | hr | hx
  · exact hw
  · cases h.waiting hwriter _ hr
  · rw [hx] at hwriter
    rcases hwriter with hw | hw <;> cases hw

/-- The writer goes on, and takes nothing. -/
theorem moved (h : s.Ordered) (hwriter : s.writer ≠ .exited) {writer : WriterState}
    (hwaiting : writer = .between ∨ writer = .parked → ∀ r ∈ s.respCh, r.sub = none) :
    { s with writer := writer }.Ordered := by
  refine h.of_reader_eq rfl rfl rfl (fun k hk => hk.mono ?_ ?_ ?_) h.first h.pushes hwaiting
  · exact fun w hw => hw
  · exact fun r hr => .inr hr
  · exact fun hx => absurd hx hwriter

variable {r : Response} {rest : List Response}

/-- The writer takes a response. -/
theorem takeResp (h : s.Ordered) (hresp : s.respCh = r :: rest) (hwriter : s.writer ≠ .exited) :
    ({ s with respCh := rest }.write (.resp r)).Ordered := by
  refine h.of_reader_eq rfl rfl rfl (fun k hk => hk.mono ?_ ?_ ?_) ?_ h.pushes ?_
  · exact fun w hw => mem_append_left _ hw
  · intro r' hr'
    rw [hresp] at hr'
    rcases mem_cons.mp hr' with rfl | hmem
    · exact .inl (mem_append_right _ (mem_singleton.mpr rfl))
    · exact .inr hmem
  · exact fun hx => absurd hx hwriter
  · exact h.first.snoc fun p hp => by cases hp
  · rintro (hw | hw) <;> cases hw

/-- The second select of the writer takes a message. -/
theorem takeMsg (h : s.Ordered) (hwriter : s.writer = .between ∨ s.writer = .parked) {p : Push}
    (hp : p.sub < s.subs.length) {sendCh : List Push} (hsend : ∀ q ∈ sendCh, q ∈ s.sendCh) :
    ({ s with sendCh := sendCh }.write (.msg p)).Ordered := by
  refine h.of_reader_eq rfl rfl rfl (fun k hk => hk.mono ?_ ?_ ?_) ?_
    (fun q hq => h.pushes q (hsend q hq)) ?_
  · exact fun w hw => mem_append_left _ hw
  · exact fun r hr => .inr hr
  · intro hx
    rw [hx] at hwriter
    rcases hwriter with hw | hw <;> cases hw
  · refine h.first.snoc fun q hq => ?_
    cases hq
    exact h.mem_written hwriter hp
  · rintro (hw | hw) <;> cases hw

theorem handOver (h : s.Ordered) (houtbox : s.outbox = r :: rest) (hsubs : s'.subs = s.subs)
    (hopening : s'.opening = s.opening) (houtbox' : s'.outbox = rest)
    (hmono : ∀ k, s.Acknowledged k → s'.Acknowledged k)
    (hsent : .resp r ∈ s'.written ∨ r ∈ s'.respCh ∨ s'.writer = .exited)
    (hfirst : OksFirst s'.written) (hpushes : s'.sendCh = s.sendCh)
    (hwaiting : s'.writer = .between ∨ s'.writer = .parked → ∀ r ∈ s'.respCh, r.sub = none) :
    s'.Ordered where
  first := hfirst
  acknowledged k hk := hmono k (h.acknowledged k (hsubs ▸ hk))
  opening hsome := by
    rcases h.opening (hopening ▸ hsome) with hok | ⟨hnil, -⟩
    · rw [houtbox] at hok
      obtain ⟨rfl, rfl⟩ := List.cons.inj hok
      rw [hsubs]
      exact .inr ⟨houtbox', hsent⟩
    · rw [houtbox] at hnil
      cases hnil
  closed hnone r' hr' := by
    refine h.closed (hopening ▸ hnone) r' ?_
    rw [houtbox]
    exact mem_cons_of_mem _ (houtbox' ▸ hr')
  pushes := by
    rw [hpushes, hsubs]
    exact h.pushes
  waiting := hwaiting

/-- It goes into the response channel. -/
theorem queued (h : s.Ordered) (houtbox : s.outbox = r :: rest)
    (hplain : s.writer = .between ∨ s.writer = .parked → r.sub = none) :
    { s with outbox := rest, respCh := s.respCh ++ [r] }.Ordered := by
  refine h.handOver houtbox rfl rfl rfl (fun k hk => hk.mono ?_ ?_ ?_) ?_ h.first rfl ?_
  · exact fun w hw => hw
  · exact fun r' hr' => .inr (mem_append_left _ hr')
  · exact id
  · exact .inr (.inl (mem_append_right _ (mem_singleton.mpr rfl)))
  · intro hstage r' hr'
    rcases mem_append.mp hr' with hold | hnew
    · exact h.waiting hstage r' hold
    · rw [mem_singleton.mp hnew]
      exact hplain hstage

/-- It goes to the writer, which waits for it. -/
theorem handed (h : s.Ordered) (houtbox : s.outbox = r :: rest) (hwriter : s.writer ≠ .exited) :
    ({ s with outbox := rest }.write (.resp r)).Ordered := by
  refine h.handOver houtbox rfl rfl rfl (fun k hk => hk.mono ?_ ?_ ?_) ?_ ?_ rfl ?_
  · exact fun w hw => mem_append_left _ hw
  · exact fun r' hr' => .inr hr'
  · exact fun hx => absurd hx hwriter
  · exact .inl (mem_append_right _ (mem_singleton.mpr rfl))
  · exact h.first.snoc fun p hp => by cases hp
  · rintro (hw | hw) <;> cases hw

/-- The reader handles what it has read. -/
theorem handle (h : s.Ordered) (hopening : s.opening = none) (parsed : Except Bytes Command) :
    (s.handle calls parsed).Ordered := by
  -- The outbox gets the `OK` of a subscribe that was admitted, or frames that are no such `OK`.
  have hplain : ∀ (session : Session β ς) (frames : List Frame),
      { s with
        session := session
        outbox := frames.map fun f => (⟨f, none⟩ : Response) }.Ordered := by
    intro session frames
    refine ⟨h.first, h.acknowledged, fun hsome => ?_, fun _ r hr => ?_, h.pushes, h.waiting⟩
    · rw [hopening] at hsome
      cases hsome
    · obtain ⟨f, -, rfl⟩ := List.mem_map.mp hr
      rfl
  unfold Link.handle
  split
  next c =>
    unfold Link.readSub
    split
    · exact hplain _ _
    · refine ⟨h.first, h.acknowledged, fun _ => .inl rfl, fun hnone => ?_, h.pushes, h.waiting⟩
      cases hnone
  · exact hplain _ _

theorem openSub (h : s.Ordered) {c : SubCommand} (hopening : s.opening = some c)
    (houtbox : s.outbox = []) (session : Session β ς) :
    { s with session := session, opening := none, subs := s.subs ++ [c.topic] }.Ordered := by
  -- The outbox is empty, so that the `OK` of this subscribe was handed over.
  obtain hok | ⟨-, hack⟩ := h.opening (by rw [hopening]; rfl)
  · rw [houtbox] at hok
    cases hok
  · refine ⟨h.first, fun k hk => ?_, fun hsome => ?_, fun _ r hr => ?_, fun p hp => ?_, h.waiting⟩
    · rw [length_append, length_singleton] at hk
      rcases Nat.lt_succ_iff_lt_or_eq.mp hk with hlt | rfl
      · exact h.acknowledged k hlt
      · exact hack
    · cases hsome
    · rw [show s.outbox = [] from houtbox] at hr
      cases hr
    · rw [length_append]
      exact (h.pushes p hp).trans_le (Nat.le_add_right _ _)

theorem of_step (h : s.Ordered) {a : LinkAction β} (hok : s.Undivided a)
    (hstep : s.step calls a = some s') : s'.Ordered := by
  -- The steps of the client and of other sessions touch none of it.
  have hapart : ∀ {t : Link β ς}, t.subs = s.subs → t.opening = s.opening → t.outbox = s.outbox →
      t.respCh = s.respCh → t.sendCh = s.sendCh → t.writer = s.writer → t.written = s.written →
      t.Ordered := by
    intro t hsubs hopening houtbox hresp hsend hwriter hwritten
    refine h.of_reader_eq hsubs hopening houtbox (fun k hk => ?_) (hwritten ▸ h.first)
      (hsend ▸ h.pushes) (by rw [hwriter, hresp]; exact h.waiting)
    unfold Acknowledged
    rwa [hwritten, hresp, hwriter]
  cases step_cases hstep with
  | issue | answer | discard | receive | others =>
    exact hapart rfl rfl rfl rfl rfl rfl rfl
  | @read it rest hopening =>
    have hread : { s with inbox := rest }.Ordered := hapart rfl rfl rfl rfl rfl rfl rfl
    exact hread.handle hopening it.parsed
  | respondParked houtbox hwriter =>
    exact h.handed houtbox (by rw [hwriter]; exact WriterState.noConfusion)
  | respondExited houtbox hwriter =>
    exact h.handOver houtbox rfl rfl rfl (fun k hk => hk) (.inr (.inr hwriter)) h.first rfl
      h.waiting
  | respondQueued houtbox hwriter =>
    refine h.queued houtbox fun hstage => ?_
    exact hok (hstage.resolve_right hwriter) _ (by rw [houtbox]; rfl)
  | openSub hopening houtbox => exact h.openSub hopening houtbox _
  | pushParked hsub hwriter =>
    exact h.takeMsg (.inr hwriter) (List.getElem?_eq_some_iff.mp hsub).1 fun q hq => hq
  | @pushQueued p hsub =>
    refine h.of_reader_eq rfl rfl rfl (fun k hk => hk) h.first (fun q hq => ?_) h.waiting
    rcases mem_append.mp hq with hold | hnew
    · exact h.pushes q hold
    · rw [mem_singleton.mp hnew]
      exact (List.getElem?_eq_some_iff.mp hsub).1
  | pollNone hwriter hresp =>
    refine h.moved (by rw [hwriter]; exact WriterState.noConfusion) fun _ r hr => ?_
    rw [hresp] at hr
    cases hr
  | pollResp hwriter hresp | selectResp hwriter hresp =>
    exact h.takeResp hresp (by rw [hwriter]; exact WriterState.noConfusion)
  | @selectMsg p rest hwriter hsend =>
    refine h.takeMsg (.inl hwriter) (h.pushes p ?_) fun q hq => ?_
    · rw [hsend]
      exact mem_cons_self
    · rw [hsend]
      exact mem_cons_of_mem _ hq
  | park hwriter =>
    exact h.moved (by rw [hwriter]; exact WriterState.noConfusion) fun _ =>
      h.waiting (.inl hwriter)
  | exit =>
    refine h.of_reader_eq rfl rfl rfl (fun k _ => .inr (.inr rfl)) h.first h.pushes ?_
    rintro (hw | hw) <;> cases hw

end Ordered

/-- When no `OK` of a subscribe is handed over between the two selects of the writer, no message is
written before the `OK` of the subscribe that it was pushed for. -/
theorem oks_first {broker : β} {as : List (LinkAction β)}
    (hrun : Run (step calls) Undivided (Link.new ς broker) as s) : OksFirst s.written := by
  have hok : s.Ordered := hrun.invariant (I := Ordered) (ordered_new ς broker)
    fun _ _ _ hok h hstep => h.of_step hok hstep
  exact hok.first

/-- A subscribe of consumer `c` to topic `t`. -/
def subscribeT : SubCommand := ⟨[116], 0, true, [99], false⟩

/-- A message of that topic. -/
def firstMessage : Push := ⟨⟨[116], 0, 0, [97]⟩, 0⟩

/-- A message is published and a client subscribes. The writer waits when the session acknowledges
the subscribe. -/
def parkedRun : List (LinkAction Node) :=
  [othersPublish [116] [97], .issue (.ok (.sub subscribeT)), .poll, .park, .read, .respond,
    .openSub, othersRegister [116] [99] 0, .push firstMessage, .poll, .selectMsg]

theorem oks_first_parked :
    ∃ s : Link Node Subscription,
      Run (step (standalone fun _ => [])) Undivided (Link.new Subscription emptyNode) parkedRun s ∧
      s.written = [.resp (okOf 0), .msg firstMessage] ∧ OksFirst s.written := by
  exact exists_run_of_exec (by decide +kernel) fun _ hrun hwritten => ⟨hwritten, oks_first hrun⟩

/-- The writer has found no response. The session acknowledges the subscribe, and the message is
pushed, before the writer gets to its second select. -/
def dividedRun : List (LinkAction Node) :=
  [othersPublish [116] [97], .issue (.ok (.sub subscribeT)), .poll, .read, .respond, .openSub,
    othersRegister [116] [99] 0, .push firstMessage, .selectMsg, .poll]

theorem message_before_ok :
    ∃ s : Link Node Subscription,
      Run (step (standalone fun _ => [])) (fun _ _ => True) (Link.new Subscription emptyNode)
        dividedRun s ∧
      s.written = [.msg firstMessage, .resp (okOf 0)] ∧ ¬ OksFirst s.written := by
  refine exists_run_of_exec (by decide +kernel) fun s _ hwritten => ⟨hwritten, fun hfirst => ?_⟩
  rw [hwritten] at hfirst
  obtain ⟨j, hj, -⟩ := hfirst 0 firstMessage rfl
  exact absurd hj (Nat.not_lt_zero j)

end Link

end ToyMQ.Client
