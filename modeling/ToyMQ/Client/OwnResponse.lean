import ToyMQ.Client.Pairing

/-!
# Each call gets its own response

`own_response_sequential` is the result for calls made one after the other. It asks that nothing
is left in flight when a call begins, since a duplicate publish is answered with two frames; the
run `stale_ok` shows what happens otherwise. `own_response_concurrent` is the result for any
number of goroutines, without duplicates. It asks that no call registers while another has yet to
write its frame; the run `swapped_responses` shows what happens otherwise.

That calls return rests on `Conn.exists_drain`: whatever is in flight can be brought to the
client, because each hop has room or can be given room by the next.
-/

namespace ToyMQ.Client

open Lib Server Broker List Option

section Progress

variable {β ς : Type} (calls : Calls β ς) (residue : Bytes → List (Except Bytes Command))
  {s : Conn β ς}

/-- The steps that bring what is in flight to the client. -/
def ConnAction.Carries : ConnAction β → Prop
  | .serve | .send | .poll | .selectResp | .dispatch | .receive => True
  | _ => False

/-- How many hops are left. A request can still have two frames, and each of them has to be sent,
written and read; a message has to be read and taken. -/
def Conn.hops (s : Conn β ς) : ℕ :=
  20 * s.wire.length + 6 * s.outbox.length + 4 * s.respCh.length + 2 * s.stream.length +
    (s.deliveryCh.getD []).length

/-- Nothing is in flight. -/
def Conn.Drained (s : Conn β ς) : Prop :=
  s.wire = [] ∧ s.outbox = [] ∧ s.respCh = [] ∧ s.stream = []

theorem length_sentFrames_le (call : Option ℕ) (reply : Option Reply) :
    (sentFrames call reply).length ≤ 2 := by
  cases reply with
  | none => exact Nat.zero_le 2
  | some reply => cases reply <;> simp [sentFrames, Reply.surplus]

variable {f : Sent} {rest : List Sent}

theorem Conn.exists_read (hstream : s.stream = f :: rest) :
    ∃ a s', ConnAction.Carries a ∧ s.step calls residue a = some s' ∧
      s'.hops < s.hops ∧ s'.callers = s.callers := by
  obtain ⟨frame, call⟩ := f
  -- Whatever becomes of the frame, reading it saves a hop.
  have hdrop : ∀ pending : Pending, ∃ s', some { s with stream := rest, pending := pending } =
      some s' ∧ s'.hops < s.hops ∧ s'.callers = s.callers := by
    intro pending
    refine ⟨_, rfl, ?_, rfl⟩
    unfold hops
    dsimp only
    rw [hstream, length_cons]
    omega
  cases frame with
  | msg d =>
    cases hch : s.deliveryCh with
    | none =>
      obtain ⟨s', hs', hrest⟩ := hdrop s.pending
      refine ⟨.dispatch, s', trivial, ?_, hrest⟩
      rw [← hs']
      simp only [step, hstream, dispatch, hch]
    | some ch =>
      by_cases hroom : ch.length < deliveryChBuf
      · refine ⟨.dispatch, { s with stream := rest, deliveryCh := some (ch ++ [d]) }, trivial,
          ?_, ?_, rfl⟩
        · simp only [step, hstream, dispatch, hch, if_pos hroom]
        · unfold hops
          dsimp only
          rw [hstream, hch, length_cons, getD_some, getD_some,
            length_append, length_singleton]
          omega
      · -- The channel is full: the application takes a delivery first.
        cases ch with
        | nil => exact absurd (by decide) hroom
        | cons d' ch =>
          refine ⟨.receive, { s with deliveryCh := some ch }, trivial, ?_, ?_, rfl⟩
          · simp only [step, hch]
          · unfold hops
            dsimp only
            rw [hch, getD_some, getD_some, length_cons]
            omega
  | ok id =>
    obtain ⟨s', hs', hrest⟩ := hdrop (s.pending.deliver (.ok id))
    exact ⟨.dispatch, s', trivial, by rw [← hs']; simp only [step, hstream, dispatch], hrest⟩
  | dup id =>
    obtain ⟨s', hs', hrest⟩ := hdrop (s.pending.deliver (.dup id))
    exact ⟨.dispatch, s', trivial, by rw [← hs']; simp only [step, hstream, dispatch], hrest⟩
  | err code reason =>
    obtain ⟨s', hs', hrest⟩ := hdrop (s.pending.deliver (.err code reason))
    exact ⟨.dispatch, s', trivial, by rw [← hs']; simp only [step, hstream, dispatch], hrest⟩
  | info lines =>
    obtain ⟨s', hs', hrest⟩ := hdrop (s.pending.deliver (.info lines))
    exact ⟨.dispatch, s', trivial, by rw [← hs']; simp only [step, hstream, dispatch], hrest⟩

/-- The writer writes the next response. -/
theorem Conn.exists_write (hch : s.respCh = f :: rest) :
    ∃ a s', ConnAction.Carries a ∧ s.step calls residue a = some s' ∧
      s'.hops < s.hops ∧ s'.callers = s.callers := by
  have hlt : ∀ polling, ({ s with
      respCh := rest, stream := s.stream ++ [f], polling := polling } : Conn β ς).hops <
        s.hops := by
    intro polling
    unfold hops
    dsimp only
    rw [hch, length_cons, length_append, length_singleton]
    omega
  cases hpolling : s.polling with
  | true =>
    refine ⟨.poll, { s with respCh := rest, stream := s.stream ++ [f] }, trivial, ?_,
      hlt s.polling, rfl⟩
    simp only [step, hpolling, hch, if_true]
  | false =>
    refine ⟨.selectResp, { s with respCh := rest, stream := s.stream ++ [f], polling := true },
      trivial, ?_, hlt true, rfl⟩
    simp only [step, hpolling, hch]

theorem Conn.exists_carry (h : ¬ s.Drained) :
    ∃ a s', ConnAction.Carries a ∧ s.step calls residue a = some s' ∧ s'.hops < s.hops ∧
      s'.callers = s.callers := by
  by_cases hstream : s.stream = []
  · by_cases hresp : s.respCh = []
    · cases hout : s.outbox with
      | cons f rest =>
        -- The response channel is empty, so that it has room.
        refine ⟨.send, { s with outbox := rest, respCh := s.respCh ++ [f] }, trivial, ?_, ?_, rfl⟩
        · have hroom : s.respCh.length < respChBuf := by rw [hresp]; decide
          simp only [step, hout, if_pos hroom]
        · unfold hops
          dsimp only
          rw [hout, length_cons, length_append, length_singleton]
          omega
      | nil =>
        cases hwire : s.wire with
        | nil => exact absurd ⟨hwire, hout, hresp, hstream⟩ h
        | cons it rest =>
          have hlen := length_sentFrames_le it.call (s.session.handleParsed calls it.parsed).2
          refine ⟨.serve, { s with
            session := (s.session.handleParsed calls it.parsed).1
            wire := rest
            outbox := sentFrames it.call (s.session.handleParsed calls it.parsed).2
            history := record s.history it.call (s.session.handleParsed calls it.parsed).2 },
            trivial, by simp only [step, hout, hwire], ?_, rfl⟩
          unfold hops
          dsimp only
          rw [hout, hwire, length_cons, length_nil]
          omega
    · obtain ⟨f, rest, hch⟩ := exists_cons_of_ne_nil hresp
      exact Conn.exists_write calls residue hch
  · obtain ⟨f, rest, hcons⟩ := exists_cons_of_ne_nil hstream
    exact Conn.exists_read calls residue hcons

/-- Whatever is in flight can be brought to the client, unless something bad comes up. -/
theorem Conn.exists_drain (bad : Conn β ς → Prop) (s : Conn β ς) :
    ∃ as s', Run (step calls residue) (fun s a => ConnAction.Carries a ∧ ¬ bad s) s as s' ∧
      (bad s' ∨ s'.Drained) ∧ s'.callers = s.callers := by
  induction hn : s.hops using Nat.strong_induction_on generalizing s with
  | _ n ih =>
    by_cases hbad : bad s
    · exact ⟨[], s, .nil s, .inl hbad, rfl⟩
    · by_cases hdrained : s.Drained
      · exact ⟨[], s, .nil s, .inr hdrained, rfl⟩
      · obtain ⟨a, t, hcarry, hstep, hlt, hcallers⟩ := exists_carry calls residue hdrained
        obtain ⟨as, s', hrun, hend, hsame⟩ := ih t.hops (hn ▸ hlt) t rfl
        exact ⟨a :: as, s', .cons ⟨hcarry, hbad⟩ hstep hrun, hend, hsame.trans hcallers⟩

/-- Whether a step begins a call. -/
def ConnAction.isCall : ConnAction β → Bool
  | .call _ _ => true
  | _ => false

/-- Whether a step has the session serve a request. -/
def ConnAction.isServe : ConnAction β → Bool
  | .serve => true
  | _ => false

/-- Goroutine `i` is in call `id`. -/
def Conn.InCall (s : Conn β ς) (i id : ℕ) : Prop :=
  s.callers[i]? = some (.pushed id) ∨ s.callers[i]? = some (.waiting id)

variable {i : ℕ}

theorem Conn.exists_written (h : s.exchange.Ok) {id : ℕ} (hi : s.InCall i id) :
    ∃ as s', Run (step calls residue) (fun _ a => ∃ j, a = .write j) s as s' ∧
      pushedIDs s'.callers = [] ∧ s'.callers[i]? = some (.waiting id) := by
  -- With nothing left to write, a goroutine in a call waits.
  have hwaits : ∀ t : Conn β ς, pushedIDs t.callers = [] → t.InCall i id →
      t.callers[i]? = some (.waiting id) := by
    intro t hnil ht
    refine ht.resolve_left fun hpushed => ?_
    rw [pushedIDs_split hpushed] at hnil
    simp [Phase.pushedID] at hnil
  cases hids : pushedIDs s.callers with
  | nil => exact ⟨[], s, .nil s, hids, hwaits s hids hi⟩
  | cons id' =>
    have hmem : id' ∈ pushedIDs s.callers := hids ▸ mem_cons_self
    obtain ⟨ph, hph, hid'⟩ := mem_filterMap.mp hmem
    obtain ⟨j, hj⟩ := getElem?_of_mem hph
    have hpushed : s.callers[j]? = some (.pushed id') := by
      rw [hj]
      cases ph with
      | pushed => rw [Option.some.inj hid']
      | idle | waiting => cases hid'
    have hlt : id' < s.history.length := by
      have horder : s.written ++ pushedIDs s.callers = List.range s.history.length := h.in_order
      exact mem_range.mp (horder ▸ mem_append_right _ hmem)
    have hc := getElem?_eq_getElem hlt
    have hstep : s.step calls residue (.write j) = some { s with
        callers := s.callers.set j (.waiting id')
        wire := s.wire ++ items residue id' s.history[id'].req
        written := s.written ++ [id'] } := by
      simp only [step, hpushed, hc, map_some]
    have hnil : pushedIDs (s.callers.set j (.waiting id')) = [] := by
      have hone : (pushedIDs s.callers).length ≤ 1 := h.one_unwritten
      rw [pushedIDs_split hpushed, length_append, length_append] at hone
      dsimp only [Phase.pushedID, Option.toList] at hone
      rw [length_singleton] at hone
      rw [pushedIDs_set hpushed, eq_nil_of_length_eq_zero (show
        (pushedIDs (s.callers.take j)).length = 0 by omega), eq_nil_of_length_eq_zero (show
        (pushedIDs (s.callers.drop (j + 1))).length = 0 by omega)]
      rfl
    refine ⟨[.write j], _, .single ⟨j, rfl⟩ hstep, hnil, hwaits _ hnil ?_⟩
    unfold InCall
    by_cases hij : j = i
    · subst hij
      have hlen := (List.getElem?_eq_some_iff.mp hpushed).1
      rw [getElem?_set_self hlen]
      rcases hi with hi | hi
      · rw [hpushed] at hi
        cases hi
        exact .inr rfl
      · rw [hpushed] at hi
        cases hi
    · rw [getElem?_set_ne hij]
      exact hi

theorem Conn.exists_ret (h : s.exchange.Ok) (hdrained : s.Drained)
    (hpushed : pushedIDs s.callers = []) {id : ℕ} (hi : s.callers[i]? = some (.waiting id)) :
    ∃ s' out, s.step calls residue (.ret i) = some s' ∧ (id, out) ∈ s'.returned := by
  obtain ⟨hwire, hout, hresp, hstream⟩ := hdrained
  have hlt : id < s.history.length := h.waiting_lt id (mem_of_getElem? hi)
  have hreqs : id < s.pending.reqs.length := hlt.trans_eq h.length_eq.symm
  have hqueue : s.pending.queue = [] := by
    have hids := h.ids_inflight
    unfold Exchange.inflight exchange at hids
    rw [hwire, hout, hresp, hstream, hpushed] at hids
    exact hids.symm
  have hne : s.pending.reqs[id].resp ≠ none := fun hnone => by
    have hmem := (h.resp_none_iff id _ (getElem?_eq_getElem hreqs)).mp hnone
    rw [show s.exchange.pending.queue = [] from hqueue] at hmem
    cases hmem
  obtain ⟨f, hf⟩ := ne_none_iff_exists'.mp hne
  refine ⟨s.finish i id s.history[id].req f, s.history[id].req.resolve f, ?_,
    mem_append_right _ mem_cons_self⟩
  simp only [step, hi, getElem?_eq_getElem hlt, getElem?_eq_getElem hreqs,
    bind_some, hf, map_some]

/-- A call can return without any other call, unless something bad comes up, where `ok` allows
the steps that this takes and keeps the pairing right. -/
theorem Conn.exists_return {ok : Conn β ς → ConnAction β → Prop} {bad : Conn β ς → Prop}
    (hallow : ∀ s a, a.isCall = false → (a = .serve → ¬ bad s) → ok s a)
    (hok : ∀ as s', Run (step calls residue) ok s as s' → s'.exchange.Ok) {id : ℕ}
    (hi : s.InCall i id) :
    ∃ as s', Run (step calls residue) (fun s a => ok s a ∧ a.isCall = false) s as s' ∧
      (bad s' ∨ ∃ out, (id, out) ∈ s'.returned) := by
  obtain ⟨ws, t, hwrite, hpushed, hwaiting⟩ :=
    exists_written calls residue (hok [] s (.nil s)) hi
  obtain ⟨ds, u, hdrain, hend, hcallers⟩ := exists_drain calls residue bad t
  have hwrite' : Run (step calls residue) (fun s a => ok s a ∧ a.isCall = false) s ws t :=
    hwrite.mono fun s a ⟨j, hj⟩ => by
      subst hj
      exact ⟨hallow s _ rfl nofun, rfl⟩
  have hdrain' : Run (step calls residue) (fun s a => ok s a ∧ a.isCall = false) t ds u :=
    hdrain.mono fun s a ⟨hcarry, hbad⟩ => by
      have hcall : a.isCall = false := by
        cases a <;> first | rfl | exact hcarry.elim
      exact ⟨hallow s a hcall fun _ => hbad, hcall⟩
  have hrun := hwrite'.trans hdrain'
  rcases hend with hbad | hdrained
  · exact ⟨_, u, hrun, .inl hbad⟩
  · have hu := hok _ u (hrun.mono fun _ _ h => h.1)
    rw [← hcallers] at hpushed hwaiting
    obtain ⟨v, out, hret, hmem⟩ := exists_ret calls residue hu hdrained hpushed hwaiting
    have hlast : ok u (.ret i) := hallow u (.ret i) rfl nofun
    exact ⟨_, v, hrun.trans (.single ⟨hlast, rfl⟩ hret), .inr ⟨out, hmem⟩⟩

end Progress

/-! ## One call after the other -/

section Sequential

variable {β ς : Type} {calls : Calls β ς} {residue : Bytes → List (Except Bytes Command)}
  {s : Conn β ς} {x x' : Exchange}

/-- A call begins when nothing of the calls before it is in flight, and its request is spelled. -/
def Quiet (s : Conn β ς) : ConnAction β → Prop
  | .call _ req => s.refuses req = true ∨ (req.Spelled ∧ s.exchange.inflight = [])
  | _ => True

instance (s : Conn β ς) : DecidablePred (Quiet s) := fun a =>
  match a with
  | .call _ req => inferInstanceAs (Decidable
      (s.refuses req = true ∨ (req.Spelled ∧ s.exchange.inflight = [])))
  | .write _ | .ret _ | .serve | .send | .enqueue _ | .poll | .selectResp | .selectMsg
  | .dispatch | .receive | .others _ => isTrue trivial

theorem length_deliverTo_le (reqs : List PendingReq) (f : Frame) (queue : List ℕ) :
    (deliverTo reqs f queue).queue.length ≤ queue.length := by
  induction queue with
  | nil => exact le_rfl
  | cons head rest ih =>
    rw [deliverTo]
    split_ifs
    · exact ih.trans (Nat.le_succ _)
    · exact Nat.le_succ _

theorem Exchange.Ok.behind_none (h : x.Ok) (hone : x.pending.queue.length ≤ 1) {it : Item}
    {rest : List Item} (hwire : x.wire = it :: rest) (hanswered : it.answered = true) :
    ∀ t ∈ (rest.filter Item.answered).map Item.call ++ (pushedIDs x.callers).map some,
      t = none := by
  obtain ⟨k, hk⟩ := h.aligned
  generalize hbehind : (rest.filter Item.answered).map Item.call ++
    (pushedIDs x.callers).map some = behind
  have hinflight : x.inflight = (x.responses.map Sent.call ++ [it.call]) ++ behind := by
    unfold Exchange.inflight
    rw [hwire, filter_cons_of_pos hanswered, map_cons, append_assoc,
      cons_append, hbehind, append_assoc]
    rfl
  -- The queue ends at the latest with what is served.
  have hle : (x.pending.queue.map some).length ≤
      (x.responses.map Sent.call ++ [it.call]).length := by
    rw [length_map, length_append, length_singleton]
    omega
  intro t ht
  have htail : behind = (List.replicate k none).drop
      ((x.responses.map Sent.call ++ [it.call]).length - (x.pending.queue.map some).length) := by
    have hdrop := congrArg (List.drop (x.responses.map Sent.call ++ [it.call]).length)
      (hinflight.symm.trans hk)
    rw [drop_left, drop_append, drop_eq_nil_of_le hle, nil_append] at hdrop
    exact hdrop
  rw [htail] at ht
  exact eq_of_mem_replicate (mem_of_mem_drop ht)

/-- One call at a time is in the queue. -/
theorem Exchange.Ok.step_quiet (h : x.Ok) (hone : x.pending.queue.length ≤ 1)
    (hstep : x.Step residue (fun _ => x.inflight = []) (fun _ => True) x') :
    x'.Ok ∧ x'.pending.queue.length ≤ 1 := by
  have hempty : x.inflight = [] → x.pending.queue = [] := fun hnil => by
    rw [← h.ids_inflight, hnil]
    rfl
  refine ⟨h.step hstep (fun _ hnil => ⟨?_, ?_⟩) fun it rest _ hwire hanswered _ _ =>
    h.behind_none hone hwire hanswered, ?_⟩
  · exact map_eq_nil_iff.mp (append_eq_nil_iff.mp hnil).2
  · rw [hnil]
    exact not_mem_nil
  · cases hstep with
    | call hmay =>
      dsimp only [Pending.push]
      rw [hempty hmay]
      exact le_rfl
    | deliver _ => exact (length_deliverTo_le _ _ _).trans hone
    | _ => exact hone

/-- The pairing is right in every run of quiet calls. -/
theorem ok_of_quiet {as : List (ConnAction β)} {s₀ : Conn β ς}
    (hrun : Run (Conn.step calls residue) Quiet s₀ as s)
    (h : s₀.exchange.Ok ∧ s₀.pending.queue.length ≤ 1) :
    s.exchange.Ok ∧ s.pending.queue.length ≤ 1 := by
  refine hrun.invariant (I := fun s => s.exchange.Ok ∧ s.pending.queue.length ≤ 1) h ?_
  intro s a s' hquiet hs hstep
  refine hs.1.step_quiet hs.2 (Conn.step_exchange hstep ?_ fun _ _ _ => trivial)
  intro i req ha hrefuse
  subst ha
  exact (hquiet.resolve_left (by rw [hrefuse]; exact Bool.false_ne_true)).2

/-- Each request gets its own response, for calls of spelled requests made one after the other that
begin when nothing is in flight: a call that returned has the outcome that the server computed for
its request, and a call that has not returned can. -/
theorem own_response_sequential {broker : β} {as : List (ConnAction β)}
    (hrun : Run (Conn.step calls residue) Quiet (.new ς 1 broker) as s) :
    (∀ r ∈ s.returned, ∃ c reply, s.history[r.1]? = some c ∧ c.reply = some reply ∧
        r.2 = c.req.outcome reply) ∧
      ∀ id, s.InCall 0 id → ∃ bs s', Run (Conn.step calls residue)
        (fun s a => Quiet s a ∧ a.isCall = false) s bs s' ∧ ∃ out, (id, out) ∈ s'.returned := by
  have hok := ok_of_quiet hrun ⟨ok_new ς 1 broker, Nat.zero_le 1⟩
  refine ⟨fun r hr => (hok.1.own_returned r hr).2, fun id hid => ?_⟩
  have hallow : ∀ (s : Conn β ς) (a : ConnAction β), a.isCall = false →
      (a = .serve → ¬ False) → Quiet s a := by
    intro s a ha _
    cases a <;> trivial
  obtain ⟨bs, s', hrun', hend⟩ := Conn.exists_return calls residue hallow
    (fun as s' hrun' => (ok_of_quiet hrun' hok).1) hid
  exact ⟨bs, s', hrun', hend.resolve_left not_false⟩

end Sequential

/-- The steps of a call by goroutine `i` whose reply has `k` frames, up to its return. All frames
are written before the first is read. -/
def oneCall (i : ℕ) (req : Request) (k : ℕ) : List (ConnAction Node) :=
  [.call i req, .write i, .serve] ++ List.replicate k .send ++ List.replicate k .poll ++
    [.dispatch, .ret i]

/-- A publish to topic `t`, with a key. -/
def keyed : Request := .pub { topic := [116], dedupeKey := [107], payload := [1] }

/-- A publish to topic `t`, without one. -/
def unkeyed : Request := .pub { topic := [116], payload := [2] }

/-- A publish, its duplicate, whose second frame is read before the next call, and a third. -/
theorem own_response_sequential_drained :
    ∃ s, Run (Conn.step (standalone fun _ => []) fun _ => []) Quiet
        (.new Subscription 1 (Node.new ⟨8, 1, 4, 0⟩))
        (oneCall 0 keyed 1 ++ oneCall 0 keyed 2 ++ [.dispatch] ++ oneCall 0 unkeyed 1) s ∧
      s.returned = [(0, .published 0 false), (1, .published 0 true), (2, .published 1 false)] ∧
      ∀ r ∈ s.returned, ∃ c reply, s.history[r.1]? = some c ∧ c.reply = some reply ∧
        r.2 = c.req.outcome reply := by
  exact exists_run_of_exec (by decide +kernel) fun _ hrun hreturned =>
    ⟨hreturned, (own_response_sequential hrun).1⟩

/-- The read loop reads the second frame of a duplicate after the next call has registered. The
call takes it for its own response and returns id 0; the server gives its message id 1. -/
theorem stale_ok :
    ∃ s, Run (Conn.step (standalone fun _ => []) fun _ => []) (fun _ _ => True)
        (.new Subscription 1 (Node.new ⟨8, 1, 4, 0⟩))
        (oneCall 0 keyed 1 ++ oneCall 0 keyed 2 ++
          [.call 0 unkeyed, .dispatch, .write 0, .ret 0, .serve]) s ∧
      s.returned.getLast? = some (2, .published 0 false) ∧
      s.history[2]?.map (fun c => (c.req, c.reply)) = some (unkeyed, some (.ok 1)) := by
  decide +kernel

/-! ## Concurrent calls -/

section Concurrent

variable {β ς : Type} {calls : Calls β ς} {residue : Bytes → List (Except Bytes Command)}
  {s : Conn β ς} {x x' : Exchange}

/-- A call registers when no other has yet to write its frame, its request is spelled, and its
payload is one that the parser reads. -/
def Exclusive (s : Conn β ς) : ConnAction β → Prop
  | .call _ req =>
    s.refuses req = true ∨ (req.Spelled ∧ pushedIDs s.callers = [] ∧ req.leftover = none)
  | _ => True

/-- The session is about to answer a duplicate. -/
def DedupeHit (calls : Calls β ς) (s : Conn β ς) : Prop :=
  ((s.nextReply calls).map Reply.surplus).getD [] ≠ []

/-- No publish hits the dedupe index. -/
def NoDedupeHit (calls : Calls β ς) (s : Conn β ς) (a : ConnAction β) : Prop :=
  a.isServe = true → ¬ DedupeHit calls s

/-- Everything in flight is for a call, and stays so. -/
structure Exchange.Clean (x : Exchange) : Prop where
  unread : ∀ f ∈ x.responses, f.call ≠ none
  on_wire : ∀ it ∈ x.wire, it.answered = true → it.call ≠ none
  read_whole : ∀ c ∈ x.history, c.req.leftover = none

theorem Exchange.Clean.none_notMem (h : x.Clean) : none ∉ x.inflight := by
  unfold Exchange.inflight
  simp only [mem_append, List.mem_map, mem_filter, not_or, not_exists, not_and]
  exact ⟨⟨h.unread, fun it hit => h.on_wire it hit.1 hit.2⟩, fun id _ => some_ne_none id⟩

theorem leftover_record {history : List Call} (h : ∀ c ∈ history, c.req.leftover = none)
    (call : Option ℕ) (reply : Option Reply) :
    ∀ c ∈ record history call reply, c.req.leftover = none := by
  intro c hc
  obtain ⟨id, hid⟩ := getElem?_of_mem hc
  have hlt : id < history.length := by
    rw [← length_record call reply]
    exact (List.getElem?_eq_some_iff.mp hid).1
  obtain ⟨c', hc', hreq⟩ := exists_req_record (getElem?_eq_getElem hlt) call reply
  obtain rfl := Option.some.inj (hid.symm.trans hc')
  rw [hreq]
  exact h _ (getElem_mem hlt)

theorem Exchange.Clean.step (h : x.Clean)
    (hstep : x.Step residue (fun req => pushedIDs x.callers = [] ∧ req.leftover = none)
      (fun reply => reply.surplus = []) x') : x'.Clean := by
  cases hstep with
  | stay => exact h
  | call hmay _ =>
    refine ⟨h.unread, h.on_wire, fun c hc => ?_⟩
    rcases mem_append.mp hc with hc | hc
    · exact h.read_whole c hc
    · rw [mem_singleton.mp hc]
      exact hmay.2
  | write _ hc =>
    refine ⟨h.unread, fun it hit hanswered => ?_, h.read_whole⟩
    rcases mem_append.mp hit with hit | hit
    · exact h.on_wire it hit hanswered
    · -- Of what was written, a trace line has no answer and nothing is left behind.
      unfold items at hit
      rw [h.read_whole _ (mem_of_getElem? hc)] at hit
      rcases mem_append.mp hit with hit | hit
      · split at hit
        · rw [mem_singleton.mp hit] at hanswered
          cases hanswered
        · cases hit
      · rw [mem_singleton.mp hit]
        exact some_ne_none _
  | ret => exact ⟨h.unread, h.on_wire, h.read_whole⟩
  | @serve it rest reply hwire hreply hmay =>
    refine ⟨fun f hf => ?_, fun it' hit' => h.on_wire it' (hwire ▸ mem_cons_of_mem it hit'),
      leftover_record h.read_whole _ _⟩
    rcases mem_append.mp hf with hf | hf
    · exact h.unread f hf
    · cases reply with
      | none => cases hf
      | some reply =>
        obtain ⟨β, ς, calls, session, hreply⟩ := hreply
        have hanswered : it.answered = true := by
          rw [Exchange.Ok.answered_iff calls session, hreply]
          exact some_ne_none reply
        -- Without a surplus the reply is one frame, for the call of the request.
        dsimp only [sentFrames] at hf
        rw [hmay reply rfl, map_nil, mem_singleton] at hf
        rw [hf]
        exact h.on_wire it (hwire ▸ mem_cons_self) hanswered
  | deliver hresp =>
    exact ⟨fun f hf => h.unread f (hresp ▸ mem_cons_of_mem _ hf), h.on_wire, h.read_whole⟩

theorem ok_of_exclusive {as : List (ConnAction β)} {s₀ : Conn β ς}
    (hrun : Run (Conn.step calls residue)
      (fun s a => Exclusive s a ∧ NoDedupeHit calls s a) s₀ as s)
    (h : s₀.exchange.Ok ∧ s₀.exchange.Clean) : s.exchange.Ok ∧ s.exchange.Clean := by
  refine hrun.invariant (I := fun s => s.exchange.Ok ∧ s.exchange.Clean) h ?_
  intro s a s' hok hs hstep
  have hx : Exchange.Step residue
      (fun req => pushedIDs s.callers = [] ∧ req.leftover = none)
      (fun reply => reply.surplus = []) s.exchange s'.exchange := by
    refine Conn.step_exchange hstep ?_ ?_
    · intro i req ha hrefuse
      subst ha
      exact (hok.1.resolve_left (by rw [hrefuse]; exact Bool.false_ne_true)).2
    · intro ha r hr
      subst ha
      have hhit := hok.2 rfl
      unfold DedupeHit at hhit
      rw [hr] at hhit
      exact not_ne_iff.mp hhit
  exact ⟨hs.1.step hx (fun _ hmay => ⟨hmay.1, hs.2.none_notMem⟩)
    (fun _ _ _ _ _ hmay hne => absurd hmay hne), hs.2.step hx⟩

/-- Each request gets its own response, for any number of goroutines that send spelled requests and
without dedupe hits, when no call registers while another has yet to write its frame. Frames are
written in the order of registration, and the pending queue is in the order of what is in flight. A
call that returned has the outcome that the server computed for its request, and a call that has not
returned can, unless a dedupe hit comes up. -/
theorem own_response_concurrent {n : ℕ} {broker : β} {as : List (ConnAction β)}
    (hrun : Run (Conn.step calls residue) (fun s a => Exclusive s a ∧ NoDedupeHit calls s a)
      (.new ς n broker) as s) :
    s.written ++ pushedIDs s.callers = List.range s.history.length ∧
      s.exchange.inflight = s.pending.queue.map some ∧
      (∀ r ∈ s.returned, ∃ c reply, s.history[r.1]? = some c ∧ c.reply = some reply ∧
        r.2 = c.req.outcome reply) ∧
      ∀ i id, s.InCall i id → ∃ bs s', Run (Conn.step calls residue)
        (fun s a => (Exclusive s a ∧ NoDedupeHit calls s a) ∧ a.isCall = false) s bs s' ∧
          (DedupeHit calls s' ∨ ∃ out, (id, out) ∈ s'.returned) := by
  have hclean : (Conn.new ς n broker).exchange.Clean :=
    ⟨fun f hf => (nomatch hf), fun it hit => (nomatch hit), fun c hc => (nomatch hc)⟩
  have hok := ok_of_exclusive hrun ⟨ok_new ς n broker, hclean⟩
  refine ⟨hok.1.in_order, ?_, fun r hr => (hok.1.own_returned r hr).2, fun i id hid => ?_⟩
  · obtain ⟨k, hk⟩ := hok.1.aligned
    have hzero : k = 0 := by
      by_contra hpos
      exact hok.2.none_notMem (hk ▸ mem_append_right _ (mem_replicate.mpr ⟨hpos, rfl⟩))
    rw [hk, hzero, replicate_zero, append_nil]
    rfl
  · refine Conn.exists_return calls residue (fun s a ha hserve => ⟨?_, ?_⟩)
      (fun as s' hrun' => (ok_of_exclusive hrun' hok).1) hid
    · cases a <;> trivial
    · intro hsv
      cases a <;> first | exact hserve rfl | cases hsv

instance (s : Conn β ς) : DecidablePred (Exclusive s) := fun a =>
  match a with
  | .call _ req => inferInstanceAs (Decidable
      (s.refuses req = true ∨
        (req.Spelled ∧ pushedIDs s.callers = [] ∧ req.leftover = none)))
  | .write _ | .ret _ | .serve | .send | .enqueue _ | .poll | .selectResp | .selectMsg
  | .dispatch | .receive | .others _ => isTrue trivial

instance (calls : Calls β ς) (s : Conn β ς) : DecidablePred (NoDedupeHit calls s) := fun a =>
  inferInstanceAs (Decidable (a.isServe = true →
    ¬ ((s.nextReply calls).map Reply.surplus).getD [] ≠ []))

end Concurrent

/-- Two goroutines whose calls are in flight together, in the order in which they registered. -/
theorem own_response_concurrent_overlapping :
    ∃ s, Run (Conn.step (standalone fun _ => []) fun _ => [])
        (fun s a => Exclusive s a ∧ NoDedupeHit (standalone fun _ => []) s a)
        (.new Subscription 2 (Node.new ⟨8, 1, 4, 0⟩))
        [.call 0 unkeyed, .write 0, .call 1 keyed, .write 1, .serve, .send, .serve, .send,
          .poll, .poll, .dispatch, .dispatch, .ret 1, .ret 0] s ∧
      s.returned = [(1, .published 1 false), (0, .published 0 false)] ∧
      ∀ r ∈ s.returned, ∃ c reply, s.history[r.1]? = some c ∧ c.reply = some reply ∧
        r.2 = c.req.outcome reply := by
  exact exists_run_of_exec (by decide +kernel) fun _ hrun hreturned =>
    ⟨hreturned, (own_response_concurrent hrun).2.2.1⟩

/-- Two goroutines register in one order and write in the other. Each gets the response of the
other. -/
theorem swapped_responses :
    ∃ s, Run (Conn.step (standalone fun _ => []) fun _ => [])
        (fun s a => NoDedupeHit (standalone fun _ => []) s a)
        (.new Subscription 2 (Node.new ⟨8, 1, 4, 0⟩))
        [.call 0 unkeyed, .call 1 keyed, .write 1, .write 0, .serve, .send, .serve, .send,
          .poll, .poll, .dispatch, .dispatch, .ret 0, .ret 1] s ∧
      s.written = [1, 0] ∧
      s.returned = [(0, .published 0 false), (1, .published 1 false)] ∧
      s.history.map Call.reply = [some (.ok 1), some (.ok 0)] := by
  decide +kernel

end ToyMQ.Client
