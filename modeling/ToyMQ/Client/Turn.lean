import ToyMQ.Client.AckLoop
import ToyMQ.Client.Pairing

/-!
# A connection that one consumer uses

Two facts about the connection of a consume-and-ack loop that do not depend on the broker. Messages
pass through the session's channel, the stream and the channel of deliveries in order, and none is
lost or made on the way (`Conn.Moves`). The call of the consumer is in one place at a time: about to
be written, on the wire, answered in the stream, or answered and read (`Turn`). In particular, when
a call returns, the server has handled its request.
-/

namespace ToyMQ.Client

open Lib Server List

/-! ## Messages on their way to the client -/

/-- The message of a frame. -/
def Sent.delivery? (f : Sent) : Option Delivery :=
  match f.frame with
  | .msg d => some d
  | _ => none

theorem Sent.delivery?_eq_none {f : Sent} (h : f.frame.isResponse = true) : f.delivery? = none := by
  unfold Sent.delivery?
  split
  next d hd =>
    rw [hd] at h
    cases h
  · rfl

theorem mem_record {history : List Call} {call : Option ℕ} {reply : Option Reply} {c : Call}
    (h : c ∈ record history call reply) : ∃ c₀ ∈ history, c.req = c₀.req := by
  obtain ⟨i, hi⟩ := getElem?_of_mem h
  have hlt : i < history.length := by
    rw [← length_record call reply]
    exact (List.getElem?_eq_some_iff.mp hi).1
  obtain ⟨c', hc', hreq⟩ := exists_req_record (getElem?_eq_getElem hlt) call reply
  obtain rfl := Option.some.inj (hi.symm.trans hc')
  exact ⟨_, getElem_mem hlt, hreq⟩

namespace Conn

variable {β ς : Type}

/-- The messages between the broker and the application, the oldest first. -/
def copies (s : Conn β ς) : List Delivery :=
  s.deliveryCh.getD [] ++ s.stream.filterMap Sent.delivery? ++ s.sendCh

/-- What a step does to them. -/
def Carries (a : ConnAction β) (before after : List Delivery) : Prop :=
  match a with
  | .receive => ∃ d, before = d :: after
  | .enqueue d => after = before ++ [d]
  | _ => after = before

/-- A connection that has subscribed, and that does not subscribe again. -/
structure Subscribed (s : Conn β ς) : Prop where
  ch : s.deliveryCh.isSome = true
  no_sub : ∀ c ∈ s.history, c.req.isSub = false
  length_eq : s.pending.reqs.length = s.history.length
  responses : ∀ f ∈ s.outbox ++ s.respCh, f.frame.isResponse = true

/-- What a step does to a subscribed connection. -/
structure Moves (a : ConnAction β) (s s' : Conn β ς) : Prop where
  subscribed : s'.Subscribed
  carries : Carries a s.copies s'.copies
  session : s'.session = s.session

variable {calls : Calls β ς} {residue : Bytes → List (Except Bytes Command)} {s s' : Conn β ς}

theorem Subscribed.serve (h : s.Subscribed) (hstep : s.step calls residue .serve = some s') :
    s'.Subscribed ∧ s'.copies = s.copies := by
  cases step_cases hstep with
  | serve =>
    refine ⟨⟨h.ch, fun c hc => ?_, ?_, fun f hf => ?_⟩, rfl⟩
    · obtain ⟨c₀, hc₀, hreq⟩ := mem_record hc
      rw [hreq]
      exact h.no_sub c₀ hc₀
    · rw [length_record]
      exact h.length_eq
    · rcases mem_append.mp hf with hf | hf
      · rw [← filter_sentFrames] at hf
        exact (mem_filter.mp hf).2
      · exact h.responses f (mem_append_right _ hf)

/-- A caller begins a call that does not subscribe. -/
theorem Subscribed.begin (h : s.Subscribed) (i : ℕ) {req : Request} (hreq : req.isSub = false) :
    (s.begin i req).Subscribed ∧ (s.begin i req).copies = s.copies := by
  have hch : (s.begin i req).deliveryCh = s.deliveryCh := by
    unfold Conn.begin
    rw [hreq]
    rfl
  refine ⟨⟨hch ▸ h.ch, fun c hc => ?_, ?_, h.responses⟩, ?_⟩
  · rcases mem_append.mp hc with hc | hc
    · exact h.no_sub c hc
    · rw [mem_singleton.mp hc]
      exact hreq
  · dsimp only [Conn.begin, Pending.push]
    rw [length_append, length_append, h.length_eq]
    rfl
  · unfold copies
    rw [hch]
    rfl

/-- A call returns; it was not a subscribe. -/
theorem Subscribed.finish (h : s.Subscribed) (i : ℕ) {id : ℕ} {c : Call}
    (hc : s.history[id]? = some c) (f : Frame) :
    (s.finish i id c.req f).Subscribed ∧ (s.finish i id c.req f).copies = s.copies := by
  have hch : (s.finish i id c.req f).deliveryCh = s.deliveryCh := by
    unfold Conn.finish
    rw [h.no_sub c (mem_of_getElem? hc)]
    rfl
  refine ⟨⟨hch ▸ h.ch, h.no_sub, h.length_eq, h.responses⟩, ?_⟩
  unfold copies
  rw [hch]
  rfl

variable {a : ConnAction β}

/-- The writer writes a response. -/
theorem Subscribed.writeResp (h : s.Subscribed) {f : Sent} {rest : List Sent} {polling : Bool}
    (hresp : s.respCh = f :: rest) (ha : a = .poll ∨ a = .selectResp) :
    Moves a s { s with respCh := rest, stream := s.stream ++ [f], polling := polling } := by
  have hf : f.frame.isResponse = true :=
    h.responses f (mem_append_right _ (hresp ▸ mem_cons_self))
  have hcopies : ({ s with respCh := rest, stream := s.stream ++ [f], polling := polling } :
      Conn β ς).copies = s.copies := by
    unfold copies
    rw [filterMap_append, filterMap_cons_none (Sent.delivery?_eq_none hf)]
    simp
  refine ⟨⟨h.ch, h.no_sub, h.length_eq, fun g hg => h.responses g ?_⟩, ?_, rfl⟩
  · rw [hresp]
    exact (mem_append.mp hg).elim (mem_append_left _)
      fun hg => mem_append_right _ (mem_cons_of_mem f hg)
  · rcases ha with rfl | rfl <;> exact hcopies

theorem Subscribed.step (h : s.Subscribed) (hcall : ∀ i req, a = .call i req → req.isSub = false)
    (hserve : a ≠ .serve) (hothers : ∀ broker, a ≠ .others broker)
    (hstep : s.step calls residue a = some s') : Moves a s s' := by
  cases step_cases hstep with
  | refused => exact ⟨h, rfl, rfl⟩
  | @call i req =>
    obtain ⟨hsub, hcopies⟩ := h.begin i (hcall i req rfl)
    exact ⟨hsub, hcopies, rfl⟩
  | write | pollNone => exact ⟨⟨h.ch, h.no_sub, h.length_eq, h.responses⟩, rfl, rfl⟩
  | @ret i id c f _ hc =>
    obtain ⟨hsub, hcopies⟩ := h.finish i hc f
    exact ⟨hsub, hcopies, rfl⟩
  | serve => exact absurd rfl hserve
  | send hout =>
    refine ⟨⟨h.ch, h.no_sub, h.length_eq, fun g hg => h.responses g ?_⟩, rfl, rfl⟩
    -- The frame goes from one of the two places to the other.
    rw [hout]
    simp only [mem_append, mem_cons, not_mem_nil, or_false] at hg ⊢
    tauto
  | enqueue =>
    exact ⟨⟨h.ch, h.no_sub, h.length_eq, h.responses⟩, (append_assoc _ _ _).symm, rfl⟩
  | pollResp _ hresp => exact h.writeResp hresp (.inl rfl)
  | selectResp _ hresp => exact h.writeResp hresp (.inr rfl)
  | @selectMsg d rest _ hsend =>
    refine ⟨⟨h.ch, h.no_sub, h.length_eq, h.responses⟩, ?_, rfl⟩
    change _ ++ (s.stream ++ [(⟨.msg d, none⟩ : Sent)]).filterMap Sent.delivery? ++ rest =
      s.copies
    unfold copies
    rw [hsend, filterMap_append]
    simp [Sent.delivery?]
  | dropped _ hnil =>
    have hch := h.ch
    rw [hnil] at hch
    cases hch
  | @delivered d call rest ch hstream hch =>
    refine ⟨⟨rfl, h.no_sub, h.length_eq, h.responses⟩, ?_, rfl⟩
    have hmsg : Sent.delivery? ⟨.msg d, call⟩ = some d := rfl
    change ch ++ [d] ++ rest.filterMap Sent.delivery? ++ s.sendCh = s.copies
    unfold copies
    rw [hch, hstream, filterMap_cons_some hmsg, Option.getD_some, append_assoc ch]
    rfl
  | @responded f rest hstream hresp =>
    refine ⟨⟨h.ch, h.no_sub, ?_, h.responses⟩, ?_, rfl⟩
    · exact (Pending.length_deliver _ _).trans h.length_eq
    · change _ ++ rest.filterMap Sent.delivery? ++ _ = s.copies
      unfold copies
      rw [hstream, filterMap_cons_none (Sent.delivery?_eq_none hresp)]
  | @receive d ch hch =>
    refine ⟨⟨rfl, h.no_sub, h.length_eq, h.responses⟩, ⟨d, ?_⟩, rfl⟩
    unfold copies
    rw [hch]
    rfl
  | others broker => exact absurd rfl (hothers broker)

end Conn

/-! ## One call at a time -/

/-- How far the call of the consumer is. -/
inductive Stage where
  /-- There is none. -/
  | free
  /-- The session has yet to read the request. -/
  | asking (req : Request)
  /-- The server has handled it. -/
  | answered

/-- The exchange of a client with one caller: the call, its request and its response are in one
place at a time. -/
inductive Turn (x : Exchange) : Stage → Prop where
  | idle (hcallers : x.callers = [.idle]) (hwire : x.wire = []) (hresp : x.responses = [])
    (hqueue : x.pending.queue = []) : Turn x .free
  | pushed {id : ℕ} {req : Request} (hcallers : x.callers = [.pushed id]) (hwire : x.wire = [])
    (hresp : x.responses = []) (hqueue : x.pending.queue = [id])
    (hlive : x.pending.reqs[id]? = some ⟨none, false⟩)
    (hreq : x.history[id]? = some ⟨req, none⟩) : Turn x (.asking req)
  | written {id : ℕ} {req : Request} (hcallers : x.callers = [.waiting id])
    (hwire : x.wire = [⟨req.parse, some id⟩]) (hresp : x.responses = [])
    (hqueue : x.pending.queue = [id]) (hlive : x.pending.reqs[id]? = some ⟨none, false⟩) :
    Turn x (.asking req)
  | served {id : ℕ} {f : Sent} (hcallers : x.callers = [.waiting id]) (hwire : x.wire = [])
    (hresp : x.responses = [f]) (hqueue : x.pending.queue = [id])
    (hlive : x.pending.reqs[id]? = some ⟨none, false⟩) : Turn x .answered
  | told {id : ℕ} (hcallers : x.callers = [.waiting id]) (hwire : x.wire = [])
    (hresp : x.responses = []) (hqueue : x.pending.queue = []) : Turn x .answered

theorem settleRequest_spec (consumerID : Bytes) (d : Delivery) (ack : Bool) :
    (settleRequest consumerID d ack).isSub = false ∧
      (∀ {β ς : Type} (s : Conn β ς), s.refuses (settleRequest consumerID d ack) = false) ∧
      ∀ residue id, items residue id (settleRequest consumerID d ack) =
        [⟨(settleRequest consumerID d ack).parse, some id⟩] := by
  cases ack <;> exact ⟨rfl, fun _ => rfl, fun _ _ => rfl⟩

theorem parse_settleRequest (consumerID : Bytes) (d : Delivery) (ack : Bool) :
    (settleRequest consumerID d ack).parse =
      .ok (if ack then .ack consumerID d.partition d.msgID
        else .nack consumerID d.partition d.msgID) := by
  have hpartition : ¬ (d.partition : ℤ) < 0 := Int.not_lt.mpr (Int.natCast_nonneg _)
  cases ack with
  | true =>
    dsimp only [settleRequest, Request.parse]
    rw [if_neg hpartition]
    rfl
  | false =>
    dsimp only [settleRequest, Request.parse]
    rw [if_neg hpartition]
    rfl

namespace Turn

variable {β ς : Type} {calls : Calls β ς} {residue : Bytes → List (Except Bytes Command)}
  {s s' : Conn β ς} {stage : Stage} {req : Request}

variable {ph : Phase}

/-- The phase of the only caller. -/
theorem phase_eq {ph' : Phase} (hcallers : s.exchange.callers = [ph])
    (h : s.callers[0]? = some ph') : ph = ph' := by
  rw [show s.callers = [ph] from hcallers] at h
  exact Option.some.inj h

theorem callers_set (hcallers : s.exchange.callers = [ph]) (ph' : Phase) :
    s.callers.set 0 ph' = [ph'] := by
  rw [show s.callers = [ph] from hcallers]
  rfl

/-- The caller begins a call. -/
theorem call (h : Turn s.exchange stage) (hsub : s.Subscribed) (hrefuse : s.refuses req = false)
    (hstep : s.step calls residue (.call 0 req) = some s') :
    stage = .free ∧ Turn s'.exchange (.asking req) := by
  cases Conn.step_cases hstep with
  | refused _ hrefuse' => cases hrefuse.symm.trans hrefuse'
  | call hidle =>
    cases h with
    | idle hcallers hwire hresp hqueue =>
      refine ⟨rfl, .pushed (callers_set hcallers _) hwire hresp ?_ ?_ ?_⟩
      · change s.pending.queue ++ _ = _
        rw [show s.pending.queue = [] from hqueue]
        rfl
      · exact getElem?_concat_length
      · rw [hsub.length_eq]
        exact getElem?_concat_length
    | pushed hcallers | written hcallers | served hcallers | told hcallers =>
      cases phase_eq hcallers hidle

/-- The caller writes its frame. -/
theorem write (h : Turn s.exchange stage)
    (hitems : ∀ req, stage = .asking req → ∀ id,
      items residue id req = [⟨req.parse, some id⟩])
    (hstep : s.step calls residue (.write 0) = some s') : Turn s'.exchange stage := by
  cases Conn.step_cases hstep with
  | @write _ id c hpushed hc =>
    cases h with
    | pushed hcallers hwire hresp hqueue hlive hreq =>
      cases phase_eq hcallers hpushed
      cases hc.symm.trans hreq
      refine .written (callers_set hcallers _) ?_ hresp hqueue hlive
      rw [show s.wire = [] from hwire, hitems _ rfl]
      rfl
    | idle hcallers | written hcallers | served hcallers | told hcallers =>
      cases phase_eq hcallers hpushed

/-- The caller has the response and returns. -/
theorem ret (h : Turn s.exchange stage) (hstep : s.step calls residue (.ret 0) = some s') :
    stage = .answered ∧ Turn s'.exchange .free := by
  cases Conn.step_cases hstep with
  | @ret _ id c f hwaiting _ hf =>
    cases h with
    | told hcallers hwire hresp hqueue =>
      exact ⟨rfl, .idle (callers_set hcallers _) hwire hresp hqueue⟩
    | written hcallers _ _ _ hlive | served hcallers _ _ _ hlive =>
      -- There is no response yet.
      cases phase_eq hcallers hwaiting
      rw [show s.pending.reqs[id]? = some ⟨none, false⟩ from hlive] at hf
      cases hf
    | idle hcallers | pushed hcallers => cases phase_eq hcallers hwaiting

theorem serve (h : Turn s.exchange stage)
    (hreply : ∀ req, stage = .asking req →
      ∃ reply, (s.session.handleParsed calls req.parse).2 = some reply ∧ reply.surplus = [])
    (hstep : s.step calls residue .serve = some s') :
    ∃ id req, stage = .asking req ∧ s.wire = [⟨req.parse, some id⟩] ∧
      s'.session = (s.session.handleParsed calls req.parse).1 ∧ Turn s'.exchange .answered := by
  cases Conn.step_cases hstep with
  | serve hout hwire' =>
    cases h with
    | @written id req hcallers hwire hresp hqueue hlive =>
      obtain ⟨rfl, rfl⟩ := List.cons.inj (hwire'.symm.trans hwire)
      obtain ⟨reply, hr, hsurplus⟩ := hreply req rfl
      refine ⟨id, req, rfl, hwire, rfl, ?_⟩
      rw [Conn.exchange_serve hout]
      have hone : s.exchange.responses ++
          sentFrames (some id) (s.session.handleParsed calls req.parse).2 =
            [⟨reply.frame, some id⟩] := by
        rw [hresp, hr, sentFrames, hsurplus]
        rfl
      exact .served hcallers rfl hone hqueue hlive
    | idle _ hwire | pushed _ hwire | served _ hwire | told _ hwire =>
      cases hwire'.symm.trans hwire

/-- The read loop reads a frame. -/
theorem dispatch (h : Turn s.exchange stage) (hstep : s.step calls residue .dispatch = some s') :
    Turn s'.exchange stage := by
  cases Conn.step_cases hstep with
  | dropped hstream | delivered hstream =>
    rw [Conn.exchange_of_msg hstream]
    exact h
  | responded hstream hframe =>
    have hmore := Conn.responses_of_stream hstream hframe
    cases h with
    | served hcallers hwire hresp hqueue hlive =>
      -- The response goes to the only call in the queue.
      obtain ⟨rfl, hnone⟩ := List.cons.inj (hmore.symm.trans hresp)
      refine .told hcallers hwire hnone ?_
      unfold Pending.deliver
      rw [show s.pending.queue = _ from hqueue, deliverTo,
        show s.pending.reqs[_]? = _ from hlive]
      rfl
    | idle _ _ hresp | pushed _ _ hresp | written _ _ hresp | told _ _ hresp =>
      cases hmore.symm.trans hresp

end Turn

end ToyMQ.Client
