import ToyMQ.Client.Request
import ToyMQ.Lib.Run
import ToyMQ.Server.Standalone

/-!
# A client connected to a session

Any number of goroutines call one client. A call registers in the pending queue, writes its frame
and waits; the client's read loop hands each response to the head of the queue. Between the two
are the session's reader, which calls the broker, its response channel, its writer and the stream.
Messages to consumers share the writer and the stream with the responses.

The client pairs responses with calls by their order alone. `Exchange` is the part of the state
that this depends on, with all unread responses in one sequence, and `Conn.step_exchange` says
what each step does to it. The pairing is right as long as the queue lists the calls in the order
of what is in flight and nothing that no call waits for comes before what one does
(`Exchange.Ok`).
-/

namespace ToyMQ.Client

open Lib Server Broker List Option

/-! ## The pending queue -/

/-- `pendingReq`. -/
structure PendingReq where
  /-- The channel `resp`, which holds at most one frame. -/
  resp : Option Frame
  cancelled : Bool
deriving DecidableEq, Repr

/-- `pendingQueue`. The queue holds pointers; `reqs` are all requests there have been. -/
structure Pending where
  reqs : List PendingReq
  queue : List ℕ
deriving DecidableEq, Repr

/-- `push`. -/
def Pending.push (q : Pending) : Pending :=
  ⟨q.reqs ++ [⟨none, false⟩], q.queue ++ [q.reqs.length]⟩

/-- The loop of `deliver`. -/
def deliverTo (reqs : List PendingReq) (f : Frame) : List ℕ → Pending
  | [] => ⟨reqs, []⟩
  | head :: rest =>
    if (reqs[head]?.map PendingReq.cancelled).getD true then deliverTo reqs f rest
    else ⟨reqs.modify head fun p => { p with resp := some f }, rest⟩

/-- `deliver`. -/
def Pending.deliver (q : Pending) (f : Frame) : Pending := deliverTo q.reqs f q.queue

variable {q : Pending} {p : PendingReq}

theorem Pending.getElem?_push {id : ℕ} (h : q.push.reqs[id]? = some p) :
    q.reqs[id]? = some p ∨ id = q.reqs.length ∧ p = ⟨none, false⟩ := by
  unfold Pending.push at h
  rcases Nat.lt_or_ge id q.reqs.length with hlt | hge
  · rw [getElem?_append_left hlt] at h
    exact .inl h
  · rw [getElem?_append_right hge] at h
    obtain ⟨hlen, rfl⟩ := List.getElem?_eq_some_iff.mp h
    rw [length_singleton] at hlen
    exact .inr ⟨by omega, getElem_singleton _⟩

theorem Pending.deliver_cons {head : ℕ} {queue : List ℕ} (hq : q.queue = head :: queue)
    (hp : q.reqs[head]? = some p) (hlive : p.cancelled = false) (f : Frame) :
    q.deliver f = ⟨q.reqs.modify head fun p => { p with resp := some f }, queue⟩ := by
  unfold Pending.deliver
  rw [hq, deliverTo, hp, map_some, getD_some, hlive]
  rfl

theorem Pending.length_deliver (q : Pending) (f : Frame) :
    (q.deliver f).reqs.length = q.reqs.length := by
  unfold Pending.deliver
  induction q.queue with
  | nil => rfl
  | cons head rest ih =>
    rw [deliverTo]
    split
    · exact ih
    · exact length_modify _ _ _

/-! ## The system -/

/-- Where a goroutine is in a call. -/
inductive Phase where
  | idle
  /-- It is in the queue and has yet to write its frame. -/
  | pushed (id : ℕ)
  | waiting (id : ℕ)
deriving DecidableEq, Repr

/-- The call whose frame is still to be written. -/
def Phase.pushedID : Phase → Option ℕ
  | .pushed id => some id
  | _ => none

/-- What the session reads next, with the call whose request it is. -/
structure Item where
  parsed : Except Bytes Command
  call : Option ℕ

/-- Whether the session answers it. -/
def Item.answered (it : Item) : Bool :=
  match it.parsed with
  | .ok .traceparent => false
  | _ => true

/-- A frame on its way to the client, with the call whose reply it begins. -/
structure Sent where
  frame : Frame
  call : Option ℕ

/-- A call, with the reply that the server has computed for it. -/
structure Call where
  req : Request
  reply : Option Reply

/-- A client, a session and what is between them. The calls in `history`, the numbers of calls on
items and frames, `written` and `returned` are there for the statements only. -/
structure Conn (β ς : Type) where
  history : List Call
  pending : Pending
  callers : List Phase
  subActive : Bool
  /-- The channel of deliveries, unless it is nil. -/
  deliveryCh : Option (List Delivery)
  /-- What the session has yet to read. -/
  wire : List Item
  session : Session β ς
  /-- The frames of the reply that the session's reader is sending. -/
  outbox : List Sent
  respCh : List Sent
  sendCh : List Delivery
  /-- Whether the writer is before the first of its two selects. -/
  polling : Bool
  stream : List Sent
  /-- The calls whose frames were written, in that order. -/
  written : List ℕ
  returned : List (ℕ × Outcome)

/-- A new connection of a client that `n` goroutines share. -/
def Conn.new {β : Type} (ς : Type) (n : ℕ) (broker : β) : Conn β ς where
  history := []
  pending := ⟨[], []⟩
  callers := List.replicate n .idle
  subActive := false
  deliveryCh := none
  wire := []
  session := .new ς broker
  outbox := []
  respCh := []
  sendCh := []
  polling := true
  stream := []
  written := []
  returned := []

/-- The steps of the system. -/
inductive ConnAction (β : Type) where
  /-- Goroutine `i` begins a call, up to its `push`. -/
  | call (i : ℕ) (req : Request)
  /-- It writes its frame, under the write mutex. -/
  | write (i : ℕ)
  /-- It takes the response and returns. -/
  | ret (i : ℕ)
  /-- The session's reader reads and handles what comes next. -/
  | serve
  /-- It puts a frame of its reply on the response channel. -/
  | send
  /-- A delivery goroutine hands a message to the session. -/
  | enqueue (d : Delivery)
  /-- The first select of the writer. -/
  | poll
  /-- The second select of the writer takes a response, or a message. -/
  | selectResp
  | selectMsg
  /-- The client's read loop reads and dispatches a frame. -/
  | dispatch
  /-- The application takes a delivery. -/
  | receive
  /-- Others use the broker. -/
  | others (broker : β)

/-- The steps that no call and no reply takes part in. -/
def ConnAction.quiet {β : Type} : ConnAction β → Bool
  | .send | .enqueue _ | .poll | .selectResp | .selectMsg | .receive | .others _ => true
  | _ => false

/-- `respChBuf`. -/
def respChBuf : ℕ := 8

/-- `sendChBuf`. -/
def sendChBuf : ℕ := 64

/-- The capacity of the channel of deliveries. -/
def deliveryChBuf : ℕ := 64

/-- Whether a call subscribes. -/
def Request.isSub : Request → Bool
  | .sub _ => true
  | _ => false

/-- The numbers of the calls whose frames are still to be written. -/
def pushedIDs (callers : List Phase) : List ℕ := callers.filterMap Phase.pushedID

/-- What the frame of a call is to the session. Of a payload that was left in the stream it reads
the lines as commands; `residue` is what the parser makes of them. -/
def items (residue : Bytes → List (Except Bytes Command)) (id : ℕ) (req : Request) : List Item :=
  (if req.traced then [⟨.ok .traceparent, none⟩] else []) ++
    ⟨req.parse, some id⟩ :: ((req.leftover.map residue).getD []).map fun p => ⟨p, none⟩

/-- The frames of a reply, with the call that the first of them is for. -/
def sentFrames (call : Option ℕ) : Option Reply → List Sent
  | none => []
  | some reply => ⟨reply.frame, call⟩ :: reply.surplus.map fun f => ⟨f, none⟩

/-- The server has computed the reply to a call. -/
def record (history : List Call) : Option ℕ → Option Reply → List Call
  | some id, some reply => history.modify id fun c => { c with reply := some reply }
  | _, _ => history

namespace Conn

variable {β ς : Type}

/-- A call that the client refuses by itself: a second subscription, or a topic without
partitions. -/
def refuses (s : Conn β ς) : Request → Bool
  | .sub _ => s.subActive
  | .create _ partitions => partitions < 1
  | _ => false

/-- The client has begun a call. -/
def begin (s : Conn β ς) (i : ℕ) (req : Request) : Conn β ς :=
  { s with
    history := s.history ++ [⟨req, none⟩]
    pending := s.pending.push
    callers := s.callers.set i (.pushed s.pending.reqs.length)
    subActive := s.subActive || req.isSub
    deliveryCh := if req.isSub then some [] else s.deliveryCh }

/-- A call has got the frame `f`; a subscribe that failed is taken back. -/
def finish (s : Conn β ς) (i id : ℕ) (req : Request) (f : Frame) : Conn β ς :=
  let failed := req.isSub && decide (req.resolve f ≠ .done)
  { s with
    callers := s.callers.set i .idle
    subActive := s.subActive && !failed
    deliveryCh := if failed then none else s.deliveryCh
    returned := s.returned ++ [(id, req.resolve f)] }

/-- `dispatch`. The read loop waits while the channel of deliveries is full. -/
def dispatch (s : Conn β ς) (f : Frame) (rest : List Sent) : Option (Conn β ς) :=
  match f with
  | .msg d =>
    match s.deliveryCh with
    | none => some { s with stream := rest }
    | some ch =>
      if ch.length < deliveryChBuf then
        some { s with stream := rest, deliveryCh := some (ch ++ [d]) }
      else none
  | f => some { s with stream := rest, pending := s.pending.deliver f }

/-- A step of the system. -/
def step (calls : Calls β ς) (residue : Bytes → List (Except Bytes Command)) (s : Conn β ς) :
    ConnAction β → Option (Conn β ς)
  | .call i req =>
    match s.callers[i]? with
    | some .idle => if s.refuses req then some s else some (s.begin i req)
    | _ => none
  | .write i =>
    match s.callers[i]? with
    | some (.pushed id) =>
      s.history[id]?.map fun c =>
        { s with
          callers := s.callers.set i (.waiting id)
          wire := s.wire ++ items residue id c.req
          written := s.written ++ [id] }
    | _ => none
  | .ret i =>
    match s.callers[i]? with
    | some (.waiting id) =>
      s.history[id]?.bind fun c =>
        (s.pending.reqs[id]?.bind PendingReq.resp).map fun f => s.finish i id c.req f
    | _ => none
  | .serve =>
    match s.outbox, s.wire with
    | [], it :: rest =>
      let r := s.session.handleParsed calls it.parsed
      some { s with
        session := r.1
        wire := rest
        outbox := sentFrames it.call r.2
        history := record s.history it.call r.2 }
    | _, _ => none
  | .send =>
    match s.outbox with
    | [] => none
    | f :: rest =>
      if s.respCh.length < respChBuf then some { s with outbox := rest, respCh := s.respCh ++ [f] }
      else none
  | .enqueue d =>
    if s.sendCh.length < sendChBuf then some { s with sendCh := s.sendCh ++ [d] } else none
  | .poll =>
    if s.polling then
      match s.respCh with
      | [] => some { s with polling := false }
      | f :: rest => some { s with respCh := rest, stream := s.stream ++ [f] }
    else none
  | .selectResp =>
    match s.polling, s.respCh with
    | false, f :: rest =>
      some { s with respCh := rest, stream := s.stream ++ [f], polling := true }
    | _, _ => none
  | .selectMsg =>
    match s.polling, s.sendCh with
    | false, d :: rest =>
      some { s with sendCh := rest, stream := s.stream ++ [⟨.msg d, none⟩], polling := true }
    | _, _ => none
  | .dispatch =>
    match s.stream with
    | [] => none
    | f :: rest => s.dispatch f.frame rest
  | .receive =>
    match s.deliveryCh with
    | some (_ :: ch) => some { s with deliveryCh := some ch }
    | _ => none
  | .others broker => some { s with session := { s.session with broker := broker } }

end Conn

/-! ## The exchange -/

/-- The part of a connection that the pairing depends on. -/
structure Exchange where
  history : List Call
  pending : Pending
  callers : List Phase
  wire : List Item
  /-- The responses that the client has yet to read. -/
  responses : List Sent
  written : List ℕ
  returned : List (ℕ × Outcome)

/-- The exchange of a connection. -/
def Conn.exchange {β ς : Type} (s : Conn β ς) : Exchange where
  history := s.history
  pending := s.pending
  callers := s.callers
  wire := s.wire
  responses := (s.stream ++ s.respCh ++ s.outbox).filter fun f => f.frame.isResponse
  written := s.written
  returned := s.returned

/-- What a step does to the exchange, where calls and replies meet the given conditions. -/
inductive Exchange.Step (residue : Bytes → List (Except Bytes Command))
    (mayCall : Request → Prop) (mayServe : Reply → Prop) (x : Exchange) : Exchange → Prop where
  | stay : Step residue mayCall mayServe x x
  | call {i : ℕ} {req : Request} (hmay : mayCall req) (hi : x.callers[i]? = some .idle) :
      Step residue mayCall mayServe x { x with
        history := x.history ++ [⟨req, none⟩]
        pending := x.pending.push
        callers := x.callers.set i (.pushed x.pending.reqs.length) }
  | write {i id : ℕ} {c : Call} (hi : x.callers[i]? = some (.pushed id))
      (hc : x.history[id]? = some c) :
      Step residue mayCall mayServe x { x with
        callers := x.callers.set i (.waiting id)
        wire := x.wire ++ items residue id c.req
        written := x.written ++ [id] }
  | ret {i id : ℕ} {c : Call} {f : Frame} (hi : x.callers[i]? = some (.waiting id))
      (hc : x.history[id]? = some c) (hf : x.pending.reqs[id]?.bind PendingReq.resp = some f) :
      Step residue mayCall mayServe x { x with
        callers := x.callers.set i .idle
        returned := x.returned ++ [(id, c.req.resolve f)] }
  | serve {it : Item} {rest : List Item} {reply : Option Reply} (hwire : x.wire = it :: rest)
      (hreply : ∃ (β ς : Type) (calls : Calls β ς) (session : Session β ς),
        (session.handleParsed calls it.parsed).2 = reply)
      (hmay : ∀ r, reply = some r → mayServe r) :
      Step residue mayCall mayServe x { x with
        history := record x.history it.call reply
        wire := rest
        responses := x.responses ++ sentFrames it.call reply }
  | deliver {f : Sent} {rest : List Sent} (hresp : x.responses = f :: rest) :
      Step residue mayCall mayServe x
        { x with pending := x.pending.deliver f.frame, responses := rest }

namespace Conn

variable {β ς : Type} {calls : Calls β ς} {residue : Bytes → List (Except Bytes Command)}
  {s s' : Conn β ς}

/-- The steps of a connection as a relation: what each of them needs, and what it does. -/
inductive Step (calls : Calls β ς) (residue : Bytes → List (Except Bytes Command))
    (s : Conn β ς) : ConnAction β → Conn β ς → Prop where
  | refused {i : ℕ} {req : Request} (hi : s.callers[i]? = some .idle)
    (hrefuse : s.refuses req = true) : Step calls residue s (.call i req) s
  | call {i : ℕ} {req : Request} (hi : s.callers[i]? = some .idle)
    (hrefuse : s.refuses req = false) : Step calls residue s (.call i req) (s.begin i req)
  | write {i id : ℕ} {c : Call} (hi : s.callers[i]? = some (.pushed id))
    (hc : s.history[id]? = some c) :
    Step calls residue s (.write i) { s with
      callers := s.callers.set i (.waiting id)
      wire := s.wire ++ items residue id c.req
      written := s.written ++ [id] }
  | ret {i id : ℕ} {c : Call} {f : Frame} (hi : s.callers[i]? = some (.waiting id))
    (hc : s.history[id]? = some c) (hf : s.pending.reqs[id]?.bind PendingReq.resp = some f) :
    Step calls residue s (.ret i) (s.finish i id c.req f)
  | serve {it : Item} {rest : List Item} (hout : s.outbox = []) (hwire : s.wire = it :: rest) :
    Step calls residue s .serve { s with
      session := (s.session.handleParsed calls it.parsed).1
      wire := rest
      outbox := sentFrames it.call (s.session.handleParsed calls it.parsed).2
      history := record s.history it.call (s.session.handleParsed calls it.parsed).2 }
  | send {f : Sent} {rest : List Sent} (hout : s.outbox = f :: rest)
    (hroom : s.respCh.length < respChBuf) :
    Step calls residue s .send { s with outbox := rest, respCh := s.respCh ++ [f] }
  | enqueue (d : Delivery) (hroom : s.sendCh.length < sendChBuf) :
    Step calls residue s (.enqueue d) { s with sendCh := s.sendCh ++ [d] }
  | pollNone (hpolling : s.polling = true) (hresp : s.respCh = []) :
    Step calls residue s .poll { s with polling := false }
  | pollResp {f : Sent} {rest : List Sent} (hpolling : s.polling = true)
    (hresp : s.respCh = f :: rest) :
    Step calls residue s .poll { s with respCh := rest, stream := s.stream ++ [f] }
  | selectResp {f : Sent} {rest : List Sent} (hpolling : s.polling = false)
    (hresp : s.respCh = f :: rest) :
    Step calls residue s .selectResp
      { s with respCh := rest, stream := s.stream ++ [f], polling := true }
  | selectMsg {d : Delivery} {rest : List Delivery} (hpolling : s.polling = false)
    (hsend : s.sendCh = d :: rest) :
    Step calls residue s .selectMsg
      { s with sendCh := rest, stream := s.stream ++ [⟨.msg d, none⟩], polling := true }
  | dropped {d : Delivery} {call : Option ℕ} {rest : List Sent}
    (hstream : s.stream = ⟨.msg d, call⟩ :: rest) (hch : s.deliveryCh = none) :
    Step calls residue s .dispatch { s with stream := rest }
  | delivered {d : Delivery} {call : Option ℕ} {rest : List Sent} {ch : List Delivery}
    (hstream : s.stream = ⟨.msg d, call⟩ :: rest) (hch : s.deliveryCh = some ch)
    (hroom : ch.length < deliveryChBuf) :
    Step calls residue s .dispatch { s with stream := rest, deliveryCh := some (ch ++ [d]) }
  | responded {f : Sent} {rest : List Sent} (hstream : s.stream = f :: rest)
    (hresp : f.frame.isResponse = true) :
    Step calls residue s .dispatch
      { s with stream := rest, pending := s.pending.deliver f.frame }
  | receive {d : Delivery} {ch : List Delivery} (hch : s.deliveryCh = some (d :: ch)) :
    Step calls residue s .receive { s with deliveryCh := some ch }
  | others (broker : β) :
    Step calls residue s (.others broker)
      { s with session := { s.session with broker := broker } }

variable {f : Sent} {rest : List Sent} {a : ConnAction β}

/-- What the read loop does with a frame. -/
theorem dispatch_cases (hstream : s.stream = f :: rest) (h : s.dispatch f.frame rest = some s') :
    Step calls residue s .dispatch s' := by
  obtain ⟨frame, call⟩ := f
  unfold dispatch at h
  dsimp only at h
  split at h
  next d =>
    split at h
    next hch =>
      cases h
      exact .dropped hstream hch
    next ch hch =>
      split_ifs at h with hroom
      cases h
      exact .delivered hstream hch hroom
  next hmsg =>
    cases h
    refine .responded hstream ?_
    cases frame with
    | msg d => exact absurd rfl (hmsg d)
    | _ => rfl

/-- Every step is one of the relation. -/
theorem step_cases (h : s.step calls residue a = some s') : Step calls residue s a s' := by
  cases a with
  | call =>
    dsimp only [step] at h
    split at h
    next hi =>
      split at h
      next hrefuse =>
        cases h
        exact .refused hi hrefuse
      next hrefuse =>
        cases h
        exact .call hi (Bool.not_eq_true _ ▸ hrefuse)
    · cases h
  | write =>
    dsimp only [step] at h
    split at h
    next hi =>
      obtain ⟨c, hc, rfl⟩ := map_eq_some_iff.mp h
      exact .write hi hc
    · cases h
  | ret =>
    dsimp only [step] at h
    split at h
    next hi =>
      obtain ⟨c, hc, h⟩ := bind_eq_some_iff.mp h
      obtain ⟨f, hf, rfl⟩ := map_eq_some_iff.mp h
      exact .ret hi hc hf
    · cases h
  | serve =>
    dsimp only [step] at h
    split at h
    next hout hwire =>
      cases h
      exact .serve hout hwire
    · cases h
  | send =>
    dsimp only [step] at h
    split at h
    · cases h
    next hout =>
      split_ifs at h with hroom
      cases h
      exact .send hout hroom
  | enqueue d =>
    dsimp only [step] at h
    split_ifs at h with hroom
    cases h
    exact .enqueue d hroom
  | poll =>
    dsimp only [step] at h
    split_ifs at h with hpolling
    split at h
    next hresp =>
      cases h
      exact .pollNone hpolling hresp
    next hresp =>
      cases h
      exact .pollResp hpolling hresp
  | selectResp =>
    dsimp only [step] at h
    split at h
    next hpolling hresp =>
      cases h
      exact .selectResp hpolling hresp
    · cases h
  | selectMsg =>
    dsimp only [step] at h
    split at h
    next hpolling hsend =>
      cases h
      exact .selectMsg hpolling hsend
    · cases h
  | dispatch =>
    dsimp only [step] at h
    split at h
    · cases h
    next hstream => exact dispatch_cases hstream h
  | receive =>
    dsimp only [step] at h
    split at h
    next hch =>
      cases h
      exact .receive hch
    · cases h
  | others broker =>
    cases h
    exact .others broker

def nextReply (calls : Calls β ς) (s : Conn β ς) : Option Reply :=
  s.wire.head?.bind fun it => (s.session.handleParsed calls it.parsed).2

/-- All frames of a reply are responses. -/
theorem filter_sentFrames (call : Option ℕ) (reply : Option Reply) :
    (sentFrames call reply).filter (fun f => f.frame.isResponse) = sentFrames call reply := by
  cases reply with
  | none => rfl
  | some reply => cases reply <;> rfl

theorem exchange_quiet (ha : a.quiet = true) (h : s.step calls residue a = some s') :
    s'.exchange = s.exchange := by
  cases step_cases h with
  | send hout => simp [exchange, hout]
  | pollResp _ hresp | selectResp _ hresp => simp [exchange, hresp]
  | selectMsg => simp [exchange, Frame.isResponse]
  | enqueue | pollNone | receive | others => rfl
  | refused | call | write | ret | serve | dropped | delivered | responded => cases ha

/-- What the session's reader does to the exchange. -/
theorem exchange_serve {it : Item} {rest : List Item} (hout : s.outbox = []) :
    ({ s with
      session := (s.session.handleParsed calls it.parsed).1
      wire := rest
      outbox := sentFrames it.call (s.session.handleParsed calls it.parsed).2
      history := record s.history it.call (s.session.handleParsed calls it.parsed).2 } :
        Conn β ς).exchange =
      { s.exchange with
        history := record s.history it.call (s.session.handleParsed calls it.parsed).2
        wire := rest
        responses := s.exchange.responses ++
          sentFrames it.call (s.session.handleParsed calls it.parsed).2 } := by
  have hframes := filter_sentFrames it.call (s.session.handleParsed calls it.parsed).2
  simp only [exchange, hout, append_nil, filter_append, hframes]

/-- A message is no response. -/
theorem exchange_of_msg {d : Delivery} {call : Option ℕ} {ch : Option (List Delivery)}
    (hstream : s.stream = ⟨.msg d, call⟩ :: rest) :
    ({ s with stream := rest, deliveryCh := ch } : Conn β ς).exchange = s.exchange := by
  simp [exchange, hstream, Frame.isResponse]

/-- The read loop hands on the first unread response. -/
theorem responses_of_stream (hstream : s.stream = f :: rest) (hresp : f.frame.isResponse = true) :
    s.exchange.responses =
      f :: (rest ++ s.respCh ++ s.outbox).filter fun f => f.frame.isResponse := by
  simp [exchange, hstream, hresp]

/-- Every step is one of the exchange. -/
theorem step_exchange {mayCall : Request → Prop} {mayServe : Reply → Prop}
    (h : s.step calls residue a = some s')
    (hcall : ∀ i req, a = .call i req → s.refuses req = false → mayCall req)
    (hserve : a = .serve → ∀ r, s.nextReply calls = some r → mayServe r) :
    Exchange.Step residue mayCall mayServe s.exchange s'.exchange := by
  cases step_cases h with
  | refused => exact .stay
  | call hi hrefuse => exact .call (hcall _ _ rfl hrefuse) hi
  | write hi hc => exact .write hi hc
  | ret hi hc hf => exact .ret hi hc hf
  | serve hout hwire =>
    rw [exchange_serve hout]
    refine .serve hwire ⟨β, ς, calls, s.session, rfl⟩ fun r hr => hserve rfl r ?_
    rw [nextReply, hwire]
    exact hr
  | dropped hstream | delivered hstream =>
    rw [exchange_of_msg hstream]
    exact .stay
  | responded hstream hresp => exact .deliver (responses_of_stream hstream hresp)
  | send | enqueue | pollNone | pollResp | selectResp | selectMsg | receive | others =>
    rw [exchange_quiet rfl h]
    exact .stay

end Conn

end ToyMQ.Client
