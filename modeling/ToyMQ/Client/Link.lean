import ToyMQ.Client.Connection
import ToyMQ.Lib.Run
import ToyMQ.Server.Standalone

/-!
# The channels of a session

`Connection` treats the handling of a command as one step, and the channels of the session as queues
that anyone may fill. Here a session is taken apart where its goroutines can interleave. `handleSub`
is cut at the point where its `OK` is handed over: the checks are before it, and the subscription,
whose goroutines push messages, is opened after it (`Session.startSub_eq`). The writer is cut
between its two selects. The first one falls through when no response is there; the second one takes
whatever is ready, or parks until something is, and what arrives then is handed to it directly.

The client is any program that issues commands and answers messages that it has received. It is not
held to one subscription at a time.
-/

namespace ToyMQ.Client

open Lib Broker Server

/-! ## The system -/

/-- What the reader of the session reads. -/
structure Incoming where
  parsed : Except Bytes Command
  /-- The message that the client answers with it. -/
  answers : Option Delivery

structure Response where
  frame : Frame
  /-- The number of the subscribe that it is the `OK` of. -/
  sub : Option ℕ
deriving DecidableEq

/-- A snapshot of a message. -/
structure Push where
  delivery : Delivery
  /-- The number of the subscribe that it is pushed for. -/
  sub : ℕ
deriving DecidableEq

/-- A frame on the connection. -/
inductive Written where
  | resp (r : Response)
  | msg (p : Push)
deriving DecidableEq

/-- The message in a frame. -/
def Written.delivery? : Written → Option Delivery
  | .resp _ => none
  | .msg p => some p.delivery

/-- Where `runWriter` is. -/
inductive WriterState where
  /-- Before its first select. -/
  | polling
  /-- The first select has found no response, and the second one has not begun. -/
  | between
  /-- It waits in the second select. -/
  | parked
  | exited
deriving DecidableEq

/-- A session with its channels, and its client. The numbers of subscribes, the topics in `subs` and
the history in `written` are there for the statements only. -/
structure Link (β ς : Type) where
  inbox : List Incoming
  session : Session β ς
  /-- The subscribe whose subscription the reader has yet to open. -/
  opening : Option SubCommand
  /-- The responses that the reader is handing over. -/
  outbox : List Response
  respCh : List Response
  sendCh : List Push
  writer : WriterState
  /-- The topics of the subscriptions that the session has opened. -/
  subs : List Bytes
  /-- The frames that were written to the connection. -/
  written : List Written
  /-- How many of them the client has read. -/
  seen : ℕ
  /-- The messages that the client has received and may answer. -/
  held : List Delivery

def Link.new {β : Type} (ς : Type) (broker : β) : Link β ς where
  inbox := []
  session := .new ς broker
  opening := none
  outbox := []
  respCh := []
  sendCh := []
  writer := .polling
  subs := []
  written := []
  seen := 0
  held := []

/-- A step of the system. -/
inductive LinkAction (β : Type) where
  /-- The client sends something that is not the answer to a message. -/
  | issue (parsed : Except Bytes Command)
  /-- It answers a message. -/
  | answer (d : Delivery) (consumerID : Bytes) (ack : Bool)
  /-- It is done with a message. -/
  | discard (d : Delivery)
  /-- It reads a frame. -/
  | receive
  /-- The reader handles what it reads next, up to the responses. -/
  | read
  /-- `sendResp`. -/
  | respond
  /-- The reader opens the subscription that it has acknowledged. -/
  | openSub
  /-- The goroutine of a subscription, a nack or the redelivery loop pushes a message. -/
  | push (p : Push)
  /-- The first select of the writer. -/
  | poll
  /-- The second select takes a response, or a message, or waits. -/
  | selectResp
  | selectMsg
  | park
  /-- The writer returns, because the session ends or a write fails. -/
  | exit
  /-- Others use the broker. -/
  | others (f : β → β)

def answerCommand (d : Delivery) (consumerID : Bytes) (ack : Bool) : Command :=
  if ack then .ack consumerID d.partition d.msgID else .nack consumerID d.partition d.msgID

namespace Link

variable {β ς : Type}

/-- The reader handles a subscribe up to its response. -/
def readSub (calls : Calls β ς) (s : Link β ς) (c : SubCommand) : Link β ς :=
  match (s.session.endSub calls).admitSub calls c with
  | (session, some reply) =>
    { s with session := session, outbox := reply.frames.map fun f => ⟨f, none⟩ }
  | (session, none) =>
    { s with session := session, opening := some c, outbox := [⟨.ok 0, some s.subs.length⟩] }

def handle (calls : Calls β ς) (s : Link β ς) : Except Bytes Command → Link β ς
  | .ok (.sub c) => s.readSub calls c
  | parsed =>
    let r := s.session.handleParsed calls parsed
    { s with
      session := r.1
      outbox := (r.2.map Reply.frames).getD [] |>.map fun f => ⟨f, none⟩ }

/-- The writer takes a frame and writes it. -/
def write (s : Link β ς) (w : Written) : Link β ς :=
  { s with written := s.written ++ [w], writer := .polling }

def step (calls : Calls β ς) (s : Link β ς) : LinkAction β → Option (Link β ς)
  | .issue parsed => some { s with inbox := s.inbox ++ [⟨parsed, none⟩] }
  | .answer d consumerID ack =>
    if d ∈ s.held then
      some { s with inbox := s.inbox ++ [⟨.ok (answerCommand d consumerID ack), some d⟩] }
    else none
  | .discard d => some { s with held := s.held.erase d }
  | .receive =>
    s.written[s.seen]?.map fun w =>
      { s with seen := s.seen + 1, held := s.held ++ w.delivery?.toList }
  | .read =>
    match s.opening, s.outbox, s.inbox with
    | none, [], it :: rest => some ({ s with inbox := rest }.handle calls it.parsed)
    | _, _, _ => none
  | .respond =>
    match s.outbox with
    | [] => none
    | r :: rest =>
      match s.writer with
      | .parked => some ({ s with outbox := rest }.write (.resp r))
      | .exited => some { s with outbox := rest }
      | .polling | .between =>
        if s.respCh.length < respChBuf then
          some { s with outbox := rest, respCh := s.respCh ++ [r] }
        else none
  | .openSub =>
    match s.opening, s.outbox with
    | some c, [] =>
      some { s with
        session := s.session.completeSub calls c
        opening := none
        subs := s.subs ++ [c.topic] }
    | _, _ => none
  | .push p =>
    if s.subs[p.sub]? = some p.delivery.topic then
      match s.writer with
      | .parked => some (s.write (.msg p))
      | .polling | .between | .exited =>
        if s.sendCh.length < sendChBuf then some { s with sendCh := s.sendCh ++ [p] } else none
    else none
  | .poll =>
    match s.writer, s.respCh with
    | .polling, [] => some { s with writer := .between }
    | .polling, r :: rest => some ({ s with respCh := rest }.write (.resp r))
    | _, _ => none
  | .selectResp =>
    match s.writer, s.respCh with
    | .between, r :: rest => some ({ s with respCh := rest }.write (.resp r))
    | _, _ => none
  | .selectMsg =>
    match s.writer, s.sendCh with
    | .between, p :: rest => some ({ s with sendCh := rest }.write (.msg p))
    | _, _ => none
  | .park =>
    match s.writer, s.respCh, s.sendCh with
    | .between, [], [] => some { s with writer := .parked }
    | _, _, _ => none
  | .exit => some { s with writer := .exited }
  | .others f => some { s with session := { s.session with broker := f s.session.broker } }

/-! ## What a step does -/

/-- What a step does, for each way in which it is enabled. -/
inductive Step (calls : Calls β ς) (s : Link β ς) : LinkAction β → Link β ς → Prop where
  | issue (parsed : Except Bytes Command) :
    Step calls s (.issue parsed) { s with inbox := s.inbox ++ [⟨parsed, none⟩] }
  | answer {d : Delivery} (hheld : d ∈ s.held) (consumerID : Bytes) (ack : Bool) :
    Step calls s (.answer d consumerID ack)
      { s with inbox := s.inbox ++ [⟨.ok (answerCommand d consumerID ack), some d⟩] }
  | discard (d : Delivery) : Step calls s (.discard d) { s with held := s.held.erase d }
  | receive {w : Written} (hw : s.written[s.seen]? = some w) :
    Step calls s .receive { s with seen := s.seen + 1, held := s.held ++ w.delivery?.toList }
  | read {it : Incoming} {rest : List Incoming} (hopening : s.opening = none)
    (hinbox : s.inbox = it :: rest) :
    Step calls s .read ({ s with inbox := rest }.handle calls it.parsed)
  | respondParked {r : Response} {rest : List Response} (houtbox : s.outbox = r :: rest)
    (hwriter : s.writer = .parked) :
    Step calls s .respond ({ s with outbox := rest }.write (.resp r))
  | respondExited {r : Response} {rest : List Response} (houtbox : s.outbox = r :: rest)
    (hwriter : s.writer = .exited) : Step calls s .respond { s with outbox := rest }
  | respondQueued {r : Response} {rest : List Response} (houtbox : s.outbox = r :: rest)
    (hwriter : s.writer ≠ .parked) :
    Step calls s .respond { s with outbox := rest, respCh := s.respCh ++ [r] }
  | openSub {c : SubCommand} (hopening : s.opening = some c) (houtbox : s.outbox = []) :
    Step calls s .openSub
      { s with
        session := s.session.completeSub calls c
        opening := none
        subs := s.subs ++ [c.topic] }
  | pushParked {p : Push} (hsub : s.subs[p.sub]? = some p.delivery.topic)
    (hwriter : s.writer = .parked) : Step calls s (.push p) (s.write (.msg p))
  | pushQueued {p : Push} (hsub : s.subs[p.sub]? = some p.delivery.topic) :
    Step calls s (.push p) { s with sendCh := s.sendCh ++ [p] }
  | pollNone (hwriter : s.writer = .polling) (hresp : s.respCh = []) :
    Step calls s .poll { s with writer := .between }
  | pollResp {r : Response} {rest : List Response} (hwriter : s.writer = .polling)
    (hresp : s.respCh = r :: rest) :
    Step calls s .poll ({ s with respCh := rest }.write (.resp r))
  | selectResp {r : Response} {rest : List Response} (hwriter : s.writer = .between)
    (hresp : s.respCh = r :: rest) :
    Step calls s .selectResp ({ s with respCh := rest }.write (.resp r))
  | selectMsg {p : Push} {rest : List Push} (hwriter : s.writer = .between)
    (hsend : s.sendCh = p :: rest) :
    Step calls s .selectMsg ({ s with sendCh := rest }.write (.msg p))
  | park (hwriter : s.writer = .between) (hresp : s.respCh = []) :
    Step calls s .park { s with writer := .parked }
  | exit : Step calls s .exit { s with writer := .exited }
  | others (f : β → β) :
    Step calls s (.others f) { s with session := { s.session with broker := f s.session.broker } }

theorem step_cases {calls : Calls β ς} {s s' : Link β ς} {a : LinkAction β}
    (h : s.step calls a = some s') : Step calls s a s' := by
  cases a with
  | issue parsed =>
    cases h
    exact .issue parsed
  | answer d consumerID ack =>
    dsimp only [step] at h
    split_ifs at h with hheld
    cases h
    exact .answer hheld consumerID ack
  | discard d =>
    cases h
    exact .discard d
  | receive =>
    obtain ⟨w, hw, rfl⟩ := Option.map_eq_some_iff.mp h
    exact .receive hw
  | read =>
    dsimp only [step] at h
    split at h
    next it rest hopening _ hinbox =>
      cases h
      exact .read hopening hinbox
    · cases h
  | respond =>
    dsimp only [step] at h
    split at h
    · cases h
    next r rest houtbox =>
      split at h
      next hwriter =>
        cases h
        exact .respondParked houtbox hwriter
      next hwriter =>
        cases h
        exact .respondExited houtbox hwriter
      next hwriter =>
        split_ifs at h
        cases h
        exact .respondQueued houtbox (by rw [hwriter]; exact WriterState.noConfusion)
      next hwriter =>
        split_ifs at h
        cases h
        exact .respondQueued houtbox (by rw [hwriter]; exact WriterState.noConfusion)
  | openSub =>
    dsimp only [step] at h
    split at h
    next c hopening houtbox =>
      cases h
      exact .openSub hopening houtbox
    · cases h
  | push p =>
    by_cases hsub : s.subs[p.sub]? = some p.delivery.topic
    · dsimp only [step] at h
      rw [if_pos hsub] at h
      cases hwriter : s.writer with
      | parked =>
        rw [hwriter] at h
        cases h
        exact .pushParked hsub hwriter
      | polling | between | exited =>
        rw [hwriter] at h
        dsimp only at h
        split_ifs at h
        rw [← hwriter] at h
        cases h
        exact .pushQueued hsub
    · dsimp only [step] at h
      rw [if_neg hsub] at h
      cases h
  | poll =>
    dsimp only [step] at h
    split at h
    next hwriter hresp =>
      cases h
      exact .pollNone hwriter hresp
    next r rest hwriter hresp =>
      cases h
      exact .pollResp hwriter hresp
    · cases h
  | selectResp =>
    dsimp only [step] at h
    split at h
    next r rest hwriter hresp =>
      cases h
      exact .selectResp hwriter hresp
    · cases h
  | selectMsg =>
    dsimp only [step] at h
    split at h
    next p rest hwriter hsend =>
      cases h
      exact .selectMsg hwriter hsend
    · cases h
  | park =>
    dsimp only [step] at h
    split at h
    next hwriter hresp hsend =>
      cases h
      exact .park hwriter hresp
    · cases h
  | exit =>
    cases h
    exact .exit
  | others f =>
    cases h
    exact .others f

end Link

/-! ## Steps of others on a standalone broker -/

/-- A broker with nothing in it, and no dead-letter policy. -/
def emptyNode : Node := .new ⟨16, 1, 4, 0⟩

/-- Another client publishes a message. -/
def othersPublish (topic payload : Bytes) : LinkAction Node :=
  .others fun n => (publishCtx n topic [] [] 0 false payload 0).1

/-- The delivery goroutine of a consumer registers record `k` of partition 0. -/
def othersRegister (topic consumerID : Bytes) (k : ℕ) : LinkAction Node :=
  .others fun n => (Replication.localStep n (.deliver topic 0 consumerID k)).getD n

end ToyMQ.Client
