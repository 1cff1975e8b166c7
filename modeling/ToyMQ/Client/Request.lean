import ToyMQ.Lib.Text
import ToyMQ.Server.Session

/-!
# The requests of a client

What a client sends for each of its calls, what the server's parser makes of it, and what the call
makes of the frame it gets. `Request.resolve_frame` says that the two sides agree: when the frame
is that of the server's reply to the request, the call returns the outcome that the server
computed (`Request.outcome`). Whether a call gets the frame of its own reply is another matter.

Topics, keys and consumer ids are to be tokens without blanks, and a topic has no selector of its
own; the partition that follows it on the wire is a field of the request. What the parser makes of
a request is told for those that are spelled so (`Request.Spelled`): a topic with a blank in it
would be read as other words, and answered by other frames.
-/

namespace ToyMQ.Client

open Lib Server

/-- The arguments of `Pub`, `PubDelay` and `PubWait`. -/
structure PubArgs where
  topic : Bytes
  /-- The partition of a topic given as `<topic>#<n>`. -/
  partition : Option (Fin (2 ^ 63)) := none
  dedupeKey : Bytes := []
  routingKey : Bytes := []
  payload : Bytes := []
  delayMs : UInt64 := 0
  waitReplicas : ℤ := 0
  waitTimeoutMs : UInt64 := 0
  /-- Whether a trace line precedes the frame. -/
  traced : Bool := false
deriving DecidableEq, Repr

/-- The arguments of `Sub` and `SubStale`. -/
structure SubArgs where
  topic : Bytes
  /-- One partition, or all of them. -/
  partition : Option (Fin (2 ^ 63)) := none
  consumerID : Bytes
  stale : Bool := false
  traced : Bool := false
deriving DecidableEq, Repr

/-- A call of a client. -/
inductive Request where
  | pub (a : PubArgs)
  | sub (a : SubArgs)
  | ack (consumerID : Bytes) (partition : ℤ) (msgID : UInt64)
  | nack (consumerID : Bytes) (partition : ℤ) (msgID : UInt64)
  | create (topic : Bytes) (partitions : ℤ)
  | pause
  | resume
  | info
deriving DecidableEq, Repr

/-! ## What the client writes -/

/-- The numeral of an `int`. -/
def itoa (v : ℤ) : Bytes := if v < 0 then 45 :: decimal v.natAbs else decimal v.toNat

/-- A topic with the number of a partition behind it, as a caller gives it. -/
def topicWord (topic : Bytes) : Option (Fin (2 ^ 63)) → Bytes
  | none => topic
  | some n => topic ++ 35 :: decimal n

/-- An empty key is sent as a dash. -/
def keyWord (key : Bytes) : Bytes := if key = [] then ascii "-" else key

/-- The words behind the payload length in the header of `pubFull`. -/
def PubArgs.optionWords (a : PubArgs) : List Bytes :=
  (if 0 < a.delayMs then [ascii "DELAY", decimal a.delayMs.toNat] else []) ++
    if 0 < a.waitReplicas then
      [ascii "WAIT", itoa a.waitReplicas, decimal a.waitTimeoutMs.toNat]
    else []

/-- The words of the line that the client writes for a request. -/
def Request.words : Request → List Bytes
  | .pub a =>
    [ascii "PUB", topicWord a.topic a.partition, keyWord a.dedupeKey, keyWord a.routingKey,
      decimal a.payload.length] ++ a.optionWords
  | .sub a =>
    [ascii "SUB", topicWord a.topic a.partition, a.consumerID] ++
      if a.stale then [ascii "STALE"] else []
  | .ack consumerID partition msgID =>
    [ascii "ACK", consumerID, itoa partition, decimal msgID.toNat]
  | .nack consumerID partition msgID =>
    [ascii "NACK", consumerID, itoa partition, decimal msgID.toNat]
  | .create topic partitions => [ascii "CREATE", topic, ascii "PARTITIONS", itoa partitions]
  | .pause => [ascii "PAUSE"]
  | .resume => [ascii "RESUME"]
  | .info => [ascii "INFO", ascii "replication"]

/-- A key is empty, or a token. -/
def IsKey (key : Bytes) : Prop := key = [] ∨ IsToken key

/-- A value of Go's `int`. -/
def IsInt (v : ℤ) : Prop := -2 ^ 63 ≤ v ∧ v < 2 ^ 63

/-- The words of a request are tokens, its topic has no separator of its own, its numbers are those
of an `int`, and its line is within the length that the server reads. -/
def Request.Spelled (req : Request) : Prop :=
  (unwords req.words).length + 1 ≤ maxLineLength ∧
  match req with
  | .pub a =>
    IsToken a.topic ∧ 35 ∉ a.topic ∧ IsKey a.dedupeKey ∧ IsKey a.routingKey ∧ IsInt a.waitReplicas
  | .sub a => IsToken a.topic ∧ 35 ∉ a.topic ∧ IsToken a.consumerID
  | .ack consumerID partition _ | .nack consumerID partition _ =>
    IsToken consumerID ∧ IsInt partition
  | .create topic partitions => IsToken topic ∧ IsInt partitions
  | .pause | .resume | .info => True

instance : DecidablePred IsKey := fun _ => inferInstanceAs (Decidable (_ ∨ _))

instance : DecidablePred IsInt := fun _ => inferInstanceAs (Decidable (_ ∧ _))

instance : DecidablePred Request.Spelled
  | .pub _ => inferInstanceAs (Decidable (_ ∧ _ ∧ _ ∧ IsKey _ ∧ IsKey _ ∧ IsInt _))
  | .sub _ => inferInstanceAs (Decidable (_ ∧ _ ∧ _ ∧ IsToken _))
  | .ack _ _ _ | .nack _ _ _ | .create _ _ =>
    inferInstanceAs (Decidable (_ ∧ IsToken _ ∧ IsInt _))
  | .pause | .resume | .info => inferInstanceAs (Decidable (_ ∧ True))

/-! ## What the parser makes of it -/

/-- An empty key is sent as a dash, and a dash is read as the empty key. -/
def wireKey (key : Bytes) : Bytes := if key = ascii "-" then [] else key

/-- The error of `parseAck` and `parseNack` on a negative partition. -/
def negativePartition (verb : String) (partition : ℤ) : Bytes :=
  ascii ("proto: invalid command: " ++ verb ++ " partition \"-") ++ decimal partition.natAbs ++
    ascii "\""

/-- The command that the server reads, or why it rejects the frame. -/
def Request.parse : Request → Except Bytes Command
  | .pub a =>
    if defaultMaxPayload < a.payload.length then .error (ascii "proto: payload too large")
    else .ok (.pub
      { topic := a.topic
        dedupeKey := wireKey a.dedupeKey
        routingKey := wireKey a.routingKey
        partition := (a.partition.map fun n => (n.val : ℤ)).getD 0
        partitionSet := a.partition.isSome
        payload := a.payload
        delayMs := a.delayMs
        -- The tokens are sent only when there is something to wait for.
        waitReplicas := if 0 < a.waitReplicas then a.waitReplicas else 0
        waitTimeoutMs := if 0 < a.waitReplicas then a.waitTimeoutMs else 0 })
  | .sub a => .ok (.sub
      { topic := a.topic
        partition := (a.partition.map fun n => (n.val : ℤ)).getD 0
        allPartitions := a.partition.isNone
        consumerID := a.consumerID
        stale := a.stale })
  | .ack consumerID partition msgID =>
    if partition < 0 then .error (negativePartition "ACK" partition)
    else .ok (.ack consumerID partition msgID)
  | .nack consumerID partition msgID =>
    if partition < 0 then .error (negativePartition "NACK" partition)
    else .ok (.nack consumerID partition msgID)
  | .create topic partitions => .ok (.create topic partitions)
  | .pause => .ok .pause
  | .resume => .ok .resume
  | .info => .ok .info

/-- No request is read as a trace line. -/
theorem Request.parse_ne_traceparent (req : Request) : req.parse ≠ .ok .traceparent := by
  cases req with
  | pub | ack | nack =>
    dsimp only [Request.parse]
    split <;> simp
  | _ => simp [Request.parse]

/-- Whether a trace line precedes the frame. -/
def Request.traced : Request → Bool
  | .pub a => a.traced
  | .sub a => a.traced
  | _ => false

/-- The payload that the parser leaves in the stream: it rejects one that is too large without
reading it. -/
def Request.leftover : Request → Option Bytes
  | .pub a => if defaultMaxPayload < a.payload.length then some a.payload else none
  | _ => none

/-! ## What a call returns -/

/-- What a call returns. -/
inductive Outcome where
  | published (id : UInt64) (dup : Bool)
  | done
  | info (role : Option Bytes) (raw : List (Bytes × Bytes))
  | waitTimeout (id : UInt64)
  | notLeader (hint : Bytes)
  | server (code : FailCode) (reason : Bytes)
  | transport (reason : Bytes)
  | idMismatch (want got : UInt64)
  | malformedID (reason : Bytes)
  | malformedLine (line : Bytes)
  | serverWaitTimeout (reason : Bytes)
  | unexpected
deriving DecidableEq, Repr

/-- `strings.TrimSpace`, for the blanks of ASCII. -/
def trimSpace (bs : Bytes) : Bytes :=
  let blank (b : UInt8) : Bool := b = 32 || (9 ≤ b && b ≤ 13)
  ((bs.dropWhile blank).reverse.dropWhile blank).reverse

/-- `serverErr`. -/
def serverErr (code : ErrCode) (reason : Bytes) : Outcome :=
  match code with
  | .transport => .transport reason
  | .notLeader => .notLeader reason
  | .waitTimeout => .serverWaitTimeout reason
  | .fail code => .server code reason

/-- `resolvePubResp`. -/
def resolvePubResp : Frame → Outcome
  | .ok id => .published id false
  | .dup id => .published id true
  | .err .waitTimeout reason =>
    match parseBelow (2 ^ 64) (trimSpace reason) with
    | none => .malformedID reason
    | some id => .waitTimeout (UInt64.ofNat id)
  | .err code reason => serverErr code reason
  | _ => .unexpected

/-- The end of `sub`, `Create` and `sendControl`. -/
def resolveOk : Frame → Outcome
  | .ok _ => .done
  | .err code reason => serverErr code reason
  | _ => .unexpected

/-- The end of `sendAckLike`. -/
def resolveAckLike (msgID : UInt64) : Frame → Outcome
  | .ok id => if id = msgID then .done else .idMismatch msgID id
  | .err code reason => serverErr code reason
  | _ => .unexpected

/-- The loop of `resolveInfoResp`: each line is cut at its first colon. A later value of a key
replaces an earlier one. -/
def infoOutcome (raw : List (Bytes × Bytes)) : List Bytes → Outcome
  | [] => .info (raw.lookup (ascii "role")) raw
  | line :: rest =>
    match line.dropWhile (· ≠ 58) with
    | [] => .malformedLine line
    | _ :: value => infoOutcome ((line.takeWhile (· ≠ 58), value) :: raw) rest

/-- `resolveInfoResp`. -/
def resolveInfoResp : Frame → Outcome
  | .info lines => infoOutcome [] lines
  | .err code reason => serverErr code reason
  | _ => .unexpected

/-- What a call makes of the frame it gets. -/
def Request.resolve : Request → Frame → Outcome
  | .pub _ => resolvePubResp
  | .ack _ _ msgID => resolveAckLike msgID
  | .nack _ _ msgID => resolveAckLike msgID
  | .info => resolveInfoResp
  | .sub _ | .create _ _ | .pause | .resume => resolveOk

/-! ## The two sides agree -/

def Request.outcome (req : Request) : Reply → Outcome
  | .ok id =>
    match req with
    | .pub _ => .published id false
    | _ => .done
  | .dup id => .published id true
  | .waitTimeout id => .waitTimeout id
  | .notLeader hint => .notLeader hint
  | .failed code reason => .server code reason
  | .info lines => infoOutcome [] lines

/-- The replies that the server can have for a request. -/
def Request.Answers (req : Request) : Reply → Prop
  | .ok id =>
    match req with
    | .ack _ _ msgID | .nack _ _ msgID => id = msgID
    | .info => False
    | _ => True
  | .dup _ | .waitTimeout _ => ∃ a, req = .pub a
  | .info _ => req = .info
  | .notLeader _ | .failed _ _ => True

/-- Errors answer every request. -/
theorem answers_reply (req : Request) (code : FailCode) (e : CallError) :
    req.Answers (e.reply code) := by
  cases e <;> trivial

section Session

variable {β ς : Type} (calls : Calls β ς) (s : Session β ς)

theorem answers_handlePub (a : PubArgs) (c : PubCommand) :
    (Request.pub a).Answers (s.handlePub calls c).2 := by
  unfold Session.handlePub
  dsimp only
  split
  · exact ⟨a, rfl⟩
  · exact answers_reply _ _ _
  · split_ifs
    · exact ⟨a, rfl⟩
    · trivial

variable {req : Request}

theorem answers_handleSettle {msgID : UInt64} (hok : req.Answers (.ok msgID)) (verb : String)
    (code : FailCode) (call : β → Bytes → ℤ → Bytes → UInt64 → β × Except CallError Unit)
    (consumerID : Bytes) (partition : ℤ) :
    req.Answers (s.handleSettle verb code call consumerID partition msgID).2 := by
  unfold Session.handleSettle
  split_ifs
  · trivial
  · dsimp only
    split
    · exact answers_reply _ _ _
    · exact hok

theorem answers_handleCreate (topic : Bytes) (partitions : ℤ) :
    (Request.create topic partitions).Answers (s.handleCreate calls topic partitions).2 := by
  unfold Session.handleCreate
  dsimp only
  split
  · exact answers_reply _ _ _
  · trivial

theorem answers_handlePauseResume (hok : req.Answers (.ok 0)) (paused : Bool) :
    req.Answers (s.handlePauseResume calls paused).2 := by
  unfold Session.handlePauseResume
  split
  · trivial
  · exact hok

theorem answers_handleSub (a : SubArgs) (c : SubCommand) :
    (Request.sub a).Answers (s.handleSub calls c).2 := by
  unfold Session.handleSub Session.startSub
  split_ifs
  · trivial
  · split
    · trivial
    · split_ifs
      · trivial
      · split
        · trivial
        · split <;> trivial

theorem exists_reply (req : Request) :
    ∃ reply, (s.handleParsed calls req.parse).2 = some reply ∧ req.Answers reply := by
  cases req with
  | pub a =>
    dsimp only [Request.parse]
    split
    · exact ⟨_, rfl, trivial⟩
    · exact ⟨_, rfl, answers_handlePub calls s a _⟩
  | sub a => exact ⟨_, rfl, answers_handleSub calls s a _⟩
  | ack consumerID partition msgID =>
    have hok : (Request.ack consumerID partition msgID).Answers (.ok msgID) := rfl
    dsimp only [Request.parse]
    split
    · exact ⟨_, rfl, trivial⟩
    · exact ⟨_, rfl, answers_handleSettle s hok _ _ _ _ _⟩
  | nack consumerID partition msgID =>
    have hok : (Request.nack consumerID partition msgID).Answers (.ok msgID) := rfl
    dsimp only [Request.parse]
    split
    · exact ⟨_, rfl, trivial⟩
    · exact ⟨_, rfl, answers_handleSettle s hok _ _ _ _ _⟩
  | create topic partitions => exact ⟨_, rfl, answers_handleCreate calls s topic partitions⟩
  | pause =>
    have hok : Request.pause.Answers (.ok 0) := trivial
    exact ⟨_, rfl, answers_handlePauseResume calls s hok true⟩
  | resume =>
    have hok : Request.resume.Answers (.ok 0) := trivial
    exact ⟨_, rfl, answers_handlePauseResume calls s hok false⟩
  | info => exact ⟨_, rfl, rfl⟩

end Session

/-- There is nothing to trim around a numeral. -/
theorem trimSpace_decimal (n : ℕ) : trimSpace (decimal n) = decimal n := by
  -- A string of digits begins with none of the blanks, from either end.
  have hkeep : ∀ bs : Bytes, (∀ b ∈ bs, isDigit b = true) →
      bs.dropWhile (fun b : UInt8 => decide (b = 32) || (decide (9 ≤ b) && decide (b ≤ 13))) =
        bs := by
    intro bs hbs
    cases bs with
    | nil => rfl
    | cons b =>
      have hb := hbs b List.mem_cons_self
      rw [List.dropWhile_cons_of_neg]
      simp only [isDigit, Bool.and_eq_true, decide_eq_true_eq] at hb
      simp only [Bool.or_eq_true, Bool.and_eq_true, decide_eq_true_eq, not_or, not_and,
        UInt8.le_iff_toNat_le, ← UInt8.toNat_inj]
      exact ⟨fun h => by rw [h] at hb; exact absurd hb.1 (by decide),
        fun _ h => absurd (hb.1.trans h) (by decide)⟩
  have hdigits : ∀ b ∈ decimal n, isDigit b = true := fun b hb => isDigit_of_mem_paddedDecimal hb
  unfold trimSpace
  dsimp only
  rw [hkeep _ hdigits, hkeep _ fun b hb => hdigits b (List.mem_reverse.mp hb),
    List.reverse_reverse]

theorem Request.resolve_frame {req : Request} {reply : Reply} (h : req.Answers reply) :
    req.resolve reply.frame = req.outcome reply := by
  cases reply with
  | ok =>
    cases req with
    | ack | nack => exact if_pos h
    | info => exact False.elim h
    | _ => rfl
  | dup =>
    obtain ⟨a, rfl⟩ := h
    rfl
  | waitTimeout id =>
    obtain ⟨a, rfl⟩ := h
    have hparse : parseBelow (2 ^ 64) (trimSpace (decimal id.toNat)) = some id.toNat := by
      rw [trimSpace_decimal]
      exact parseBelow_paddedDecimal id.toNat_lt
    unfold Request.resolve Reply.frame resolvePubResp
    simp only [hparse, UInt64.ofNat_toNat]
    rfl
  | notLeader | failed => cases req <;> rfl
  | info =>
    obtain rfl := h
    rfl

end ToyMQ.Client
