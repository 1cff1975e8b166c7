import ToyMQ.Lib.Text
import ToyMQ.Server.Modes

/-!
# The wire parser

`ReadCommand` and `ReadHello` on the bytes that are still to come: each reader takes the stream and
returns its result with what it has left of the stream. A header line is read to its newline and
split into words; the only command with a body is a publish, whose parser reads the payload when the
header is accepted (`parsePubHeader`), and leaves the stream alone when it is not.

The texts of the errors are those that a session answers with. They quote what was received, and
`quote` stands for `strconv.Quote`.

`admitted_of_readCommand` says that a command which the parser returns has words of one line and
numbers of 64 bits, which is what the rest of the server assumes of it.
-/

namespace ToyMQ.Server

open Lib List

inductive ParseError where
  | eof
  | badFraming
  | shortBody
  | payloadTooLarge
  | notHello
  /-- `ErrInvalidCommand`, with what was wrong. -/
  | invalid (detail : Bytes)
deriving DecidableEq, Repr

/-- `Error`. -/
def ParseError.text : ParseError → Bytes
  | .eof => ascii "EOF"
  | .badFraming => ascii "proto: bad framing"
  | .shortBody => ascii "proto: short body"
  | .payloadTooLarge => ascii "proto: payload too large"
  | .notHello => ascii "proto: not a HELLO frame"
  | .invalid detail => ascii "proto: invalid command" ++ detail

/-- An invalid command, with a text that says why. -/
def invalid {α : Type} (detail : Bytes) : Except ParseError α :=
  .error (.invalid (ascii ": " ++ detail))

section

variable (quote : Bytes → Bytes)

/-- The error of `strconv.ParseUint`. -/
def parseUintText (num : Bytes) (e : NumError) : Bytes :=
  ascii "strconv.ParseUint: parsing " ++ quote num ++
    match e with
    | .badSyntax => ascii ": invalid syntax"
    | .outOfRange => ascii ": value out of range"

/-! ## Topics -/

structure TopicToken where
  topic : Bytes
  partition : ℤ
  star : Bool
  explicit : Bool
deriving DecidableEq, Repr

/-- `parseTopicPartition`. -/
def parseTopicPartition (tok : Bytes) : Except ParseError TopicToken :=
  match cut 35 tok with
  | none => if tok = [] then invalid (ascii "empty topic") else .ok ⟨tok, 0, false, false⟩
  | some (base, suffix) =>
    if base = [] then invalid (ascii "empty topic in " ++ quote tok)
    else if 35 ∈ suffix then invalid (ascii "malformed partition suffix in " ++ quote tok)
    else if suffix = ascii "*" then .ok ⟨base, 0, true, false⟩
    else
      match atoi suffix with
      | some n =>
        if n < 0 then invalid (ascii "partition " ++ quote suffix ++ ascii " in " ++ quote tok)
        else .ok ⟨base, n, false, true⟩
      | none => invalid (ascii "partition " ++ quote suffix ++ ascii " in " ++ quote tok)

/-! ## Publishes -/

/-- What the optional tokens of a publish set. -/
structure PubOptions where
  delayMs : UInt64 := 0
  waitReplicas : ℤ := 0
  waitTimeoutMs : UInt64 := 0
deriving DecidableEq, Repr

/-- The loop of `parsePub` over the tokens behind the payload length. -/
def parsePubOptions : PubOptions → List Bytes → Except ParseError PubOptions
  | o, [] => .ok o
  | o, tok :: rest =>
    if tok = ascii "DELAY" then
      match rest with
      | [] => invalid (ascii "PUB DELAY needs <ms>")
      | ms :: rest =>
        match parseUint ms with
        | .error e => invalid (ascii "PUB DELAY ms: " ++ parseUintText quote ms e)
        | .ok d => parsePubOptions { o with delayMs := UInt64.ofNat d } rest
    else if tok = ascii "WAIT" then
      match rest with
      | count :: timeout :: rest =>
        match atoi count with
        | none => invalid (ascii "PUB WAIT n: " ++ quote count)
        | some n =>
          if n < 0 then invalid (ascii "PUB WAIT n: " ++ quote count)
          else
            match parseUint timeout with
            | .error e => invalid (ascii "PUB WAIT timeout-ms: " ++ parseUintText quote timeout e)
            | .ok t =>
              parsePubOptions { o with waitReplicas := n, waitTimeoutMs := UInt64.ofNat t } rest
      | _ => invalid (ascii "PUB WAIT needs <n> <timeout-ms>")
    else
      invalid (ascii "PUB unknown trailing token " ++ quote tok ++ ascii " (want DELAY or WAIT)")

def dashKey (word : Bytes) : Bytes := if word = ascii "-" then [] else word

/-- `parsePub` up to the body: the command without its payload, and the length of that. -/
def parsePubHeader (maxPayload : ℕ) (words : List Bytes) : Except ParseError (PubCommand × ℕ) :=
  match words with
  | _ :: topicWord :: keyWord :: routingWord :: lengthWord :: options => do
    let o ← parsePubOptions quote {} options
    let t ← parseTopicPartition quote topicWord
    if t.star then
      invalid (ascii "PUB cannot target " ++ quote topicWord ++ ascii " (all partitions)")
    else
      match parseUint lengthWord with
      | .error e => invalid (ascii "PUB payload_len: " ++ parseUintText quote lengthWord e)
      | .ok payloadLen =>
        if maxPayload < payloadLen then .error .payloadTooLarge
        else
          .ok ({ topic := t.topic, dedupeKey := dashKey keyWord, routingKey := dashKey routingWord
                 partition := t.partition, partitionSet := t.explicit, payload := []
                 delayMs := o.delayMs, waitReplicas := o.waitReplicas
                 waitTimeoutMs := o.waitTimeoutMs }, payloadLen)
  | _ =>
    invalid (ascii "PUB expects at least 4 args (topic dedupe-key routing-key payload_len), got " ++
      decimal (words.length - 1))

/-- The body of a publish: as many bytes as were announced, and a newline. -/
def readBody (payloadLen : ℕ) (br : Bytes) : Except ParseError Bytes × Bytes :=
  if br.length < payloadLen then (.error .shortBody, [])
  else
    match br.drop payloadLen with
    | [] => (.error .badFraming, [])
    | nl :: rest => if nl = 10 then (.ok (br.take payloadLen), rest) else (.error .badFraming, rest)

/-- `parsePub`. -/
def parsePub (maxPayload : ℕ) (words : List Bytes) (br : Bytes) :
    Except ParseError Command × Bytes :=
  match parsePubHeader quote maxPayload words with
  | .error e => (.error e, br)
  | .ok (c, payloadLen) =>
    (readBody payloadLen br).map (Except.map fun payload => .pub { c with payload := payload }) id

/-! ## The other commands -/

/-- `parseSub`. -/
def parseSub (words : List Bytes) : Except ParseError Command := do
  let stale ←
    match words with
    | [_, _, _, flag] =>
      if flag = ascii "STALE" then .ok true
      else invalid (ascii "SUB unexpected 4th arg " ++ quote flag ++ ascii " (want STALE)")
    | [_, _, _] => .ok false
    | _ => invalid (ascii "SUB expect 2 args, got " ++ decimal (words.length - 1))
  let t ← parseTopicPartition quote (words.getD 1 [])
  .ok (.sub ⟨t.topic, t.partition, t.star || !t.explicit, words.getD 2 [], stale⟩)

/-- `parseAck` and `parseNack`, with the name of the verb. -/
def parseSettle (verb : String) (command : Bytes → ℤ → UInt64 → Command) (words : List Bytes) :
    Except ParseError Command :=
  match words with
  | [_, consumerID, partitionWord, idWord] =>
    match atoi partitionWord with
    | none => invalid (ascii (verb ++ " partition ") ++ quote partitionWord)
    | some partition =>
      if partition < 0 then invalid (ascii (verb ++ " partition ") ++ quote partitionWord)
      else
        match parseUint idWord with
        | .error e => invalid (ascii (verb ++ " msg_id: ") ++ parseUintText quote idWord e)
        | .ok id => .ok (command consumerID partition (UInt64.ofNat id))
  | _ =>
    invalid (ascii (verb ++ " expect 3 args (consumer-id partition msg_id), got ") ++
      decimal (words.length - 1))

/-- `parseAck`. -/
def parseAck (words : List Bytes) : Except ParseError Command :=
  parseSettle quote "ACK" .ack words

/-- `parseNack`. -/
def parseNack (words : List Bytes) : Except ParseError Command :=
  parseSettle quote "NACK" .nack words

/-- `parsePause` and `parseResume`, with the name of the verb. -/
def parseBare (verb : String) (command : Command) (words : List Bytes) :
    Except ParseError Command :=
  if words.length ≠ 1 then
    invalid (ascii (verb ++ " takes no arguments, got ") ++ decimal (words.length - 1))
  else .ok command

/-- `parsePause`. -/
def parsePause (words : List Bytes) : Except ParseError Command := parseBare "PAUSE" .pause words

/-- `parseResume`. -/
def parseResume (words : List Bytes) : Except ParseError Command :=
  parseBare "RESUME" .resume words

/-- `parseTraceparent`. The trace context is not modelled. -/
def parseTraceparent (words : List Bytes) : Except ParseError Command :=
  match words with
  | [_, _] => .ok .traceparent
  | [_, _, third, _] =>
    if third = ascii "TRACESTATE" then .ok .traceparent
    else invalid (ascii "TRACEPARENT third field must be TRACESTATE, got " ++ quote third)
  | _ =>
    invalid (ascii "TRACEPARENT expects <traceparent> [TRACESTATE <tracestate>], got " ++
      decimal (words.length - 1) ++ ascii " args")

/-- `parseInfo`. -/
def parseInfo (words : List Bytes) : Except ParseError Command :=
  match words with
  | [_] => .ok .info
  | [_, part] =>
    if part = ascii "replication" then .ok .info
    else invalid (ascii "INFO unknown section " ++ quote part ++ ascii " (want replication)")
  | _ =>
    invalid (ascii "INFO expects at most one section arg, got " ++ decimal (words.length - 1))

/-- `parseCreate`. -/
def parseCreate (words : List Bytes) : Except ParseError Command :=
  match words with
  | [_, topic, keyword, countWord] =>
    if keyword = ascii "PARTITIONS" then
      match atoi countWord with
      | none => invalid (ascii "CREATE partitions " ++ quote countWord)
      | some n =>
        if n < 1 then invalid (ascii "CREATE partitions " ++ quote countWord)
        else .ok (.create topic n)
    else invalid (ascii "CREATE expects <topic> PARTITIONS <n>")
  | _ => invalid (ascii "CREATE expects <topic> PARTITIONS <n>")

/-! ## Reading a command -/

/-- `readLine`. -/
def readLine (br : Bytes) : Except ParseError Bytes × Bytes :=
  match splitLine br with
  | none => (.error (if br = [] then .eof else .badFraming), [])
  | some (line, rest) =>
    (if maxLineLength < line.length then .error .badFraming else .ok (trimRight [13, 10] line),
      rest)

/-- `ParseCommandLine`. -/
def parseCommandLine (maxPayload : ℕ) (line br : Bytes) : Except ParseError Command × Bytes :=
  match fields line with
  | [] => (.error (.invalid []), br)
  | verb :: args =>
    let words := verb :: args
    if verb = ascii "PUB" then parsePub quote maxPayload words br
    else
      (if verb = ascii "SUB" then parseSub quote words
        else if verb = ascii "ACK" then parseAck quote words
        else if verb = ascii "NACK" then parseNack quote words
        else if verb = ascii "CREATE" then parseCreate quote words
        else if verb = ascii "PAUSE" then parsePause words
        else if verb = ascii "RESUME" then parseResume words
        else if verb = ascii "TRACEPARENT" then parseTraceparent quote words
        else if verb = ascii "INFO" then parseInfo quote words
        else invalid (ascii "Unknown verb " ++ quote verb), br)

/-- `ReadCommand`. -/
def readCommand (maxPayload : ℕ) (br : Bytes) : Except ParseError Command × Bytes :=
  match readLine br with
  | (.error e, rest) => (.error e, rest)
  | (.ok line, rest) => parseCommandLine quote maxPayload line rest

/-- `Hello`. -/
structure Hello where
  version : ℤ
  token : Bytes
deriving DecidableEq, Repr

/-- `ParseHello`. -/
def parseHello (line : Bytes) : Except ParseError Hello :=
  let words := fields line
  if words.head? ≠ some (ascii "HELLO") then .error .notHello
  else if words.length ≠ 2 ∧ words.length ≠ 4 then
    invalid (ascii "HELLO expects <version> [AUTH <token>], got " ++ decimal (words.length - 1) ++
      ascii " args")
  else
    let versionWord := words.getD 1 []
    match atoi versionWord with
    | none => invalid (ascii "HELLO version " ++ quote versionWord)
    | some version =>
      if version < 1 then invalid (ascii "HELLO version " ++ quote versionWord)
      else if words.length = 4 then
        if words.getD 2 [] ≠ ascii "AUTH" then
          invalid (ascii "HELLO third field must be AUTH, got " ++ quote (words.getD 2 []))
        else .ok ⟨version, words.getD 3 []⟩
      else .ok ⟨version, []⟩

/-- `ReadHello`, with the line that was read. -/
def readHello (br : Bytes) : Except ParseError (Bytes × Except ParseError Hello) × Bytes :=
  (readLine br).map (Except.map fun line => (line, parseHello quote line)) id

end

/-! ## What the parser admits -/

section

variable {quote : Bytes → Bytes} {maxPayload : ℕ}

variable {α : Type} {a : α} {c : PubCommand} {br rest : Bytes} {cmd : Command} {verb : String}

/-- An invalid command is not accepted. -/
theorem invalid_ne_ok {detail : Bytes} : invalid detail ≠ .ok a := nofun

theorem of_parseTopicPartition {tok : Bytes} {t : TopicToken}
    (h : parseTopicPartition quote tok = .ok t) :
    t.topic ≠ [] ∧ t.topic.length ≤ tok.length ∧ 0 ≤ t.partition ∧ t.partition < 2 ^ 63 := by
  have hzero : (0 : ℤ) < 2 ^ 63 := by decide
  unfold parseTopicPartition at h
  split at h
  · split_ifs at h with hnil
    · exact absurd h invalid_ne_ok
    · cases h
      exact ⟨hnil, le_rfl, le_rfl, hzero⟩
  next base suffix hcut =>
    have hlen : base.length ≤ tok.length := by
      rw [eq_of_cut hcut, length_append]
      omega
    split_ifs at h with hbase hhash hstar
    · exact absurd h invalid_ne_ok
    · exact absurd h invalid_ne_ok
    · cases h
      exact ⟨hbase, hlen, le_rfl, hzero⟩
    · split at h
      next n hn =>
        split_ifs at h with hneg
        · exact absurd h invalid_ne_ok
        · cases h
          exact ⟨hbase, hlen, Int.not_lt.mp hneg, lt_of_atoi hn⟩
      · exact absurd h invalid_ne_ok

theorem length_dashKey_le (word : Bytes) : (dashKey word).length ≤ word.length := by
  unfold dashKey
  split_ifs
  · exact Nat.zero_le _
  · exact le_rfl

theorem of_parsePubHeader {words : List Bytes} {payloadLen : ℕ}
    (h : parsePubHeader quote maxPayload words = .ok (c, payloadLen)) :
    ∃ verb topicWord keyWord routingWord lengthWord options t,
      words = verb :: topicWord :: keyWord :: routingWord :: lengthWord :: options ∧
      parseTopicPartition quote topicWord = .ok t ∧ c.topic = t.topic ∧
      c.partition = t.partition ∧ c.dedupeKey = dashKey keyWord ∧
      payloadLen = digitsValue lengthWord ∧ payloadLen ≤ maxPayload := by
  unfold parsePubHeader at h
  split at h
  next verb topicWord keyWord routingWord lengthWord options =>
    cases ho : parsePubOptions quote {} options with
    | error =>
      rw [ho] at h
      cases h
    | ok =>
      cases ht : parseTopicPartition quote topicWord with
      | error =>
        rw [ho, ht] at h
        cases h
      | ok t =>
        rw [ho, ht] at h
        change (if t.star = true then _ else _) = _ at h
        split_ifs at h
        · exact absurd h invalid_ne_ok
        · split at h
          · exact absurd h invalid_ne_ok
          next n hn =>
            split_ifs at h with hlarge
            cases h
            exact ⟨verb, topicWord, keyWord, routingWord, lengthWord, options, t, rfl, ht, rfl, rfl,
              rfl, eq_of_parseUint hn, Nat.not_lt.mp hlarge⟩
  · exact absurd h invalid_ne_ok

/-- An accepted publish has the payload announced. -/
theorem of_parsePub {words : List Bytes} (h : parsePub quote maxPayload words br = (.ok cmd, rest))
    :
    ∃ c payloadLen payload, parsePubHeader quote maxPayload words = .ok (c, payloadLen) ∧
      payload.length = payloadLen ∧ cmd = .pub { c with payload := payload } := by
  unfold parsePub at h
  split at h
  · cases h
  next c payloadLen hheader =>
    refine ⟨c, payloadLen, br.take payloadLen, hheader, ?_⟩
    unfold readBody at h
    split_ifs at h with hshort
    · cases h
    · split at h
      · cases h
      · split_ifs at h
        · cases h
          exact ⟨length_take_of_le (Nat.not_lt.mp hshort), rfl⟩
        · cases h

theorem of_parseSettle {command : Bytes → ℤ → UInt64 → Command} {words : List Bytes}
    (h : parseSettle quote verb command words = .ok cmd) :
    ∃ consumerID partition msgID, consumerID ∈ words ∧ 0 ≤ partition ∧ partition < 2 ^ 63 ∧
      cmd = command consumerID partition msgID := by
  unfold parseSettle at h
  split at h
  next verbWord consumerID partitionWord idWord =>
    split at h
    · exact absurd h invalid_ne_ok
    next partition hp =>
      split_ifs at h with hneg
      · exact absurd h invalid_ne_ok
      · split at h
        · exact absurd h invalid_ne_ok
        next id _ =>
          cases h
          exact ⟨consumerID, partition, UInt64.ofNat id, by simp, Int.not_lt.mp hneg,
            lt_of_atoi hp, rfl⟩
  · exact absurd h invalid_ne_ok

theorem of_parseCreate {words : List Bytes} (h : parseCreate quote words = .ok cmd) :
    ∃ topic partitions, topic ∈ words ∧ 1 ≤ partitions ∧ partitions < 2 ^ 63 ∧
      cmd = .create topic partitions := by
  unfold parseCreate at h
  split at h
  next verb topic keyword countWord =>
    split_ifs at h
    · split at h
      · exact absurd h invalid_ne_ok
      next n hn =>
        split_ifs at h with hone
        · exact absurd h invalid_ne_ok
        · cases h
          exact ⟨topic, n, by simp, Int.not_lt.mp hone, lt_of_atoi hn, rfl⟩
    · exact absurd h invalid_ne_ok
  · exact absurd h invalid_ne_ok

theorem of_parseSub {words : List Bytes} (h : parseSub quote words = .ok cmd) :
    ∃ tok t c, parseTopicPartition quote tok = .ok t ∧ c.topic = t.topic ∧ cmd = .sub c ∧
      (tok = [] ∨ tok ∈ words) := by
  have hword : words.getD 1 [] = [] ∨ words.getD 1 [] ∈ words := by
    rw [getD_eq_getElem?_getD]
    cases hget : words[1]? with
    | none => exact .inl rfl
    | some => exact .inr (mem_of_getElem? hget)
  unfold parseSub at h
  cases ht : parseTopicPartition quote (words.getD 1 []) with
  | error =>
    rw [ht] at h
    split at h
    · split_ifs at h
      · cases h
      · cases h
    · cases h
    · cases h
  | ok t =>
    rw [ht] at h
    split at h
    · split_ifs at h
      · cases h
        exact ⟨_, t, _, ht, rfl, rfl, hword⟩
      · cases h
    · cases h
      exact ⟨_, t, _, ht, rfl, rfl, hword⟩
    · cases h

theorem of_parseBare {command : Command} {words : List Bytes}
    (h : parseBare verb command words = .ok cmd) : cmd = command := by
  unfold parseBare at h
  split_ifs at h
  · exact absurd h invalid_ne_ok
  · exact (Except.ok.inj h).symm

theorem of_parseTraceparent {words : List Bytes} (h : parseTraceparent quote words = .ok cmd) :
    cmd = .traceparent := by
  unfold parseTraceparent at h
  split at h
  · exact (Except.ok.inj h).symm
  · split_ifs at h
    · exact (Except.ok.inj h).symm
    · exact absurd h invalid_ne_ok
  · exact absurd h invalid_ne_ok

theorem of_parseInfo {words : List Bytes} (h : parseInfo quote words = .ok cmd) : cmd = .info := by
  unfold parseInfo at h
  split at h
  · exact (Except.ok.inj h).symm
  · split_ifs at h
    · exact (Except.ok.inj h).symm
    · exact absurd h invalid_ne_ok
  · exact absurd h invalid_ne_ok

/-- The parsers of the commands without a body. -/
inductive ParsedFrom (quote : Bytes → Bytes) (words : List Bytes) : Command → Prop where
  | sub {tok : Bytes} {t : TopicToken} {c : SubCommand}
      (htok : parseTopicPartition quote tok = .ok t) (htopic : c.topic = t.topic) :
      ParsedFrom quote words (.sub c)
  | ack {consumerID : Bytes} {partition : ℤ} {msgID : UInt64} (hword : consumerID ∈ words)
      (hpos : 0 ≤ partition) (hlt : partition < 2 ^ 63) :
      ParsedFrom quote words (.ack consumerID partition msgID)
  | nack {consumerID : Bytes} {partition : ℤ} {msgID : UInt64} (hword : consumerID ∈ words)
      (hpos : 0 ≤ partition) (hlt : partition < 2 ^ 63) :
      ParsedFrom quote words (.nack consumerID partition msgID)
  | create {topic : Bytes} {partitions : ℤ} (hword : topic ∈ words) (hpos : 1 ≤ partitions)
      (hlt : partitions < 2 ^ 63) : ParsedFrom quote words (.create topic partitions)
  | pause : ParsedFrom quote words .pause
  | resume : ParsedFrom quote words .resume
  | traceparent : ParsedFrom quote words .traceparent
  | info : ParsedFrom quote words .info

theorem ite_eq_ok {ε : Type} {p : Prop} [Decidable p] {x y : Except ε α}
    (h : (if p then x else y) = .ok a) : x = .ok a ∨ y = .ok a := by
  by_cases hp : p
  · rw [if_pos hp] at h
    exact .inl h
  · rw [if_neg hp] at h
    exact .inr h

variable {line : Bytes}

theorem parseCommandLine_parsers (h : parseCommandLine quote maxPayload line br = (.ok cmd, rest)) :
    parsePub quote maxPayload (fields line) br = (.ok cmd, rest) ∨
      parseSub quote (fields line) = .ok cmd ∨ parseAck quote (fields line) = .ok cmd ∨
      parseNack quote (fields line) = .ok cmd ∨ parseCreate quote (fields line) = .ok cmd ∨
      parsePause (fields line) = .ok cmd ∨ parseResume (fields line) = .ok cmd ∨
      parseTraceparent quote (fields line) = .ok cmd ∨ parseInfo quote (fields line) = .ok cmd := by
  unfold parseCommandLine at h
  split at h
  · cases h
  next verb args hfields =>
    rw [hfields]
    by_cases hpub : verb = ascii "PUB"
    · rw [if_pos hpub] at h
      exact .inl h
    · rw [if_neg hpub] at h
      -- Every other command is read from its words, and leaves the stream alone.
      have hcmd := congrArg Prod.fst h
      refine .inr ((ite_eq_ok hcmd).imp_right fun hcmd => ?_)
      refine (ite_eq_ok hcmd).imp_right fun hcmd => ?_
      refine (ite_eq_ok hcmd).imp_right fun hcmd => ?_
      refine (ite_eq_ok hcmd).imp_right fun hcmd => ?_
      refine (ite_eq_ok hcmd).imp_right fun hcmd => ?_
      refine (ite_eq_ok hcmd).imp_right fun hcmd => ?_
      refine (ite_eq_ok hcmd).imp_right fun hcmd => ?_
      exact (ite_eq_ok hcmd).resolve_right invalid_ne_ok

/-- A command is a publish that is accepted with its body, or comes from the words of its line
alone. -/
theorem parseCommandLine_cases (h : parseCommandLine quote maxPayload line br = (.ok cmd, rest)) :
    parsePub quote maxPayload (fields line) br = (.ok cmd, rest) ∨
      ParsedFrom quote (fields line) cmd := by
  refine (parseCommandLine_parsers h).imp_right fun hcmd => ?_
  rcases hcmd with hsub | hack | hnack | hcreate | hpause | hresume | htrace | hinfo
  · obtain ⟨tok, t, c, htok, htopic, rfl, -⟩ := of_parseSub hsub
    exact .sub htok htopic
  · obtain ⟨_, _, _, hword, hpos, hlt, rfl⟩ := of_parseSettle hack
    exact .ack hword hpos hlt
  · obtain ⟨_, _, _, hword, hpos, hlt, rfl⟩ := of_parseSettle hnack
    exact .nack hword hpos hlt
  · obtain ⟨_, _, hword, hpos, hlt, rfl⟩ := of_parseCreate hcreate
    exact .create hword hpos hlt
  · rw [of_parseBare hpause]
    exact .pause
  · rw [of_parseBare hresume]
    exact .resume
  · rw [of_parseTraceparent htrace]
    exact .traceparent
  · rw [of_parseInfo hinfo]
    exact .info

theorem parseCommandLine_pub {args : List Bytes} (h : fields line = ascii "PUB" :: args) :
    parseCommandLine quote maxPayload line br =
      parsePub quote maxPayload (fields line) br := by
  unfold parseCommandLine
  rw [h]
  exact if_pos rfl

/-- Only a publish reads on behind its line. -/
theorem parseCommandLine_other (h : (fields line).head? ≠ some (ascii "PUB")) :
    (parseCommandLine quote maxPayload line br).2 = br := by
  unfold parseCommandLine
  split
  · rfl
  next verb args hfields =>
    rw [hfields, head?_cons] at h
    rw [if_neg fun heq => h (congrArg some heq)]

/-- A line that is read is not longer than allowed. -/
theorem of_readLine (h : readLine br = (.ok line, rest)) :
    ∃ text, splitLine br = some (text, rest) ∧ text.length ≤ maxLineLength ∧
      line = trimRight [13, 10] text := by
  unfold readLine at h
  split at h
  · cases h
  next text rest' hsplit =>
    split_ifs at h with hlong
    · cases h
    · cases h
      exact ⟨text, hsplit, Nat.not_lt.mp hlong, rfl⟩

theorem of_parseHello {hello : Hello} (h : parseHello quote line = .ok hello) :
    ∃ versionWord, atoi versionWord = some hello.version ∧ 1 ≤ hello.version ∧
      (fields line = [ascii "HELLO", versionWord] ∧ hello.token = [] ∨
        fields line = [ascii "HELLO", versionWord, ascii "AUTH", hello.token]) := by
  unfold parseHello at h
  dsimp only at h
  by_cases hhead : (fields line).head? = some (ascii "HELLO")
  · rw [if_neg (not_not.mpr hhead)] at h
    by_cases hlen : (fields line).length ≠ 2 ∧ (fields line).length ≠ 4
    · rw [if_pos hlen] at h
      exact absurd h invalid_ne_ok
    · rw [if_neg hlen] at h
      cases hversion : atoi ((fields line).getD 1 []) with
      | none =>
        rw [hversion] at h
        exact absurd h invalid_ne_ok
      | some =>
        rw [hversion] at h
        dsimp only at h
        split_ifs at h with hone hfour hauth
        · exact absurd h invalid_ne_ok
        · exact absurd h invalid_ne_ok
        · cases h
          refine ⟨_, hversion, Int.not_lt.mp hone, .inr ?_⟩
          match fields line, hhead, hfour, not_not.mp hauth with
          | [_, _, _, _], hhead, _, hauth =>
            cases hhead
            cases hauth
            rfl
        · cases h
          refine ⟨_, hversion, Int.not_lt.mp hone, .inl ⟨?_, rfl⟩⟩
          have htwo : (fields line).length = 2 := by
            by_contra hne
            exact hlen ⟨hne, hfour⟩
          match fields line, hhead, htwo with
          | [_, _], hhead, _ =>
            cases hhead
            rfl
  · rw [if_pos hhead] at h
    cases h

theorem admitted_of_readCommand (h : readCommand quote defaultMaxPayload br = (.ok cmd, rest)) :
    Admitted cmd ∨ (∃ c, cmd = .sub c) ∨ cmd = .pause ∨ cmd = .resume ∨ cmd = .traceparent ∨
      cmd = .info := by
  unfold readCommand at h
  split at h
  · cases h
  next line rest' hline =>
    obtain ⟨text, -, hlen, rfl⟩ := of_readLine hline
    have hword : ∀ w ∈ fields (trimRight [13, 10] text), w.length ≤ maxLineLength := fun w hw =>
      (length_le_of_mem_fields hw).trans ((length_trimRight_le _ text).trans hlen)
    rcases parseCommandLine_cases h with hpub | hparsed
    · obtain ⟨c, payloadLen, payload, hheader, hpayload, rfl⟩ := of_parsePub hpub
      obtain ⟨verb, topicWord, keyWord, routingWord, lengthWord, options, t, hwords, ht, htopic,
        hpartition, hkey, -, hmax⟩ := of_parsePubHeader hheader
      obtain ⟨-, hlen', hpos, hlt⟩ := of_parseTopicPartition ht
      rw [hwords] at hword
      refine .inl ⟨?_, ?_, ?_, ?_, ?_⟩
      · rw [htopic]
        exact hlen'.trans (hword topicWord (by simp))
      · rw [hkey]
        exact (length_dashKey_le keyWord).trans (hword keyWord (by simp))
      · rw [hpayload]
        exact hmax
      · rwa [hpartition]
      · rwa [hpartition]
    · cases hparsed with
      | sub => exact .inr (.inl ⟨_, rfl⟩)
      | ack hmem hpos hlt | nack hmem hpos hlt | create hmem hpos hlt =>
        exact .inl ⟨hword _ hmem, hpos, hlt⟩
      | pause | resume | traceparent | info => simp

theorem length_dedupeKey_of_readCommand
    (h : readCommand quote maxPayload br = (.ok (.pub c), rest)) :
    c.dedupeKey.length + 2 ≤ maxLineLength := by
  unfold readCommand at h
  split at h
  · cases h
  next line rest' hline =>
    obtain ⟨text, -, hlen, rfl⟩ := of_readLine hline
    have hsum : ((fields (trimRight [13, 10] text)).map List.length).sum ≤ maxLineLength :=
      (sum_length_fields_le _).trans ((length_trimRight_le _ text).trans hlen)
    have hne : ∀ w ∈ fields (trimRight [13, 10] text), 0 < w.length := fun w hw =>
      length_pos_of_ne_nil (ne_nil_of_mem_fields hw)
    rcases parseCommandLine_cases h with hpub | hparsed
    · obtain ⟨c', payloadLen, payload, hheader, -, heq⟩ := of_parsePub hpub
      obtain ⟨verb, topicWord, keyWord, routingWord, lengthWord, options, t, hwords, -, -, -, hkey,
        -, -⟩ := of_parsePubHeader hheader
      cases heq
      rw [hwords] at hsum hne
      have hverb := hne verb (by simp)
      have htopic := hne topicWord (by simp)
      have hdash := length_dashKey_le keyWord
      simp only [map_cons, sum_cons] at hsum
      rw [hkey]
      omega
    · cases hparsed

/-- A subscribe is read by its own parser. -/
theorem parseCommandLine_sub {c : SubCommand}
    (h : parseCommandLine quote maxPayload line br = (.ok (.sub c), rest)) :
    parseSub quote (fields line) = .ok (.sub c) := by
  rcases parseCommandLine_parsers h with
    hpub | hsub | hack | hnack | hcreate | hpause | hresume | htrace | hinfo
  · obtain ⟨_, _, _, -, -, heq⟩ := of_parsePub hpub
    cases heq
  · exact hsub
  · obtain ⟨_, _, _, -, -, -, heq⟩ := of_parseSettle hack
    cases heq
  · obtain ⟨_, _, _, -, -, -, heq⟩ := of_parseSettle hnack
    cases heq
  · obtain ⟨_, _, -, -, -, heq⟩ := of_parseCreate hcreate
    cases heq
  · cases of_parseBare hpause
  · cases of_parseBare hresume
  · cases of_parseTraceparent htrace
  · cases of_parseInfo hinfo

/-- The topic of a subscribe is a part of its line. -/
theorem length_topic_of_readCommand {c : SubCommand}
    (h : readCommand quote maxPayload br = (.ok (.sub c), rest)) :
    c.topic.length ≤ maxLineLength := by
  unfold readCommand at h
  split at h
  · cases h
  next line rest' hline =>
    obtain ⟨text, -, hlen, rfl⟩ := of_readLine hline
    obtain ⟨tok, t, c', htok, htopic, heq, hword⟩ := of_parseSub (parseCommandLine_sub h)
    cases heq
    rw [htopic]
    have hle := (of_parseTopicPartition htok).2.1
    rcases hword with rfl | hmem
    · exact hle.trans (Nat.zero_le _)
    · exact hle.trans ((length_le_of_mem_fields hmem).trans
        ((length_trimRight_le _ text).trans hlen))

end

end ToyMQ.Server
