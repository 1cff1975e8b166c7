import ToyMQ.Client.Request
import ToyMQ.Server.Reader

/-!
# The frames of requests on the wire

`Request.parse` says what the server makes of a request. Here are the bytes in between: what the
client writes for each request (`Request.wire`), and that `ReadCommand` on them returns what
`Request.parse` says and stops behind them (`readCommand_wire`).

Every line is made of tokens with a blank between each two of them, so that reading it comes down to
the words (`readCommand_unwords`) and each verb's parser is then run on a list of words. The body of
a publish is delimited by its length, whatever bytes it has. `requests_read` is the result for a
whole stream. The client lets through a negative partition in an ack or a nack, which the parser
refuses (`negative_ack_refused`).
-/

namespace ToyMQ.Client

open Lib Server List

/-! ## What the client writes -/

/-- What follows the line. -/
def Request.body : Request → Bytes
  | .pub a => a.payload ++ [10]
  | _ => []

/-- The frame of a request, without the trace line that may precede it. -/
def Request.wire (req : Request) : Bytes := unwords req.words ++ 10 :: req.body

/-! ## What is written for a command -/

/-- The command that a request stands for. The number of replicas and the time to wait for them are
one part of it, which is there when the number is positive. -/
def Request.command : Request → Command
  | .pub a => .pub
      { topic := a.topic, dedupeKey := a.dedupeKey, routingKey := a.routingKey
        partition := (a.partition.map fun n => (n.val : ℤ)).getD 0
        partitionSet := a.partition.isSome, payload := a.payload, delayMs := a.delayMs
        waitReplicas := if 0 < a.waitReplicas then a.waitReplicas else 0
        waitTimeoutMs := if 0 < a.waitReplicas then a.waitTimeoutMs else 0 }
  | .sub a => .sub
      { topic := a.topic, partition := (a.partition.map fun n => (n.val : ℤ)).getD 0
        allPartitions := a.partition.isNone, consumerID := a.consumerID, stale := a.stale }
  | .ack consumerID partition msgID => .ack consumerID partition msgID
  | .nack consumerID partition msgID => .nack consumerID partition msgID
  | .create topic partitions => .create topic partitions
  | .pause => .pause
  | .resume => .resume
  | .info => .info

/-- A spelled request whose payload is within the limit of the server and whose keys are no dashes.
A client creates no topic with fewer than one partition. -/
def Request.WellFormed (req : Request) : Prop :=
  req.Spelled ∧
  match req with
  | .pub a =>
    a.payload.length ≤ defaultMaxPayload ∧ a.dedupeKey ≠ ascii "-" ∧ a.routingKey ≠ ascii "-"
  | .create _ partitions => 1 ≤ partitions
  | .sub _ | .ack _ _ _ | .nack _ _ _ | .pause | .resume | .info => True

def Request.Numbered : Request → Prop
  | .ack _ partition _ | .nack _ partition _ => 0 ≤ partition
  | _ => True

/-! ## The fixed words -/

/-- The words that do not depend on the arguments of a request. -/
def keywords : List Bytes :=
  [ascii "PUB", ascii "SUB", ascii "ACK", ascii "NACK", ascii "CREATE", ascii "PAUSE",
    ascii "RESUME", ascii "INFO", ascii "DELAY", ascii "WAIT", ascii "STALE", ascii "PARTITIONS",
    ascii "replication", ascii "-"]

theorem isToken_of_mem_keywords : ∀ w ∈ keywords, IsToken w := by decide +kernel

/-- Words that are told apart, by their bytes. -/
theorem ascii_words :
    ascii "PUB" = [80, 85, 66] ∧ ascii "SUB" = [83, 85, 66] ∧ ascii "ACK" = [65, 67, 75] ∧
      ascii "NACK" = [78, 65, 67, 75] ∧ ascii "CREATE" = [67, 82, 69, 65, 84, 69] ∧
      ascii "PAUSE" = [80, 65, 85, 83, 69] ∧ ascii "RESUME" = [82, 69, 83, 85, 77, 69] ∧
      ascii "TRACEPARENT" = [84, 82, 65, 67, 69, 80, 65, 82, 69, 78, 84] ∧
      ascii "INFO" = [73, 78, 70, 79] ∧ ascii "DELAY" = [68, 69, 76, 65, 89] ∧
      ascii "WAIT" = [87, 65, 73, 84] ∧ ascii "*" = [42] := by
  and_intros <;> with_unfolding_all rfl

/-! ## Reading it back -/

section

variable {quote : Bytes → Bytes} {maxPayload : ℕ}

/-- A line of tokens is read as its words. -/
theorem readCommand_unwords {ws : List Bytes} (hws : ∀ w ∈ ws, IsToken w)
    (hlen : (unwords ws).length + 1 ≤ maxLineLength) (br : Bytes) :
    readCommand quote maxPayload (unwords ws ++ 10 :: br) =
      parseCommandLine quote maxPayload (unwords ws) br := by
  have hnl : 10 ∉ unwords ws := notMem_unwords hws (by decide) (by decide)
  have hcr : 13 ∉ unwords ws := notMem_unwords hws (by decide) (by decide)
  have hline : readLine (unwords ws ++ 10 :: br) = (.ok (unwords ws), br) := by
    unfold readLine
    rw [splitLine_line hnl]
    dsimp only
    rw [length_append, length_singleton, if_neg (Nat.not_lt.mpr hlen),
      trimRight_line hnl fun hlast => hcr (mem_of_getLast? hlast)]
  rw [readCommand, hline]

theorem isToken_decimal (n : ℕ) : IsToken (decimal n) := isToken_paddedDecimal n

/-- A numeral has nothing but digits in it. -/
theorem notMem_decimal (n : ℕ) {b : UInt8} (hb : isDigit b = false) : b ∉ decimal n := by
  intro hmem
  rw [isDigit_of_mem_paddedDecimal hmem] at hb
  cases hb

variable {v : ℤ} {topic : Bytes} {a : PubArgs} {req : Request}

theorem itoa_of_nonneg (h : 0 ≤ v) : itoa v = decimal v.toNat :=
  if_neg (Int.not_lt.mpr h)

theorem atoi_itoa (h : 0 ≤ v) (hint : IsInt v) : atoi (itoa v) = some v := by
  rw [itoa_of_nonneg h, decimal, atoi_paddedDecimal (by unfold IsInt at hint; omega),
    Int.toNat_of_nonneg h]

theorem parseUint_decimal (v : UInt64) : parseUint (decimal v.toNat) = .ok v.toNat :=
  parseUint_paddedDecimal v.toNat_lt

theorem isToken_topicWord (h : IsToken topic) (partition : Option (Fin (2 ^ 63))) :
    IsToken (topicWord topic partition) := by
  cases partition with
  | none => exact h
  | some =>
    refine ⟨fun hnil => h.nonempty (append_eq_nil_iff.mp hnil).1, ?_⟩
    refine h.spaceFree.append (by decide) (spaceFree_of_printing fun b hb => ?_)
    rcases mem_cons.mp hb with rfl | hb
    · decide
    · exact printing_of_mem_paddedDecimal hb

/-- The selector of a topic is read back. -/
theorem parseTopicPartition_topicWord (h : IsToken topic) (hhash : 35 ∉ topic)
    (partition : Option (Fin (2 ^ 63))) :
    parseTopicPartition quote (topicWord topic partition) =
      .ok ⟨topic, (partition.map fun n => (n.val : ℤ)).getD 0, false, partition.isSome⟩ := by
  unfold parseTopicPartition
  cases partition with
  | none =>
    rw [topicWord, cut_eq_none hhash]
    exact if_neg h.nonempty
  | some n =>
    have hhash' : 35 ∉ decimal n := notMem_decimal n (by decide)
    have hstar : decimal n ≠ ascii "*" := fun heq =>
      notMem_decimal n (b := 42) (by decide) (by simp [heq, ascii_words])
    rw [topicWord, cut_append hhash]
    dsimp only
    rw [if_neg h.nonempty, if_neg hhash', if_neg hstar, decimal,
      atoi_paddedDecimal n.isLt]
    exact if_neg (Int.not_lt.mpr (Int.natCast_nonneg n))

theorem isToken_keyWord {key : Bytes} (h : IsKey key) : IsToken (keyWord key) := by
  unfold keyWord
  split_ifs with hnil
  · exact isToken_of_mem_keywords _ (by simp [keywords])
  · exact h.resolve_left hnil

/-- A key is read back. -/
theorem dashKey_keyWord {key : Bytes} (h : key ≠ ascii "-") : dashKey (keyWord key) = key := by
  unfold keyWord dashKey
  split_ifs with hnil hdash
  · exact hnil.symm
  · exact absurd rfl hdash
  · rfl

theorem isToken_itoa (v : ℤ) : IsToken (itoa v) := by
  unfold itoa
  split_ifs
  · refine ⟨cons_ne_nil _ _, spaceFree_of_printing fun b hb => ?_⟩
    rcases mem_cons.mp hb with rfl | hb
    · decide
    · exact printing_of_mem_paddedDecimal hb
  · exact isToken_decimal _

/-- The optional words of a publish are tokens. -/
theorem isToken_of_mem_optionWords {w : Bytes} (hw : w ∈ a.optionWords) : IsToken w := by
  rcases mem_append.mp hw with hw | hw
  · split_ifs at hw
    · rcases mem_pair.mp hw with rfl | rfl
      · exact isToken_of_mem_keywords _ (by simp [keywords])
      · exact isToken_decimal _
    · cases hw
  · split_ifs at hw
    · simp only [mem_cons, not_mem_nil, or_false] at hw
      rcases hw with rfl | rfl | rfl
      · exact isToken_of_mem_keywords _ (by simp [keywords])
      · exact isToken_itoa _
      · exact isToken_decimal _
    · cases hw

/-- The wait that the words ask for. -/
theorem parsePubOptions_wait (hint : IsInt a.waitReplicas) (o : PubOptions)
    (ho : o.waitReplicas = 0 ∧ o.waitTimeoutMs = 0) :
    parsePubOptions quote o
        (if 0 < a.waitReplicas then
          [ascii "WAIT", itoa a.waitReplicas, decimal a.waitTimeoutMs.toNat] else []) =
      .ok { o with
        waitReplicas := if 0 < a.waitReplicas then a.waitReplicas else 0
        waitTimeoutMs := if 0 < a.waitReplicas then a.waitTimeoutMs else 0 } := by
  split_ifs with hpos
  · rw [parsePubOptions, if_neg (by simp [ascii_words]), if_pos rfl]
    dsimp only
    rw [atoi_itoa hpos.le hint]
    dsimp only
    rw [if_neg (Int.not_lt.mpr hpos.le), parseUint_decimal]
    dsimp only
    rw [parsePubOptions, UInt64.ofNat_toNat]
  · obtain ⟨delayMs, waitReplicas, waitTimeoutMs⟩ := o
    obtain ⟨rfl, rfl⟩ := ho
    rfl

/-- The options of a publish are read back. -/
theorem parsePubOptions_optionWords (hint : IsInt a.waitReplicas) :
    parsePubOptions quote {} a.optionWords =
      .ok ⟨a.delayMs, if 0 < a.waitReplicas then a.waitReplicas else 0,
        if 0 < a.waitReplicas then a.waitTimeoutMs else 0⟩ := by
  unfold PubArgs.optionWords
  by_cases hdelay : 0 < a.delayMs
  · rw [if_pos hdelay, cons_append, cons_append, nil_append, parsePubOptions,
      if_pos rfl]
    rw [parseUint_decimal]
    dsimp only
    rw [UInt64.ofNat_toNat]
    exact parsePubOptions_wait hint _ ⟨rfl, rfl⟩
  · have hzero : a.delayMs = 0 := UInt64.le_zero_iff.mp (UInt64.not_lt.mp hdelay)
    rw [if_neg hdelay, nil_append, hzero]
    exact parsePubOptions_wait hint _ ⟨rfl, rfl⟩

/-- The words of a request are tokens. -/
theorem isToken_of_mem_words (h : req.Spelled) : ∀ w ∈ req.words, IsToken w := by
  obtain ⟨-, h⟩ := h
  intro w hw
  cases req with
  | pub =>
    obtain ⟨htopic, -, hkey, hrouting, -⟩ := h
    rcases mem_append.mp hw with hw | hw
    · simp only [mem_cons, not_mem_nil, or_false] at hw
      rcases hw with rfl | rfl | rfl | rfl | rfl
      · exact isToken_of_mem_keywords _ (by simp [keywords])
      · exact isToken_topicWord htopic _
      · exact isToken_keyWord hkey
      · exact isToken_keyWord hrouting
      · exact isToken_decimal _
    · exact isToken_of_mem_optionWords hw
  | sub =>
    obtain ⟨htopic, -, hconsumer⟩ := h
    rcases mem_append.mp hw with hw | hw
    · simp only [mem_cons, not_mem_nil, or_false] at hw
      rcases hw with rfl | rfl | rfl
      · exact isToken_of_mem_keywords _ (by simp [keywords])
      · exact isToken_topicWord htopic _
      · exact hconsumer
    · split_ifs at hw
      · rw [mem_singleton.mp hw]
        exact isToken_of_mem_keywords _ (by simp [keywords])
      · cases hw
  | ack | nack =>
    simp only [Request.words, mem_cons, not_mem_nil, or_false] at hw
    rcases hw with rfl | rfl | rfl | rfl
    · exact isToken_of_mem_keywords _ (by simp [keywords])
    · exact h.1
    · exact isToken_itoa _
    · exact isToken_decimal _
  | create =>
    simp only [Request.words, mem_cons, not_mem_nil, or_false] at hw
    rcases hw with rfl | rfl | rfl | rfl
    · exact isToken_of_mem_keywords _ (by simp [keywords])
    · exact h.1
    · exact isToken_of_mem_keywords _ (by simp [keywords])
    · exact isToken_itoa _
  | pause | resume =>
    rw [mem_singleton.mp hw]
    exact isToken_of_mem_keywords _ (by simp [keywords])
  | info =>
    rcases mem_pair.mp hw with rfl | rfl
    · exact isToken_of_mem_keywords _ (by simp [keywords])
    · exact isToken_of_mem_keywords _ (by simp [keywords])

/-- The header of a publish is read back. -/
theorem parsePubHeader_words (h : (Request.pub a).WellFormed) :
    parsePubHeader quote defaultMaxPayload (Request.pub a).words =
      .ok ({ topic := a.topic, dedupeKey := a.dedupeKey, routingKey := a.routingKey
             partition := (a.partition.map fun n => (n.val : ℤ)).getD 0
             partitionSet := a.partition.isSome, payload := [], delayMs := a.delayMs
             waitReplicas := if 0 < a.waitReplicas then a.waitReplicas else 0
             waitTimeoutMs := if 0 < a.waitReplicas then a.waitTimeoutMs else 0 },
        a.payload.length) := by
  obtain ⟨⟨-, htopic, hhash, -, -, hint⟩, hpayload, hkey, hrouting⟩ := h
  have hlength : parseUint (decimal a.payload.length) = .ok a.payload.length := by
    unfold defaultMaxPayload at hpayload
    exact parseUint_paddedDecimal (by omega)
  unfold parsePubHeader Request.words
  dsimp only [cons_append, nil_append]
  rw [parsePubOptions_optionWords hint, parseTopicPartition_topicWord htopic hhash,
    dashKey_keyWord hkey, dashKey_keyWord hrouting, hlength]
  exact if_neg (Nat.not_lt.mpr hpayload)

/-- The words of an ack or a nack are read back. -/
theorem parseSettle_words {verb : String} {command : Bytes → ℤ → UInt64 → Command}
    {verbWord consumerID : Bytes} {partition : ℤ} (hnum : 0 ≤ partition) (hint : IsInt partition)
    (msgID : UInt64) :
    parseSettle quote verb command [verbWord, consumerID, itoa partition, decimal msgID.toNat] =
      .ok (command consumerID partition msgID) := by
  unfold parseSettle
  dsimp only
  rw [atoi_itoa hnum hint]
  dsimp only
  rw [if_neg (Int.not_lt.mpr hnum), parseUint_decimal]
  dsimp only
  rw [UInt64.ofNat_toNat]

/-- The words of a subscribe are read back. -/
theorem parseSub_words {a : SubArgs} (htopic : IsToken a.topic) (hhash : 35 ∉ a.topic) :
    parseSub quote (Request.sub a).words = .ok (Request.sub a).command := by
  have ht : parseTopicPartition quote (topicWord a.topic a.partition) = _ :=
    parseTopicPartition_topicWord htopic hhash a.partition
  have hall : (false || !a.partition.isSome) = a.partition.isNone := by simp
  cases hstale : a.stale with
  | true =>
    have hwords : (Request.sub a).words =
        [ascii "SUB", topicWord a.topic a.partition, a.consumerID, ascii "STALE"] := by
      simp [Request.words, hstale]
    rw [hwords, parseSub, if_pos rfl]
    simp only [getD_cons_succ, getD_cons_zero, ht, Bind.bind, Except.bind, hall,
      Request.command, hstale]
  | false =>
    have hwords : (Request.sub a).words =
        [ascii "SUB", topicWord a.topic a.partition, a.consumerID] := by
      simp [Request.words, hstale]
    rw [hwords, parseSub]
    simp only [getD_cons_succ, getD_cons_zero, ht, Bind.bind, Except.bind, hall,
      Request.command, hstale]

/-- The verbs of the commands without a body, with their parsers. -/
def bodiless (quote : Bytes → Bytes) : List (Bytes × (List Bytes → Except ParseError Command)) :=
  [(ascii "SUB", parseSub quote), (ascii "ACK", parseAck quote), (ascii "NACK", parseNack quote),
    (ascii "CREATE", parseCreate quote), (ascii "PAUSE", parsePause),
    (ascii "RESUME", parseResume), (ascii "INFO", parseInfo quote)]

theorem parseCommandLine_verb {verb line : Bytes} {args : List Bytes}
    (parse : List Bytes → Except ParseError Command) (hverb : (verb, parse) ∈ bodiless quote)
    (h : fields line = verb :: args) (br : Bytes) :
    parseCommandLine quote maxPayload line br = (parse (fields line), br) := by
  simp only [bodiless, mem_cons, Prod.mk.injEq, not_mem_nil, or_false] at hverb
  rcases hverb with ⟨rfl, rfl⟩ | ⟨rfl, rfl⟩ | ⟨rfl, rfl⟩ | ⟨rfl, rfl⟩ | ⟨rfl, rfl⟩ | ⟨rfl, rfl⟩ |
    ⟨rfl, rfl⟩ <;> simp [parseCommandLine, h, ascii_words]

theorem readCommand_wire (h : req.WellFormed) (hnum : req.Numbered) (rest : Bytes) :
    readCommand quote defaultMaxPayload (req.wire ++ rest) = (.ok req.command, rest) := by
  have hwords := isToken_of_mem_words h.1
  have hfields := fields_unwords hwords
  rw [Request.wire, append_assoc, cons_append, readCommand_unwords hwords h.1.1]
  cases req with
  | pub =>
    rw [parseCommandLine_pub hfields, hfields, parsePub, parsePubHeader_words h]
    dsimp only [Request.body]
    rw [readBody_frame]
    rfl
  | sub =>
    obtain ⟨⟨-, htopic, hhash, -⟩, -⟩ := h
    rw [parseCommandLine_verb (parseSub quote) (by simp [bodiless]) hfields, hfields,
      parseSub_words htopic hhash]
    rfl
  | ack =>
    rw [parseCommandLine_verb (parseAck quote) (by simp [bodiless]) hfields, hfields, parseAck,
      Request.words, parseSettle_words hnum h.1.2.2]
    rfl
  | nack =>
    rw [parseCommandLine_verb (parseNack quote) (by simp [bodiless]) hfields, hfields, parseNack,
      Request.words, parseSettle_words hnum h.1.2.2]
    rfl
  | create =>
    obtain ⟨⟨-, -, hint⟩, hone⟩ := h
    rw [parseCommandLine_verb (parseCreate quote) (by simp [bodiless]) hfields, hfields,
      Request.words, parseCreate, if_pos rfl, atoi_itoa (le_trans (by decide) hone) hint]
    dsimp only
    rw [if_neg (Int.not_lt.mpr hone)]
    rfl
  | pause =>
    rw [parseCommandLine_verb parsePause (by simp [bodiless]) hfields, hfields]
    rfl
  | resume =>
    rw [parseCommandLine_verb parseResume (by simp [bodiless]) hfields, hfields]
    rfl
  | info =>
    rw [parseCommandLine_verb (parseInfo quote) (by simp [bodiless]) hfields, hfields,
      Request.words, parseInfo, if_pos rfl]
    rfl

theorem Request.parse_eq (h : req.WellFormed) (hnum : req.Numbered) :
    req.parse = .ok req.command := by
  obtain ⟨-, h⟩ := h
  cases req with
  | pub =>
    obtain ⟨hpayload, hkey, hrouting⟩ := h
    rw [Request.parse, if_neg (Nat.not_lt.mpr hpayload), wireKey, if_neg hkey, wireKey,
      if_neg hrouting]
    rfl
  | ack | nack =>
    exact if_neg (Int.not_lt.mpr hnum)
  | sub | create | pause | resume | info => rfl

end

/-! ## Streams of requests -/

/-- `ReadCommand`, as often as it is called: what it returns each time, and what is left. -/
def readCommands (quote : Bytes → Bytes) (maxPayload : ℕ) :
    ℕ → Bytes → List (Except ParseError Command) × Bytes
  | 0, br => ([], br)
  | reads + 1, br =>
    let r := readCommand quote maxPayload br
    let rs := readCommands quote maxPayload reads r.2
    (r.1 :: rs.1, rs.2)

/-- The frames of any requests, one behind the other, are read as the commands of these requests in
their order, and what follows them is left. The partitions in acks and nacks are not negative. -/
theorem requests_read (quote : Bytes → Bytes) {reqs : List Request}
    (h : ∀ req ∈ reqs, req.WellFormed ∧ req.Numbered) (rest : Bytes) :
    readCommands quote defaultMaxPayload reqs.length (reqs.flatMap Request.wire ++ rest) =
      (reqs.map fun req => .ok req.command, rest) := by
  induction reqs with
  | nil => rfl
  | cons req reqs ih =>
    obtain ⟨hreq, hnum⟩ := h req mem_cons_self
    have hread : readCommand quote defaultMaxPayload
        (req.wire ++ (reqs.flatMap Request.wire ++ rest)) = _ := readCommand_wire hreq hnum _
    rw [flatMap_cons, append_assoc, length_cons, readCommands, hread,
      ih fun r hr => h r (mem_cons_of_mem req hr)]
    rfl

/-- A publish whose payload looks like a frame of its own. -/
def lookalike : PubArgs :=
  { topic := ascii "a", partition := some 3, routingKey := ascii "r", payload := ascii "x\nPAUSE\n"
    delayMs := 7, waitReplicas := 2, waitTimeoutMs := 500 }

theorem requests_read_lookalike :
    readCommands id defaultMaxPayload 2
        (ascii "PUB a#3 - r 8 DELAY 7 WAIT 2 500\nx\nPAUSE\n\nACK c 0 5\nrest") =
      ([.ok (Request.pub lookalike).command, .ok (.ack (ascii "c") 0 5)], ascii "rest") := by
  have hwire : [Request.pub lookalike, .ack (ascii "c") 0 5].flatMap Request.wire ++ ascii "rest" =
      ascii "PUB a#3 - r 8 DELAY 7 WAIT 2 500\nx\nPAUSE\n\nACK c 0 5\nrest" := by decide +kernel
  have hpub : (Request.pub lookalike).WellFormed := by
    refine ⟨by decide +kernel, ?_, ?_, ?_⟩ <;> decide +kernel
  have hack : (Request.ack (ascii "c") 0 5).WellFormed := ⟨by decide +kernel, trivial⟩
  have hall : ∀ req ∈ [Request.pub lookalike, .ack (ascii "c") 0 5],
      req.WellFormed ∧ req.Numbered := by
    intro req hreq
    rcases mem_pair.mp hreq with rfl | rfl
    · exact ⟨hpub, trivial⟩
    · exact ⟨hack, le_rfl⟩
  have hread := requests_read id hall (ascii "rest")
  rw [hwire] at hread
  exact hread

/-- A client writes an ack of partition -1, and the server takes it for no command. -/
theorem negative_ack_refused :
    (Request.ack (ascii "c") (-1) 5).WellFormed ∧
      (Request.ack (ascii "c") (-1) 5).wire = ascii "ACK c -1 5\n" ∧
      readCommands (fun w => 34 :: w ++ [34]) defaultMaxPayload 1
          (Request.ack (ascii "c") (-1) 5).wire =
        ([.error (.invalid (ascii ": ACK partition \"-1\""))], []) :=
  ⟨⟨by decide +kernel, trivial⟩, by decide +kernel, by decide +kernel⟩

end ToyMQ.Client
