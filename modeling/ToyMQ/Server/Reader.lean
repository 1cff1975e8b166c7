import ToyMQ.Server.Parser

/-!
# The reader of a session

A session shakes hands, then reads commands until its stream ends or is out of step. `Session.run`
lists the commands and rejections of a stream with the place where each of them starts, and `serve`
is what they do to the session.

* `dispatched_at_starts`: when a stream is made of command lines and publish frames, and no header
  of a frame is rejected, every command starts where a line or a frame does. A rejected header
  leaves its payload in the stream, and the reader goes on with that (`payload_dispatched`).
* `dispatched_authenticated`: with tokens configured and the handshake required, nothing is
  dispatched unless the first line is a `HELLO` with one of the tokens. Where it is not required, a
  client that leaves it out is not asked for a token (`unauthenticated_dispatched`).
-/

namespace ToyMQ.Server

open Lib List

/-! ## The handshake -/

/-- `authConfig`. -/
structure AuthConfig where
  requireHello : Bool
  tokens : List Bytes
deriving DecidableEq, Repr

/-- `authEnabled`. -/
def AuthConfig.authEnabled (auth : AuthConfig) : Bool := 0 < auth.tokens.length

/-- `subtle.ConstantTimeCompare`. -/
def constantTimeCompare (x y : Bytes) : ℕ := if x = y then 1 else 0

/-- `checkToken`. -/
def AuthConfig.checkToken (auth : AuthConfig) (tok : Bytes) : Bool :=
  auth.tokens.foldl (fun matched t => matched ||| constantTimeCompare tok t) 0 = 1

theorem AuthConfig.checkToken_iff (auth : AuthConfig) (tok : Bytes) :
    auth.checkToken tok = true ↔ tok ∈ auth.tokens := by
  have hfold : ∀ (ts : List Bytes) (m : ℕ), m = 0 ∨ m = 1 →
      (ts.foldl (fun matched t => matched ||| constantTimeCompare tok t) m = 1 ↔
        m = 1 ∨ tok ∈ ts) := by
    intro ts
    induction ts with
    | nil => simp
    | cons t ts ih =>
      intro m hm
      have hone : constantTimeCompare tok t = 0 ∨ constantTimeCompare tok t = 1 := by
        unfold constantTimeCompare
        split_ifs <;> simp
      have hmatch : constantTimeCompare tok t = 1 ↔ tok = t := by
        unfold constantTimeCompare
        split_ifs with heq <;> simp [heq]
      rw [foldl_cons, mem_cons, ← hmatch, ← or_assoc, ih]
      · rcases hm with rfl | rfl <;> rcases hone with h | h <;> simp [h]
      · rcases hm with rfl | rfl <;> rcases hone with h | h <;> simp [h]
  unfold checkToken
  rw [decide_eq_true_eq, hfold auth.tokens 0 (.inl rfl)]
  simp

/-- `serverMaxVersion`. -/
def serverMaxVersion : ℤ := 1

/-- The frames that the handshake writes. -/
inductive HandshakeFrame where
  | helloOK (version : ℤ)
  | errHello (reason : Bytes)
  | errAuth (reason : Bytes)
deriving DecidableEq, Repr

/-- What comes of the handshake: what is written, the line that is still to be processed as a
command, and whether the session goes on. -/
structure Handshake where
  written : Option HandshakeFrame
  compatLine : Bytes := []
  proceed : Bool
deriving DecidableEq, Repr

section

variable (quote : Bytes → Bytes) (auth : AuthConfig) (maxPayload : ℕ)

/-- `handshake`, where `writeOK` says whether the answer to a `HELLO` could be written. -/
def handshake (writeOK : Bool) (br : Bytes) : Handshake × Bytes :=
  match readHello quote br with
  | (.error .eof, rest) => ({ written := none, proceed := false }, rest)
  | (.error e, rest) => ({ written := some (.errHello e.text), proceed := false }, rest)
  | (.ok (line, .error .notHello), rest) =>
    if auth.requireHello then
      ({ written := some (.errHello (ascii "expected HELLO as first frame")), proceed := false },
        rest)
    else ({ written := none, compatLine := line, proceed := true }, rest)
  | (.ok (_, .error e), rest) =>
    ({ written := some (.errHello e.text), proceed := false }, rest)
  | (.ok (_, .ok h), rest) =>
    if auth.authEnabled && !auth.checkToken h.token then
      ({ written := some (.errAuth (ascii "invalid or missing token")), proceed := false }, rest)
    else ({ written := some (.helloOK (min h.version serverMaxVersion)), proceed := writeOK }, rest)

/-! ## The loop -/

/-- The errors after which `handleParsed` goes on. -/
def ParseError.keepsOpen : ParseError → Bool
  | .invalid _ | .payloadTooLarge => true
  | _ => false

/-- What a session has read: where it starts in the stream, and the command or why it is
rejected. -/
abbrev Reading := ℕ × Except Bytes Command

/-- `handleParsed` for what was read from `start` on: `next` goes on behind it, unless the stream
has ended or is out of step. -/
def handleRead (start : ℕ) (next : Bytes → List Reading) :
    Except ParseError Command × Bytes → List Reading
  | (.ok cmd, rest) => (start, .ok cmd) :: next rest
  | (.error e, rest) => if e.keepsOpen then (start, .error e.text) :: next rest else []

/-- The loop of `runReader` on the rest `br` of a stream of `total` bytes, up to `reads` reads. A
loop that ends because its context is done is one with fewer reads. -/
def runReader (total : ℕ) : ℕ → Bytes → List Reading
  | 0, _ => []
  | reads + 1, br =>
    handleRead (total - br.length) (runReader total reads) (readCommand quote maxPayload br)

/-- What `Run` reads of a stream, in the handshake and up to `reads` reads behind it. -/
def Session.readings (writeOK : Bool) (reads : ℕ) (stream : Bytes) : List Reading :=
  let (hs, br) := handshake quote auth writeOK stream
  if ¬ hs.proceed then []
  else if hs.compatLine ≠ [] then
    handleRead 0 (runReader quote maxPayload stream.length reads)
      (parseCommandLine quote maxPayload hs.compatLine br)
  else runReader quote maxPayload stream.length reads br

end

/-- The commands among the readings, with the places where they start. -/
def dispatched (rs : List Reading) : List (ℕ × Command) :=
  rs.filterMap fun r => r.2.toOption.map fun cmd => (r.1, cmd)

def Session.serve {β ς : Type} (calls : Calls β ς) (s : Session β ς) (rs : List Reading) :
    Session β ς :=
  rs.foldl (fun s r => (s.handleParsed calls r.2).1) s

/-! ## Streams of lines and frames -/

/-- A part of a stream: a publish frame, or the line of another command. -/
inductive Item where
  | frame (header payload : Bytes)
  | line (text : Bytes)
deriving DecidableEq, Repr

namespace Item

/-- The line that the item starts with, without its newline. -/
def text : Item → Bytes
  | .frame header _ => header
  | .line text => text

/-- What follows the line. -/
def body : Item → Bytes
  | .frame _ payload => payload ++ [10]
  | .line _ => []

def bytes (i : Item) : Bytes := i.text ++ 10 :: i.body

/-- The words of the line. -/
def words (i : Item) : List Bytes := fields (trimRight [13, 10] (i.text ++ [10]))

/-- A frame is delimited by the payload length in its header, and any other line is not that of a
publish. -/
def WellDelimited (i : Item) : Prop :=
  10 ∉ i.text ∧
    match i with
    | .frame _ payload => ∃ topicWord keyWord routingWord lengthWord options,
        i.words = ascii "PUB" :: topicWord :: keyWord :: routingWord :: lengthWord :: options ∧
        lengthWord ≠ [] ∧ lengthWord.all isDigit = true ∧ digitsValue lengthWord = payload.length
    | .line _ => i.words.head? ≠ some (ascii "PUB")

/-- The header of a frame is not rejected before its payload is read. -/
def Accepted (quote : Bytes → Bytes) (maxPayload : ℕ) (i : Item) : Prop :=
  match i with
  | .frame _ _ => ∃ r, parsePubHeader quote maxPayload i.words = .ok r
  | .line _ => True

end Item

def streamOf (items : List Item) : Bytes := items.flatMap Item.bytes

def StartsAt (items : List Item) (start : ℕ) : Prop :=
  ∃ before item after, items = before ++ item :: after ∧ start = (streamOf before).length

section

variable {quote : Bytes → Bytes} {auth : AuthConfig} {maxPayload : ℕ} {i : Item}

theorem readLine_item (hwell : i.WellDelimited) (rest : Bytes) :
    readLine (i.bytes ++ rest) = (.error .badFraming, i.body ++ rest) ∨
      readLine (i.bytes ++ rest) = (.ok (trimRight [13, 10] (i.text ++ [10])), i.body ++ rest) := by
  have hsplit : splitLine (i.bytes ++ rest) = some (i.text ++ [10], i.body ++ rest) := by
    rw [Item.bytes, append_assoc, cons_append]
    exact splitLine_line hwell.1 _
  unfold readLine
  rw [hsplit]
  dsimp only
  split_ifs
  · exact .inl rfl
  · exact .inr rfl

/-- The payload of a frame is read as a whole. -/
theorem readBody_frame (payload rest : Bytes) :
    readBody payload.length (payload ++ [10] ++ rest) = (.ok payload, rest) := by
  have hlen : ¬ (payload ++ [10] ++ rest).length < payload.length := by
    simp only [length_append]
    omega
  unfold readBody
  rw [if_neg hlen, append_assoc, drop_left, take_left]
  rfl

theorem parseCommandLine_item (hwell : i.WellDelimited) (hacc : i.Accepted quote maxPayload)
    (rest : Bytes) :
    (parseCommandLine quote maxPayload (trimRight [13, 10] (i.text ++ [10]))
      (i.body ++ rest)).2 = rest := by
  cases i with
  | frame header payload =>
    obtain ⟨-, topicWord, keyWord, routingWord, lengthWord, options, hwords, -, -, hlength⟩ := hwell
    obtain ⟨⟨c, payloadLen⟩, hheader⟩ := hacc
    -- The length that the header announces is that of the payload.
    have hannounced : payloadLen = payload.length := by
      obtain ⟨_, _, _, _, _, _, _, hwords', -, -, -, -, hvalue, -⟩ := of_parsePubHeader hheader
      rw [hwords] at hwords'
      simp only [List.cons.injEq] at hwords'
      rw [hvalue, ← hwords'.2.2.2.2.1, hlength]
    unfold Item.words at hwords hheader
    rw [parseCommandLine_pub hwords, parsePub, hheader, hannounced]
    dsimp only
    rw [Item.body, readBody_frame]
    rfl
  | line => exact parseCommandLine_other hwell.2

/-! ## Where commands start -/

variable {d : Reading} {reads : ℕ}

theorem mem_handleRead {start : ℕ} {next : Bytes → List Reading}
    {r : Except ParseError Command × Bytes} (h : d ∈ handleRead start next r) :
    d.1 = start ∨ d ∈ next r.2 := by
  rcases r with ⟨e | cmd, rest⟩
  · dsimp only [handleRead] at h
    split_ifs at h
    · rcases mem_cons.mp h with rfl | h
      · exact .inl rfl
      · exact .inr h
    · cases h
  · rcases mem_cons.mp h with rfl | h
    · exact .inl rfl
    · exact .inr h

/-- The loop reads from the starts of items only. -/
theorem starts_of_runReader {total : ℕ} {items : List Item} (hwell : ∀ i ∈ items, i.WellDelimited)
    (hacc : ∀ i ∈ items, i.Accepted quote maxPayload)
    (hd : d ∈ runReader quote maxPayload total reads (streamOf items)) :
    ∃ before item after, items = before ++ item :: after ∧
      d.1 = total - (streamOf (item :: after)).length := by
  induction reads generalizing items with
  | zero => cases hd
  | succ reads ih =>
    cases items with
    | nil => cases hd
    | cons i items =>
      have hbytes : streamOf (i :: items) = i.bytes ++ streamOf items := rfl
      rw [runReader] at hd
      rcases readLine_item (hwell i mem_cons_self) (streamOf items) with hbad | hline
      · -- The line is too long, and the session ends.
        rw [readCommand, hbytes, hbad] at hd
        cases hd
      · have hrest := parseCommandLine_item (hwell i mem_cons_self)
          (hacc i mem_cons_self) (streamOf items)
        rcases mem_handleRead hd with hstart | hnext
        · exact ⟨[], i, items, rfl, hstart⟩
        · rw [readCommand, hbytes, hline] at hnext
          rw [hrest] at hnext
          obtain ⟨before, item, after, heq, hstart⟩ := ih
            (fun j hj => hwell j (mem_cons_of_mem i hj))
            (fun j hj => hacc j (mem_cons_of_mem i hj)) hnext
          exact ⟨i :: before, item, after, by rw [heq, cons_append], hstart⟩

theorem startsAt_of_rest {items before after : List Item} {item : Item} {start : ℕ}
    (heq : items = before ++ item :: after)
    (hstart : start = (streamOf items).length - (streamOf (item :: after)).length) :
    StartsAt items start := by
  refine ⟨before, item, after, heq, ?_⟩
  rw [hstart, heq, streamOf, flatMap_append, length_append]
  exact Nat.add_sub_cancel _ _

/-- A session goes on behind its first line: with a line that is no `HELLO`, where none is required,
or after a `HELLO` whose token was accepted. -/
theorem of_handshake {writeOK : Bool} {stream : Bytes}
    (h : (handshake quote auth writeOK stream).1.proceed = true) :
    ∃ line, readLine stream = (.ok line, (handshake quote auth writeOK stream).2) ∧
      ((handshake quote auth writeOK stream).1.compatLine = line ∧ auth.requireHello = false ∨
        (handshake quote auth writeOK stream).1.compatLine = [] ∧
          ∃ hello, parseHello quote line = .ok hello ∧
            (auth.authEnabled = true → auth.checkToken hello.token = true)) := by
  unfold handshake readHello at h ⊢
  rcases hline : readLine stream with ⟨e | line, rest⟩
  · rw [hline] at h
    cases e <;> cases h
  · rw [hline] at h
    refine ⟨line, ?_⟩
    cases hhello : parseHello quote line with
    | error e =>
      simp only [Prod.map, Except.map, hhello] at h ⊢
      cases e with
      | notHello =>
        dsimp only at h ⊢
        by_cases hrequire : auth.requireHello = true
        · rw [if_pos hrequire] at h
          cases h
        · rw [if_neg hrequire]
          exact ⟨rfl, .inl ⟨rfl, Bool.eq_false_iff.mpr hrequire⟩⟩
      | _ => cases h
    | ok hello =>
      simp only [Prod.map, Except.map, hhello] at h ⊢
      by_cases hauth : (auth.authEnabled && !auth.checkToken hello.token) = true
      · rw [if_pos hauth] at h
        cases h
      · rw [if_neg hauth]
        refine ⟨rfl, .inr ⟨rfl, hello, rfl, fun henabled => ?_⟩⟩
        simpa [henabled] using hauth

theorem body_of_handshake {line : Bytes} (hwell : i.WellDelimited)
    (hline : line = trimRight [13, 10] (i.text ++ [10]))
    (h : line = [] ∨ ∃ hello, parseHello quote line = .ok hello) : i.body = [] := by
  cases i with
  | line => rfl
  | frame =>
    obtain ⟨-, topicWord, keyWord, routingWord, lengthWord, options, hwords, -⟩ := hwell
    have hfields : fields line =
        ascii "PUB" :: topicWord :: keyWord :: routingWord :: lengthWord :: options :=
      hline ▸ hwords
    have hverbs : ascii "PUB" ≠ ascii "HELLO" := by decide +kernel
    rcases h with rfl | ⟨hello, hhello⟩
    · cases hfields
    · obtain ⟨versionWord, -, -, ⟨hwords', -⟩ | hwords'⟩ := of_parseHello hhello
      · exact absurd (List.cons.inj (hfields.symm.trans hwords')).1 hverbs
      · exact absurd (List.cons.inj (hfields.symm.trans hwords')).1 hverbs

theorem starts_of_readings {writeOK : Bool} {items : List Item}
    (hwell : ∀ i ∈ items, i.WellDelimited) (hacc : ∀ i ∈ items, i.Accepted quote maxPayload)
    (hd : d ∈ Session.readings quote auth maxPayload writeOK reads (streamOf items)) :
    StartsAt items d.1 := by
  unfold Session.readings at hd
  dsimp only at hd
  by_cases hproceed : (handshake quote auth writeOK (streamOf items)).1.proceed = true
  · rw [if_neg (not_not.mpr hproceed)] at hd
    obtain ⟨line, hline, hcase⟩ := of_handshake hproceed
    cases items with
    | nil => cases hline
    | cons i items =>
      have hbytes : streamOf (i :: items) = i.bytes ++ streamOf items := rfl
      have hwell₀ := hwell i mem_cons_self
      -- The handshake has read the line of the first item.
      obtain ⟨htext, hrest⟩ : line = trimRight [13, 10] (i.text ++ [10]) ∧
          (handshake quote auth writeOK (streamOf (i :: items))).2 =
            i.body ++ streamOf items := by
        rcases readLine_item hwell₀ (streamOf items) with hbad | hgood
        · rw [hbytes, hbad] at hline
          cases hline
        · rw [hbytes, hgood] at hline
          exact ⟨(Except.ok.inj (congrArg Prod.fst hline)).symm, (congrArg Prod.snd hline).symm⟩
      have hlater : ∀ {r : Reading},
          r ∈ runReader quote maxPayload (streamOf (i :: items)).length reads (streamOf items) →
          StartsAt (i :: items) r.1 := by
        intro r hr
        obtain ⟨before, item, after, heq, hstart⟩ := starts_of_runReader
          (fun j hj => hwell j (mem_cons_of_mem i hj))
          (fun j hj => hacc j (mem_cons_of_mem i hj)) hr
        have heq' : i :: items = (i :: before) ++ item :: after := by rw [heq, cons_append]
        exact startsAt_of_rest heq' hstart
      rw [hrest] at hd
      split_ifs at hd with hcompat
      · -- The first line was no `HELLO`, and is read as a command after all.
        have heq : (handshake quote auth writeOK (streamOf (i :: items))).1.compatLine = line :=
          hcase.elim And.left fun h => absurd h.1 hcompat
        rw [heq, htext] at hd
        rcases mem_handleRead hd with hstart | hnext
        · exact ⟨[], i, items, rfl, hstart⟩
        · rw [parseCommandLine_item hwell₀ (hacc i mem_cons_self)] at hnext
          exact hlater hnext
      · -- The first line was a `HELLO`, or empty; neither has a body.
        have hnone := not_not.mp hcompat
        have hfirst : line = [] ∨ ∃ hello, parseHello quote line = .ok hello := by
          rcases hcase with ⟨hsame, -⟩ | ⟨-, hello, hhello, -⟩
          · exact .inl (hsame.symm.trans hnone)
          · exact .inr ⟨hello, hhello⟩
        rw [body_of_handshake hwell₀ htext hfirst, nil_append] at hd
        exact hlater hd
  · rw [if_pos hproceed] at hd
    cases hd

/-- A stream is made of command lines and of publish frames, none of which has its header rejected.
Then every command that a session dispatches starts where a line or a frame does. -/
theorem dispatched_at_starts {writeOK : Bool} {reads : ℕ} {items : List Item}
    (hwell : ∀ i ∈ items, i.WellDelimited) (hacc : ∀ i ∈ items, i.Accepted quote maxPayload) :
    ∀ d ∈ dispatched (Session.readings quote auth maxPayload writeOK reads (streamOf items)),
      StartsAt items d.1 := by
  intro d hd
  obtain ⟨r, hr, hmap⟩ := mem_filterMap.mp hd
  obtain ⟨cmd, -, rfl⟩ := Option.map_eq_some_iff.mp hmap
  exact starts_of_readings hwell hacc hr

end

/-- A publish whose payload reads like a command, and a pause. -/
def publishAndPause : List Item :=
  [.frame (ascii "PUB t - - 6 DELAY 5") (ascii "RESUME"), .line (ascii "PAUSE")]

/-- A session that asks for nothing. -/
def openAuth : AuthConfig := ⟨false, []⟩

theorem dispatched_at_starts_publishAndPause :
    (dispatched (Session.readings id openAuth defaultMaxPayload true 3
      (streamOf publishAndPause))).map Prod.fst = [0, 27] ∧
    ∀ d ∈ dispatched (Session.readings id openAuth defaultMaxPayload true 3
      (streamOf publishAndPause)), StartsAt publishAndPause d.1 := by
  refine ⟨by decide +kernel, dispatched_at_starts ?_ ?_⟩
  · intro i hi
    rcases mem_pair.mp hi with rfl | rfl
    · exact ⟨by decide +kernel, ascii "t", ascii "-", ascii "-", ascii "6",
        [ascii "DELAY", ascii "5"], by decide +kernel, by decide +kernel, by decide +kernel,
        by decide +kernel⟩
    · exact ⟨by decide +kernel, by decide +kernel⟩
  · intro i hi
    rcases mem_pair.mp hi with rfl | rfl
    · exact ⟨(⟨ascii "t", [], [], 0, false, [], 5, 0, 0⟩, 6), by decide +kernel⟩
    · trivial

def refusedPublish : Item := .frame (ascii "PUB t#* - - 21") (ascii "CREATE x PARTITIONS 9")

/-- The refused publish is answered with an error, and its payload is then read as a command and
dispatched. -/
theorem payload_dispatched :
    refusedPublish.WellDelimited ∧
      dispatched (Session.readings id openAuth defaultMaxPayload true 3
        (streamOf [refusedPublish])) = [(15, .create (ascii "x") 9)] ∧
      ¬ StartsAt [refusedPublish] 15 := by
  refine ⟨⟨by decide +kernel, ascii "t#*", ascii "-", ascii "-", ascii "21", [], ?_, ?_, ?_, ?_⟩,
    by decide +kernel, ?_⟩
  · decide +kernel
  · decide +kernel
  · decide +kernel
  · decide +kernel
  · rintro ⟨before, item, after, heq, hstart⟩
    cases before with
    | nil => cases hstart
    | cons i before =>
      cases before <;> cases heq

/-! ## Who may send commands -/

/-- The first line of the stream is a well-formed `HELLO` with one of the tokens. A `HELLO` without
a token carries the empty one. -/
def Authenticated (tokens : List Bytes) (stream : Bytes) : Prop :=
  ∃ text rest versionWord version token, splitLine stream = some (text, rest) ∧
    atoi versionWord = some version ∧ 1 ≤ version ∧ token ∈ tokens ∧
    (fields (trimRight [13, 10] text) = [ascii "HELLO", versionWord] ∧ token = [] ∨
      fields (trimRight [13, 10] text) = [ascii "HELLO", versionWord, ascii "AUTH", token])

/-- Where tokens are configured and the handshake is required, a session dispatches nothing, and
leaves its broker alone, unless the first line is a `HELLO` with one of the tokens. -/
theorem dispatched_authenticated {auth : AuthConfig} (hrequire : auth.requireHello = true)
    (htokens : auth.tokens ≠ []) (quote : Bytes → Bytes) (maxPayload : ℕ) (writeOK : Bool)
    (reads : ℕ) (stream : Bytes) :
    Authenticated auth.tokens stream ∨
      dispatched (Session.readings quote auth maxPayload writeOK reads stream) = [] ∧
      ∀ {β ς : Type} (calls : Calls β ς) (s : Session β ς),
        s.serve calls (Session.readings quote auth maxPayload writeOK reads stream) = s := by
  by_cases hproceed : (handshake quote auth writeOK stream).1.proceed = true
  · obtain ⟨line, hline, ⟨-, hcompat⟩ | ⟨-, hello, hhello, htoken⟩⟩ := of_handshake hproceed
    · cases hcompat.symm.trans hrequire
    · obtain ⟨text, hsplit, -, rfl⟩ := of_readLine hline
      obtain ⟨versionWord, hversion, hone, hwords⟩ := of_parseHello hhello
      have henabled : auth.authEnabled = true := by
        simpa [AuthConfig.authEnabled] using length_pos_iff.mpr htokens
      have hmem := (auth.checkToken_iff hello.token).mp (htoken henabled)
      exact .inl ⟨text, _, versionWord, hello.version, hello.token, hsplit, hversion, hone, hmem,
        hwords⟩
  · have hnone : Session.readings quote auth maxPayload writeOK reads stream = [] := by
      exact if_pos hproceed
    rw [hnone]
    exact .inr ⟨rfl, fun _ _ => rfl⟩

/-- One token, with a handshake that may be left out or not. -/
def oneToken (requireHello : Bool) : AuthConfig := ⟨requireHello, [ascii "secret"]⟩

theorem dispatched_authenticated_hello :
    dispatched (Session.readings id (oneToken true) defaultMaxPayload true 2
      (ascii "HELLO 1 AUTH secret\nINFO\n")) = [(20, .info)] ∧
    Authenticated [ascii "secret"] (ascii "HELLO 1 AUTH secret\nINFO\n") := by
  have hrun : dispatched (Session.readings id (oneToken true) defaultMaxPayload true 2
      (ascii "HELLO 1 AUTH secret\nINFO\n")) = [(20, .info)] := by decide +kernel
  refine ⟨hrun, ?_⟩
  have hrequire : (oneToken true).requireHello = true := rfl
  rcases dispatched_authenticated hrequire (by decide) id defaultMaxPayload true 2
    (ascii "HELLO 1 AUTH secret\nINFO\n") with hauth | ⟨hnone, -⟩
  · exact hauth
  · cases hrun.symm.trans hnone

/-- Where the handshake is not required, a client that leaves it out has its commands dispatched
without a token. -/
theorem unauthenticated_dispatched :
    dispatched (Session.readings id (oneToken false) defaultMaxPayload true 2
      (ascii "CREATE x PARTITIONS 9\n")) = [(0, .create (ascii "x") 9)] ∧
    ¬ Authenticated [ascii "secret"] (ascii "CREATE x PARTITIONS 9\n") := by
  refine ⟨by decide +kernel, ?_⟩
  rintro ⟨text, rest, versionWord, version, token, hsplit, -, -, -, hwords⟩
  have hline : splitLine (ascii "CREATE x PARTITIONS 9\n") =
      some (ascii "CREATE x PARTITIONS 9\n", []) := by decide +kernel
  have hfirst : (fields (trimRight [13, 10] (ascii "CREATE x PARTITIONS 9\n"))).head? ≠
      some (ascii "HELLO") := by decide +kernel
  cases hline.symm.trans hsplit
  rcases hwords with ⟨hwords, -⟩ | hwords
  · exact hfirst (by rw [hwords]; rfl)
  · exact hfirst (by rw [hwords]; rfl)

end ToyMQ.Server
