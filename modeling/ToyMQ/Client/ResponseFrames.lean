import ToyMQ.Client.RequestFrames

/-!
# The frames of responses on the wire

The other direction of the connection: what the server writes for each frame (`WireFrame.write`),
and what the client's read loop makes of the bytes (`readFrame`). Three of the frames are one line.
A delivery is a line and as many bytes as it announces, and an info block is a line and as many
lines as it announces; a payload or an info line may look like any other frame.

`readFrame_write` says that a frame is read back and nothing behind it is touched, and
`responses_read` is the result for a whole stream.
-/

namespace ToyMQ.Client

open Lib Server List

/-- `frame`, with the fields of its kind. -/
inductive WireFrame where
  | ok (id : UInt64)
  | dup (id : UInt64)
  | err (code reason : Bytes)
  | msg (topic : Bytes) (partition : ℤ) (msgID : UInt64) (payload : Bytes)
  | info (lines : List Bytes)
deriving DecidableEq, Repr

/-! ## What the server writes -/

/-- `WriteOK`. -/
def writeOK (msgID : UInt64) : Bytes := ascii "OK " ++ decimal msgID.toNat ++ [10]

/-- `WriteDup`. -/
def writeDup (originalMsgID : UInt64) : Bytes :=
  ascii "DUP " ++ decimal originalMsgID.toNat ++ [10]

/-- `WriteErr`. -/
def writeErr (code reason : Bytes) : Bytes := ascii "ERR " ++ code ++ [32] ++ reason ++ [10]

/-- `WriteMsg`. -/
def writeMsg (topic : Bytes) (partition : ℤ) (msgID : UInt64) (payload : Bytes) : Bytes :=
  ascii "MSG " ++ topic ++ [32] ++ itoa partition ++ [32] ++ decimal msgID.toNat ++ [32] ++
    decimal payload.length ++ [10] ++ payload ++ [10]

/-- `WriteInfo`. -/
def writeInfo (lines : List Bytes) : Bytes :=
  ascii "INFO " ++ decimal lines.length ++ [10] ++ lines.flatMap fun l => l ++ [10]

/-- What the server writes for a frame. -/
def WireFrame.write : WireFrame → Bytes
  | .ok id => writeOK id
  | .dup id => writeDup id
  | .err code reason => writeErr code reason
  | .msg topic partition msgID payload => writeMsg topic partition msgID payload
  | .info lines => writeInfo lines

/-! ## What the client reads -/

/-- The errors of `readFrame`, with what they quote. -/
inductive FrameError where
  | eof
  | okID (line : Bytes) (e : NumError)
  | dupID (line : Bytes) (e : NumError)
  | malformedErr (line : Bytes)
  | msgHeader (line : Bytes)
  | msgPartition (word : Bytes)
  | msgID (word : Bytes) (e : NumError)
  | msgLen (word : Bytes)
  | msgPayload
  | msgTrailer
  | msgTrailerNotNewline
  | infoCount (line : Bytes)
  | infoLine (i : ℕ)
  | unknown (line : Bytes)
deriving DecidableEq, Repr

/-- The payload of a delivery and the newline behind it. -/
def readPayload (plen : ℕ) (r : Bytes) : Except FrameError Bytes × Bytes :=
  if r.length < plen then (.error .msgPayload, [])
  else
    match r.drop plen with
    | [] => (.error .msgTrailer, [])
    | nl :: rest =>
      if nl = 10 then (.ok (r.take plen), rest) else (.error .msgTrailerNotNewline, rest)

/-- `readFrame` behind the header of a delivery. -/
def readMsg (line r : Bytes) : Except FrameError WireFrame × Bytes :=
  match fields line with
  | [_, topic, partitionWord, idWord, lenWord] =>
    match atoi partitionWord with
    | none => (.error (.msgPartition partitionWord), r)
    | some partition =>
      if partition < 0 then (.error (.msgPartition partitionWord), r)
      else
        match parseUint idWord with
        | .error e => (.error (.msgID idWord e), r)
        | .ok msgID =>
          match atoi lenWord with
          | none => (.error (.msgLen lenWord), r)
          | some plen =>
            if plen < 0 then (.error (.msgLen lenWord), r)
            else
              (readPayload plen.toNat r).map
                (Except.map fun payload => .msg topic partition (UInt64.ofNat msgID) payload) id
  | _ => (.error (.msgHeader line), r)

/-- The loop over the lines of an info block, from the line `i` on. -/
def readInfoLines : ℕ → ℕ → Bytes → Except FrameError (List Bytes) × Bytes
  | _, 0, r => (.ok [], r)
  | i, n + 1, r =>
    match splitLine r with
    | none => (.error (.infoLine i), [])
    | some (l, rest) =>
      (readInfoLines (i + 1) n rest).map (Except.map (trimRight [13, 10] l :: ·)) id

/-- `readFrame` behind its first line. -/
def readBehind (line rest : Bytes) : Except FrameError WireFrame × Bytes :=
  match stripStart (ascii "OK ") line with
  | some num =>
    match parseUint num with
    | .error e => (.error (.okID line e), rest)
    | .ok id => (.ok (.ok (UInt64.ofNat id)), rest)
  | none =>
    match stripStart (ascii "DUP ") line with
    | some num =>
      match parseUint num with
      | .error e => (.error (.dupID line e), rest)
      | .ok id => (.ok (.dup (UInt64.ofNat id)), rest)
    | none =>
      match stripStart (ascii "ERR ") line with
      | some text =>
        match cut 32 text with
        | none => (.error (.malformedErr line), rest)
        | some (code, reason) => (.ok (.err code reason), rest)
      | none =>
        if (stripStart (ascii "MSG ") line).isSome then readMsg line rest
        else
          match stripStart (ascii "INFO ") line with
          | some num =>
            match atoi num with
            | none => (.error (.infoCount line), rest)
            | some n =>
              if n < 0 then (.error (.infoCount line), rest)
              else (readInfoLines 0 n.toNat rest).map (Except.map .info) id
          | none => (.error (.unknown line), rest)

/-- `readFrame`. -/
def readFrame (r : Bytes) : Except FrameError WireFrame × Bytes :=
  match splitLine r with
  | none => (.error .eof, [])
  | some (text, rest) => readBehind (trimRight [13, 10] text) rest

/-! ## Reading it back -/

/-- A text that a line can hold: it has no newline, and does not end in a carriage return. -/
structure IsLine (text : Bytes) : Prop where
  newline : 10 ∉ text
  carriage : text.getLast? ≠ some 13

/-- The frames that are read back: the code of an error has no blank, the topic of a delivery is a
token and its partition is not negative, and texts are lines. Lengths are values of `int`. -/
def WireFrame.WellFormed : WireFrame → Prop
  | .ok _ | .dup _ => True
  | .err code reason => 32 ∉ code ∧ 10 ∉ code ∧ IsLine reason
  | .msg topic partition _ payload =>
    IsToken topic ∧ 0 ≤ partition ∧ IsInt partition ∧ payload.length < 2 ^ 63
  | .info lines => lines.length < 2 ^ 63 ∧ ∀ l ∈ lines, IsLine l

/-- The first line is read as its text. -/
theorem readFrame_line {text : Bytes} (h : IsLine text) (rest : Bytes) :
    readFrame (text ++ 10 :: rest) = readBehind text rest := by
  rw [readFrame, splitLine_line h.newline]
  dsimp only
  rw [trimRight_line h.newline h.carriage]

/-- A line that goes on with a numeral. -/
theorem isLine_append_decimal {text : Bytes} (h : 10 ∉ text) (n : ℕ) :
    IsLine (text ++ decimal n) := by
  refine ⟨fun hmem => ?_, fun hlast => ?_⟩
  · rcases mem_append.mp hmem with hmem | hmem
    · exact h hmem
    · exact notMem_decimal n (by decide) hmem
  · have hne : decimal n ≠ [] := paddedDecimal_ne_nil n
    rw [getLast?_append_of_ne_nil _ hne] at hlast
    exact notMem_decimal n (by decide) (mem_of_getLast? hlast)

theorem ascii_ok : ascii "OK " = [79, 75, 32] := by with_unfolding_all rfl

theorem ascii_dup : ascii "DUP " = [68, 85, 80, 32] := by with_unfolding_all rfl

theorem ascii_err : ascii "ERR " = [69, 82, 82, 32] := by with_unfolding_all rfl

theorem ascii_msg : ascii "MSG " = [77, 83, 71, 32] := by with_unfolding_all rfl

theorem ascii_info : ascii "INFO " = [73, 78, 70, 79, 32] := by with_unfolding_all rfl

theorem readFrame_ok (id : UInt64) (rest : Bytes) :
    readFrame (writeOK id ++ rest) = (.ok (.ok id), rest) := by
  rw [writeOK, append_assoc, singleton_append,
    readFrame_line (isLine_append_decimal (by simp [ascii_ok]) _), readBehind, stripStart_append]
  dsimp only
  rw [parseUint_decimal]
  dsimp only
  rw [UInt64.ofNat_toNat]

theorem readFrame_dup (id : UInt64) (rest : Bytes) :
    readFrame (writeDup id ++ rest) = (.ok (.dup id), rest) := by
  have hok : stripStart (ascii "OK ") (ascii "DUP " ++ decimal id.toNat) = none := by
    rw [ascii_ok, ascii_dup]
    exact stripStart_eq_none (by decide) _ _
  rw [writeDup, append_assoc, singleton_append,
    readFrame_line (isLine_append_decimal (by simp [ascii_dup]) _), readBehind, hok,
    stripStart_append]
  dsimp only
  rw [parseUint_decimal]
  dsimp only
  rw [UInt64.ofNat_toNat]

theorem readFrame_err {code reason : Bytes} (hblank : 32 ∉ code) (hnl : 10 ∉ code)
    (hreason : IsLine reason) (rest : Bytes) :
    readFrame (writeErr code reason ++ rest) = (.ok (.err code reason), rest) := by
  have hline : IsLine (ascii "ERR " ++ (code ++ 32 :: reason)) := by
    refine ⟨?_, ?_⟩
    · simp only [mem_append, mem_cons, not_or]
      exact ⟨by simp [ascii_err], hnl, by decide, hreason.newline⟩
    · -- The last byte is that of the reason, or the blank before an empty one.
      rw [getLast?_append, getLast?_append, getLast?_cons]
      have hlast := hreason.carriage
      cases hget : reason.getLast? with
      | none => simp
      | some =>
        rw [hget] at hlast
        simpa using hlast
  have hok : stripStart (ascii "OK ") (ascii "ERR " ++ (code ++ 32 :: reason)) = none := by
    rw [ascii_ok, ascii_err]
    exact stripStart_eq_none (by decide) _ _
  have hdup : stripStart (ascii "DUP ") (ascii "ERR " ++ (code ++ 32 :: reason)) = none := by
    rw [ascii_dup, ascii_err]
    exact stripStart_eq_none (by decide) _ _
  have hwrite : writeErr code reason ++ rest =
      ascii "ERR " ++ (code ++ 32 :: reason) ++ 10 :: rest := by
    simp [writeErr]
  rw [hwrite, readFrame_line hline, readBehind, hok, hdup, stripStart_append]
  dsimp only
  rw [cut_append hblank]

/-- The payload of a delivery is read as a whole. -/
theorem readPayload_append (payload rest : Bytes) :
    readPayload payload.length (payload ++ 10 :: rest) = (.ok payload, rest) := by
  have hlen : ¬ (payload ++ 10 :: rest).length < payload.length := by
    simp only [length_append]
    omega
  unfold readPayload
  rw [if_neg hlen, drop_left, take_left]
  rfl

theorem readFrame_msg {topic payload : Bytes} {partition : ℤ} (htopic : IsToken topic)
    (hnum : 0 ≤ partition) (hint : IsInt partition) (hlen : payload.length < 2 ^ 63)
    (msgID : UInt64) (rest : Bytes) :
    readFrame (writeMsg topic partition msgID payload ++ rest) =
      (.ok (.msg topic partition msgID payload), rest) := by
  set words : List Bytes :=
    [ascii "MSG", topic, itoa partition, decimal msgID.toNat, decimal payload.length] with hwords
  have htokens : ∀ w ∈ words, IsToken w := by
    intro w hw
    simp only [hwords, mem_cons, not_mem_nil, or_false] at hw
    rcases hw with rfl | rfl | rfl | rfl | rfl
    · decide +kernel
    · exact htopic
    · exact isToken_itoa _
    · exact isToken_decimal _
    · exact isToken_decimal _
  have hline : IsLine (unwords words) :=
    ⟨notMem_unwords htokens (by decide) (by decide), fun hlast =>
      notMem_unwords htokens (b := 13) (by decide) (by decide) (mem_of_getLast? hlast)⟩
  have hhead : ascii "MSG " = ascii "MSG" ++ [32] := by with_unfolding_all rfl
  have hwrite : writeMsg topic partition msgID payload ++ rest =
      unwords words ++ 10 :: (payload ++ 10 :: rest) := by
    simp [writeMsg, hwords, unwords, hhead]
  have hstart : unwords words = ascii "MSG " ++ unwords words.tail := by
    rw [hwords, unwords_cons_cons, hhead, append_assoc]
    rfl
  have hok : stripStart (ascii "OK ") (unwords words) = none := by
    rw [hstart, ascii_ok, ascii_msg]
    exact stripStart_eq_none (by decide) _ _
  have hdup : stripStart (ascii "DUP ") (unwords words) = none := by
    rw [hstart, ascii_dup, ascii_msg]
    exact stripStart_eq_none (by decide) _ _
  have herr : stripStart (ascii "ERR ") (unwords words) = none := by
    rw [hstart, ascii_err, ascii_msg]
    exact stripStart_eq_none (by decide) _ _
  have hmsg : (stripStart (ascii "MSG ") (unwords words)).isSome := by
    rw [hstart, stripStart_append]
    rfl
  rw [hwrite, readFrame_line hline, readBehind, hok, hdup, herr]
  rw [if_pos hmsg, readMsg, fields_unwords htokens, hwords]
  dsimp only
  rw [atoi_itoa hnum hint]
  dsimp only
  rw [if_neg (Int.not_lt.mpr hnum), parseUint_decimal]
  dsimp only
  rw [decimal, atoi_paddedDecimal hlen]
  dsimp only
  rw [if_neg (Int.not_lt.mpr (Int.natCast_nonneg _)), Int.toNat_natCast, readPayload_append,
    UInt64.ofNat_toNat]
  rfl

/-- The lines of an info block are read back. -/
theorem readInfoLines_append {lines : List Bytes} (h : ∀ l ∈ lines, IsLine l) (i : ℕ)
    (rest : Bytes) :
    readInfoLines i lines.length ((lines.flatMap fun l => l ++ [10]) ++ rest) =
      (.ok lines, rest) := by
  induction lines generalizing i with
  | nil => rfl
  | cons l lines ih =>
    have hl := h l mem_cons_self
    rw [flatMap_cons, append_assoc, append_assoc, singleton_append,
      length_cons, readInfoLines, splitLine_line hl.newline]
    dsimp only
    rw [ih (fun x hx => h x (mem_cons_of_mem l hx)), trimRight_line hl.newline hl.carriage]
    rfl

theorem readFrame_info {lines : List Bytes} (hlen : lines.length < 2 ^ 63)
    (h : ∀ l ∈ lines, IsLine l) (rest : Bytes) :
    readFrame (writeInfo lines ++ rest) = (.ok (.info lines), rest) := by
  have hok : stripStart (ascii "OK ") (ascii "INFO " ++ decimal lines.length) = none := by
    rw [ascii_ok, ascii_info]
    exact stripStart_eq_none (by decide) _ _
  have hdup : stripStart (ascii "DUP ") (ascii "INFO " ++ decimal lines.length) = none := by
    rw [ascii_dup, ascii_info]
    exact stripStart_eq_none (by decide) _ _
  have herr : stripStart (ascii "ERR ") (ascii "INFO " ++ decimal lines.length) = none := by
    rw [ascii_err, ascii_info]
    exact stripStart_eq_none (by decide) _ _
  have hmsg : stripStart (ascii "MSG ") (ascii "INFO " ++ decimal lines.length) = none := by
    rw [ascii_msg, ascii_info]
    exact stripStart_eq_none (by decide) _ _
  rw [writeInfo, append_assoc, append_assoc, singleton_append,
    readFrame_line (isLine_append_decimal (by simp [ascii_info]) _), readBehind, hok, hdup, herr,
    hmsg, stripStart_append]
  dsimp only
  rw [if_neg (by decide), decimal, atoi_paddedDecimal hlen]
  dsimp only
  rw [if_neg (Int.not_lt.mpr (Int.natCast_nonneg _)), Int.toNat_natCast, readInfoLines_append h]
  rfl

theorem readFrame_write {f : WireFrame} (h : f.WellFormed) (rest : Bytes) :
    readFrame (f.write ++ rest) = (.ok f, rest) := by
  cases f with
  | ok id => exact readFrame_ok id rest
  | dup id => exact readFrame_dup id rest
  | err => exact readFrame_err h.1 h.2.1 h.2.2 rest
  | msg topic partition msgID =>
    exact readFrame_msg h.1 h.2.1 h.2.2.1 h.2.2.2 msgID rest
  | info => exact readFrame_info h.1 h.2 rest

/-! ## Streams of responses -/

/-- `readFrame`, as often as it is called: what it returns each time, and what is left. -/
def readFrames : ℕ → Bytes → List (Except FrameError WireFrame) × Bytes
  | 0, r => ([], r)
  | reads + 1, r =>
    let f := readFrame r
    let fs := readFrames reads f.2
    (f.1 :: fs.1, fs.2)

/-- Any frames that the server has written, one behind the other, are read as these frames in their
order, and what follows them is left. -/
theorem responses_read {fs : List WireFrame} (h : ∀ f ∈ fs, f.WellFormed) (rest : Bytes) :
    readFrames fs.length (fs.flatMap WireFrame.write ++ rest) = (fs.map .ok, rest) := by
  induction fs with
  | nil => rfl
  | cons f fs ih =>
    rw [flatMap_cons, append_assoc, length_cons, readFrames,
      readFrame_write (h f mem_cons_self), ih fun x hx => h x (mem_cons_of_mem f hx)]
    rfl

/-- An error with an empty reason, a delivery that carries another frame, and an info block with
such a line. -/
def nested : List WireFrame :=
  [.err (ascii "X") [], .msg (ascii "a") 2 9 (ascii "OK 1\n"), .info [[], ascii "OK 2"]]

theorem responses_read_nested :
    readFrames 3 (ascii "ERR X \nMSG a 2 9 5\nOK 1\n\nINFO 2\n\nOK 2\nOK 3\n") =
      (nested.map .ok, ascii "OK 3\n") := by
  have hwrite : nested.flatMap WireFrame.write ++ ascii "OK 3\n" =
      ascii "ERR X \nMSG a 2 9 5\nOK 1\n\nINFO 2\n\nOK 2\nOK 3\n" := by decide +kernel
  have hall : ∀ f ∈ nested, f.WellFormed := by
    intro f hf
    simp only [nested, mem_cons, not_mem_nil, or_false] at hf
    rcases hf with rfl | rfl | rfl
    · exact ⟨by decide +kernel, by decide +kernel, by decide, by decide⟩
    · exact ⟨by decide +kernel, by decide, ⟨by decide, by decide⟩, by decide +kernel⟩
    · refine ⟨by decide, fun l hl => ?_⟩
      rcases mem_pair.mp hl with rfl | rfl
      · exact ⟨by decide, by decide⟩
      · exact ⟨by decide +kernel, by decide +kernel⟩
  have hread := responses_read hall (ascii "OK 3\n")
  rw [hwrite] at hread
  exact hread

end ToyMQ.Client
