import ToyMQ.Wal.Reopen

/-!
# Readers of the log

A reader holds a segment and a position in its file. `NewReader` chooses the start segment under
the mutex, opens it without, and scans to the first record it was asked for; `Next` takes the mutex,
looks at how much of its segment may be read, and then decodes a frame or opens the next segment
without the mutex. A `Reading` is a log with one such reader, and each of these pieces is a step.

The length that may be read of a sealed segment is taken from the segment that follows in the slice.
`readableLen_eq` says that it is the right one as long as that one has not been dropped. The
invariant `ReadOk` follows: the reader stands before some record of the stream, and has returned the
ones before it without a gap (`ReadOk.of_step`).
-/

namespace ToyMQ.Wal

open Lib List Option

/-! ## The model -/

/-- `segmentAfterLocked`: the segment with the smallest index above `idx`. -/
def Log.segmentAfter (l : Log) (idx : ℕ) : Option Segment :=
  l.segments.find? fun s => idx < s.index

/-- `readableLenLocked`: how many bytes of a segment a reader may consume, and whether it is the
active one. Neither difference wraps around in the source: see `readableLen_eq`. -/
def Log.readableLen (l : Log) (index baseByteOffset : ℕ) : ℕ × Bool :=
  if index = l.active.index then (l.committed - baseByteOffset, true)
  else
    match l.segmentAfter index with
    | some next => (next.baseByteOffset - baseByteOffset, false)
    | none => (l.committed - baseByteOffset, false)

/-- The loop of `NewReader` over the slice: the first segment whose successor starts above
`fromMsgID`, or the active one. -/
def startSegment (fromMsgID : ℕ) (active : Segment) : List Segment → Segment
  | s :: s' :: rest =>
    if fromMsgID < s'.baseMsgID then s else startSegment fromMsgID active (s' :: rest)
  | _ => active

/-- The segment a reader has open, and its position in the file. -/
structure Handle where
  index : ℕ
  baseByteOffset : ℕ
  localPos : ℕ
deriving DecidableEq, Repr

/-- The errors of a reader, other than that of its context. -/
inductive ReadError where
  /-- `ErrOutOfRange`. -/
  | outOfRange
  /-- The file to open has no name any more. -/
  | notExist
  | decode (e : DecodeError)
deriving DecidableEq, Repr

inductive Phase where
  /-- `NewReader`, before it takes the mutex. -/
  | start
  /-- `NewReader`, about to open the segment it chose. -/
  | openStart (index baseByteOffset : ℕ)
  /-- At the head of the loop of `NewReader`. -/
  | scan (h : Handle)
  /-- `NewReader`, about to decode a frame. -/
  | scanDecode (h : Handle)
  /-- Between two calls of `Next`. -/
  | idle (h : Handle)
  /-- At the head of the loop of `Next`. -/
  | loop (h : Handle)
  /-- `Next`, about to decode a frame. -/
  | decode (h : Handle)
  /-- `Next`, at the end of the segment of `h` and about to open its successor. -/
  | openNext (h : Handle) (index baseByteOffset : ℕ)
  /-- `NewReader` returned an error. -/
  | refused (e : ReadError)
  /-- `Next` returned an error. -/
  | failed (e : ReadError)
deriving DecidableEq, Repr

/-- A log with a reader that was asked to start at `fromMsgID`. -/
structure Reading where
  proc : Proc
  fromMsgID : ℕ
  phase : Phase
  /-- What the calls of `Next` have returned (history). -/
  out : List Record
deriving DecidableEq, Repr

/-- Whether `os.Open` finds the file of a segment. -/
def Proc.canOpen (p : Proc) (index : ℕ) : Bool := (p.dir.find (segmentName index)).isSome

/-- The bytes that a descriptor of a segment's file reads; a removed file stays readable. -/
def Proc.content (p : Proc) (index : ℕ) : Bytes :=
  match p.all.find? fun s => s.index == index with
  | some s => s.f.data
  | none => []

/-- `Decode` at the position of a reader. Files only grow, so the buffer in between is not seen. -/
def Proc.decodeAt (p : Proc) (h : Handle) : Except DecodeError (Record × ℕ) :=
  codec.decode ((p.content h.index).drop h.localPos)

/-- The reader's position after a frame of `n` bytes. -/
def Handle.advance (h : Handle) (n : ℕ) : Handle := { h with localPos := h.localPos + n }

/-- What the reader does next when it is at the given phase. A step under the mutex needs it to be
free, and a wait on the condition variable is a step that is not enabled. -/
def Reading.read (t : Reading) : Option Reading :=
  match t.phase with
  | .start =>
    if t.proc.holder ≠ .free then none
    else if t.fromMsgID < t.proc.log.retainedFloor then
      some { t with phase := .refused .outOfRange }
    else
      let s := startSegment t.fromMsgID t.proc.log.active t.proc.log.segments
      some { t with phase := .openStart s.index s.baseByteOffset }
  | .openStart index base =>
    if t.proc.canOpen index then some { t with phase := .scan ⟨index, base, 0⟩ }
    else some { t with phase := .refused .notExist }
  | .scan h =>
    if t.proc.holder ≠ .free then none
    else if (t.proc.log.readableLen h.index h.baseByteOffset).1 ≤ h.localPos then
      some { t with phase := .idle h }
    else some { t with phase := .scanDecode h }
  | .scanDecode h =>
    match t.proc.decodeAt h with
    | .error e => some { t with phase := .refused (.decode e) }
    | .ok (rec, n) =>
      if t.fromMsgID ≤ rec.msgID.toNat then some { t with phase := .idle h }
      else some { t with phase := .scan (h.advance n) }
  | .idle h => some { t with phase := .loop h }
  | .loop h =>
    if t.proc.holder ≠ .free then none
    else if h.localPos < (t.proc.log.readableLen h.index h.baseByteOffset).1 then
      some { t with phase := .decode h }
    else if (t.proc.log.readableLen h.index h.baseByteOffset).2 then none
    else
      match t.proc.log.segmentAfter h.index with
      | none => none
      | some next => some { t with phase := .openNext h next.index next.baseByteOffset }
  | .decode h =>
    match t.proc.decodeAt h with
    | .error e => some { t with phase := .failed (.decode e) }
    | .ok (rec, n) => some { t with phase := .idle (h.advance n), out := t.out ++ [rec] }
  | .openNext _ index base =>
    if t.proc.canOpen index then some { t with phase := .loop ⟨index, base, 0⟩ }
    else some { t with phase := .failed .notExist }
  | .refused _ => none
  | .failed _ => none

inductive ReadAction where
  /-- A step of the log's goroutines. -/
  | log (a : Action)
  /-- The next step of the reader. -/
  | read
  /-- `Next` finds its context cancelled and returns the context's error. -/
  | cancel
deriving DecidableEq, Repr

def Reading.step (t : Reading) : ReadAction → Option Reading
  | .log a => (Wal.step t.proc a).map fun p => { t with proc := p }
  | .read => t.read
  | .cancel =>
    match t.phase, t.proc.holder with
    | .loop h, .free => some { t with phase := .idle h }
    | _, _ => none

/-! ## Positions of a reader -/

/-- No segment with index `i` or above has been dropped. -/
def Retained (p : Proc) (i : ℕ) : Prop := ∀ s ∈ p.dropped, s.index < i

/-- The handle stands in segment `s`, between the records `front` and `back`, before record number
`k` of the stream whose first id is `id₀`. -/
structure On (id₀ : ℕ) (p : Proc) (h : Handle) (k : ℕ) (s : Segment)
    (front back : List Record) : Prop where
  mem : s ∈ p.all
  index_eq : s.index = h.index
  base_eq : s.baseByteOffset = h.baseByteOffset
  records_eq : s.records = front ++ back
  pos_eq : h.localPos = (codec.frames front).length
  number : id₀ + k = s.baseMsgID + front.length

/-- The handle stands before record number `k`, in a segment that ends before record number `m`. -/
def At (id₀ : ℕ) (p : Proc) (h : Handle) (k m : ℕ) : Prop :=
  ∃ s front back, On id₀ p h k s front back ∧ m = k + back.length

/-- What a step of the log may do to a segment: its place stays, and records are added. -/
def Segment.Grows (s s' : Segment) : Prop :=
  s'.index = s.index ∧ s'.baseMsgID = s.baseMsgID ∧ s'.baseByteOffset = s.baseByteOffset ∧
    s.records <+: s'.records

theorem Segment.Grows.refl (s : Segment) : s.Grows s := ⟨rfl, rfl, rfl, prefix_rfl⟩

theorem Segment.Grows.syncAt (s : Segment) (t : ℕ) : s.Grows (syncAt t s) :=
  ⟨index_syncAt t s, baseMsgID_syncAt t s, baseByteOffset_syncAt t s,
    (records_syncAt t s).symm ▸ prefix_rfl⟩

section Position

variable {id₀ k m : ℕ} {p p' : Proc} {h : Handle} {s : Segment} {front back : List Record}

variable {a : Action} {i : ℕ} {r : Record} {pre : List Segment}

theorem exists_grows_of_step (hi : Inv id₀ p) (ha : a.Intact) (hstep : Step p a p')
    (hs : s ∈ p.all) : ∃ s' ∈ p'.all, s.Grows s' := by
  have hsame : ∀ q : Proc, q.all = p.all → ∃ s' ∈ q.all, s.Grows s' := fun q hq =>
    ⟨s, hq ▸ hs, .refl s⟩
  have hsync : ∀ t, ∃ s' ∈ (p.syncSegment t).all, s.Grows s' := by
    intro t
    rw [all_syncSegment]
    rw [Proc.all_eq_gone_append] at hs
    rcases mem_append.mp hs with hgone | hlinked
    · exact ⟨s, mem_append_left _ hgone, .refl s⟩
    · exact ⟨syncAt t s, mem_append_right _ (List.mem_map_of_mem hlinked), .syncAt s t⟩
  cases hstep with
  | rotateSync | fsync | flushSync => exact hsync _
  | rotateCreate =>
    have hall : p.rotated.all = p.all ++ [p.nextSegment] := by
      simp [Proc.rotated, Proc.all, Proc.older]
    exact ⟨s, show s ∈ p.rotated.all by rw [hall]; exact mem_append_left _ hs, .refl s⟩
  | @write rec hh =>
    have hwrote : ∃ s' ∈ (p.wrote rec).all, s.Grows s' := by
      rcases mem_append.mp hs with holder | hactive
      · exact ⟨s, mem_append_left _ holder, .refl s⟩
      · obtain rfl := mem_singleton.mp hactive
        refine ⟨p.log.active.withRecord rec, mem_append_right _ (mem_singleton_self _),
          rfl, rfl, rfl, ?_⟩
        have hholder := hi.calls.holder
        rw [hh] at hholder
        rw [hi.shape.active.2.2.records_withRecord hholder.2.fits]
        exact prefix_append _ _
    rcases fence_cases (p.wrote rec) rec with ⟨-, heq⟩ | heq | heq | ⟨-, heq⟩ | heq <;>
      rw [heq] <;> exact hwrote
  | writeTorn => cases ha _ rfl
  | drop hfree =>
    have htoDrop := hi.calls.holder
    rw [hfree] at htoDrop
    exact hsame _ (congrArg (· ++ [p.log.active]) (older_of_drop htoDrop _).symm)
  | remove hh hdrop =>
    exact hsame _ (congrArg (· ++ [p.log.active]) (older_of_remove hdrop).symm)
  | _ => exact hsame _ rfl

theorem At.of_step (hat : At id₀ p h k m) (hi : Inv id₀ p) (ha : a.Intact) (hstep : Step p a p') :
    ∃ m', m ≤ m' ∧ At id₀ p' h k m' := by
  obtain ⟨s, front, back, hon, rfl⟩ := hat
  obtain ⟨s', hs', hindex, hid, hbase, more, hmore⟩ := exists_grows_of_step hi ha hstep hon.mem
  refine ⟨k + (back ++ more).length, by rw [length_append]; omega, s', front, back ++ more,
    ⟨hs', hindex.trans hon.index_eq, hbase.trans hon.base_eq, ?_, hon.pos_eq, ?_⟩, rfl⟩
  · rw [← hmore, hon.records_eq, append_assoc]
  · rw [hid, hon.number]

theorem dropped_eq_of_step (hdrop : ∀ keepIndex, a ≠ .drop keepIndex) (hstep : Step p a p') :
    p'.dropped.map (fun s => (s.index, s.records))
      = p.dropped.map fun s => (s.index, s.records) := by
  have hsync : ∀ t, (p.syncSegment t).dropped.map (fun s => (s.index, s.records))
      = p.dropped.map fun s => (s.index, s.records) := by
    intro t
    simp [Proc.syncSegment, Proc.dropped, Function.comp_def]
  cases hstep with
  | rotateSync | fsync | flushSync => exact hsync _
  | @write rec =>
    rcases fence_cases (p.wrote rec) rec with ⟨-, heq⟩ | heq | heq | ⟨-, heq⟩ | heq <;>
      rw [heq] <;> rfl
  | drop => exact absurd rfl (hdrop _)
  | remove hh hdrop' => simp [Proc.dropped, hdrop']
  | _ => rfl

theorem stream_dropped_of_step (hdrop : ∀ keepIndex, a ≠ .drop keepIndex) (hstep : Step p a p') :
    stream p'.dropped = stream p.dropped := by
  have hmap := congrArg (List.flatMap Prod.snd) (dropped_eq_of_step hdrop hstep)
  rwa [flatMap_map, flatMap_map] at hmap

theorem Retained.of_step (hr : Retained p i) (hstep : Step p a p')
    (hspare : ∀ keepIndex, a = .drop keepIndex → ∀ s ∈ p.log.dropped keepIndex, s.index < i) :
    Retained p' i := by
  by_cases hisdrop : ∃ keepIndex, a = .drop keepIndex
  · obtain ⟨keepIndex, rfl⟩ := hisdrop
    cases hstep with
    | dropNone => exact hr
    | drop =>
      intro s hs
      rcases mem_append.mp hs with hgone | hnew
      · exact hr s (mem_append_left _ hgone)
      · exact hspare keepIndex rfl s hnew
  · have hmap := dropped_eq_of_step (fun keepIndex heq => hisdrop ⟨keepIndex, heq⟩) hstep
    intro s hs
    have hmem : (s.index, s.records) ∈ p'.dropped.map fun s => (s.index, s.records) :=
      List.mem_map_of_mem hs
    rw [hmap] at hmem
    obtain ⟨s', hs', heq⟩ := List.mem_map.mp hmem
    have hindex : s'.index = s.index := congrArg Prod.fst heq
    exact hindex ▸ hr s' hs'

theorem Shape.find_index (hsh : Shape id₀ p) (hs : s ∈ p.all) :
    (p.all.find? fun t => t.index == s.index) = some s := by
  obtain ⟨pre, post, hsplit⟩ := append_of_mem hs
  have hasc := hsh.ascending
  rw [hsplit] at hasc ⊢
  rw [find?_append, find?_eq_none.mpr, find?_cons_of_pos (by simp), none_or]
  intro t ht
  have hlt := (pairwise_append.mp hasc).2.2 t ht s (mem_cons_self ..)
  simp [hlt.ne]

theorem On.content_eq (hon : On id₀ p h k s front back) (hsh : Shape id₀ p) :
    p.content h.index = codec.frames front ++ codec.frames back := by
  rw [Proc.content, ← hon.index_eq, hsh.find_index hon.mem, ← codec.frames_append,
    ← hon.records_eq]
  exact (hsh.layout.clean s hon.mem).data_eq

theorem On.decodeAt (hon : On id₀ p h k s front (r :: back)) (hsh : Shape id₀ p) :
    p.decodeAt h = .ok (r, (codec.frame r).length) := by
  have hfit : codec.Fits r :=
    (hsh.layout.clean s hon.mem).fits r (by rw [hon.records_eq]; simp)
  rw [Proc.decodeAt, hon.content_eq hsh, hon.pos_eq, drop_left, codec.frames_cons]
  exact codec.decode_frame r _ hfit

/-- The position after the record that was read. -/
theorem On.advance (hon : On id₀ p h k s front (r :: back)) :
    On id₀ p (h.advance (codec.frame r).length) (k + 1) s (front ++ [r]) back := by
  refine ⟨hon.mem, hon.index_eq, hon.base_eq, by rw [hon.records_eq]; simp, ?_, ?_⟩
  · show h.localPos + _ = _
    rw [hon.pos_eq, codec.frames_append, length_append]
    simp
  · have hnumber := hon.number
    rw [length_append, length_singleton]
    omega

theorem On.of_split {post : List Segment} (hon : On id₀ p h k s front back) (hsh : Shape id₀ p)
    (hsplit : p.all = pre ++ s :: post) :
    k = (stream pre ++ front).length ∧
      p.appended = (stream pre ++ front) ++ (back ++ stream post) := by
  have hlay := hsh.layout
  rw [hsplit] at hlay
  have hid := hlay.base.1
  have hnumber := hon.number
  refine ⟨by rw [length_append]; omega, ?_⟩
  rw [hsh.appended_eq, hsplit, stream_append, stream_cons, hon.records_eq]
  simp

theorem On.split (hon : On id₀ p h k s front back) (hsh : Shape id₀ p) :
    ∃ pre post, p.all = pre ++ s :: post ∧ k = (stream pre ++ front).length ∧
      p.appended = (stream pre ++ front) ++ (back ++ stream post) ∧
      h.baseByteOffset + h.localPos = (codec.frames (p.appended.take k)).length := by
  obtain ⟨pre, post, hsplit⟩ := append_of_mem hon.mem
  obtain ⟨hk, happ⟩ := hon.of_split hsh hsplit
  have hlay := hsh.layout
  rw [hsplit] at hlay
  refine ⟨pre, post, hsplit, hk, happ, ?_⟩
  rw [happ, hk, take_left, codec.frames_append, length_append, hon.pos_eq,
    ← hon.base_eq, hlay.base.2, Nat.zero_add]

theorem On.getElem (hon : On id₀ p h k s front (r :: back)) (hsh : Shape id₀ p) :
    p.appended[k]? = some r := by
  obtain ⟨pre, post, -, hk, happ, -⟩ := hon.split hsh
  rw [happ, hk, getElem?_append_right le_rfl, Nat.sub_self]
  rfl

theorem segmentAfter_eq (hr : Retained p (i + 1)) :
    p.log.segmentAfter i = p.all.find? fun s => i < s.index := by
  have hnone : (p.dropped.find? fun s => decide (i < s.index)) = none := by
    refine find?_eq_none.mpr fun s hs => ?_
    have := hr s hs
    simp only [decide_eq_true_eq]
    omega
  rw [Log.segmentAfter, Proc.all_eq_dropped_append, find?_append, hnone, none_or]

theorem Shape.next_segment (hsh : Shape id₀ p) {rest : List Segment} {s next : Segment}
    (hsplit : p.all = pre ++ s :: next :: rest) :
    s ∈ p.older ∧ s.index < next.index ∧ (∀ t ∈ pre ++ [s], t.index ≤ s.index) ∧
      next.baseMsgID = s.baseMsgID + s.records.length ∧
      next.baseByteOffset = s.baseByteOffset + (codec.frames s.records).length := by
  have hasc := hsh.ascending
  have hlay := hsh.layout
  rw [hsplit] at hasc hlay
  have hlt : s.index < next.index :=
    (pairwise_cons.mp (pairwise_append.mp hasc).2.1).1 next (mem_cons_self ..)
  have hbefore : ∀ t ∈ pre ++ [s], t.index ≤ s.index := by
    intro t ht
    rcases mem_append.mp ht with hpre | hself
    · exact ((pairwise_append.mp hasc).2.2 t hpre s (mem_cons_self ..)).le
    · rw [mem_singleton.mp hself]
  -- The active segment has the highest index, so `s` is not the active one.
  have hs : s ∈ p.older := by
    have hmem : s ∈ p.older ++ [p.log.active] := by
      show s ∈ p.all
      rw [hsplit]
      simp
    rcases mem_append.mp hmem with holder | hactive
    · exact holder
    · have hnext : next ∈ p.older ++ [p.log.active] := by
        show next ∈ p.all
        rw [hsplit]
        simp
      rw [mem_singleton.mp hactive] at hlt
      rcases mem_append.mp hnext with holder | hnext
      · exact absurd (hsh.index_lt holder) hlt.not_gt
      · rw [mem_singleton.mp hnext] at hlt
        exact absurd hlt (lt_irrefl _)
  have hbase := hlay.base
  have hlay' : Layout id₀ 0 ((pre ++ [s]) ++ next :: rest) := by simpa using hlay
  have hbase' := hlay'.base
  rw [stream_append, stream_cons, stream_nil, append_nil, codec.frames_append,
    length_append, length_append] at hbase'
  exact ⟨hs, hlt, hbefore, by omega, by omega⟩

/-- How much a reader may read, as long as the successor of its segment has not been dropped: of the
active segment what is committed, of a sealed one everything. -/
theorem readableLen_eq (hon : On id₀ p h k s front back) (hsh : Shape id₀ p)
    (hr : Retained p (h.index + 1)) :
    (s = p.log.active ∧
      p.log.readableLen h.index h.baseByteOffset = (p.log.committed - h.baseByteOffset, true)) ∨
    ∃ next ∈ p.log.segments, s ∈ p.older ∧ p.log.segmentAfter h.index = some next ∧
      h.index < next.index ∧ next.baseMsgID = s.baseMsgID + s.records.length ∧
      p.log.readableLen h.index h.baseByteOffset = ((codec.frames s.records).length, false) := by
  obtain ⟨pre, post, hsplit⟩ := append_of_mem hon.mem
  have hidx := hon.index_eq
  cases post with
  | nil =>
    -- Nothing comes after the active segment.
    obtain ⟨-, hactive⟩ := append_inj' (hsplit.symm.trans rfl : pre ++ [s] = p.older ++ _) rfl
    obtain rfl : s = p.log.active := by simpa using hactive
    refine .inl ⟨rfl, ?_⟩
    rw [Log.readableLen, if_pos hidx.symm]
  | cons next rest =>
    right
    obtain ⟨hs, hlt, hbefore, hid, hoff⟩ := hsh.next_segment hsplit
    have hafter : p.log.segmentAfter h.index = some next := by
      rw [segmentAfter_eq hr, ← hidx, hsplit, show pre ++ s :: next :: rest
        = (pre ++ [s]) ++ next :: rest by simp, find?_append, find?_eq_none.mpr,
        none_or, find?_cons_of_pos (by simpa using hlt)]
      intro t ht
      have hle := hbefore t ht
      simp only [decide_eq_true_eq]
      omega
    have hnext : next ∈ p.log.segments := by
      have hmem : next ∈ p.all := by
        rw [hsplit]
        simp
      rw [Proc.all_eq_dropped_append] at hmem
      rcases mem_append.mp hmem with hdropped | hslice
      · have hgone := hr next hdropped
        omega
      · exact hslice
    refine ⟨next, hnext, hs, hafter, hidx ▸ hlt, hid, ?_⟩
    have hne : h.index ≠ p.log.active.index := by
      have hbelow := hsh.index_lt hs
      omega
    rw [Log.readableLen, if_neg hne, hafter]
    have hbase := hon.base_eq
    exact Prod.ext (by show next.baseByteOffset - h.baseByteOffset = _; omega) rfl

/-- A record of the active segment that starts below `committed` ends at or below it. -/
theorem Shape.take_succ_le_committed (hsh : Shape id₀ p)
    (hlt : (codec.frames (p.appended.take k)).length < p.log.committed) :
    k < p.appended.length ∧ (codec.frames (p.appended.take (k + 1))).length ≤ p.log.committed := by
  obtain ⟨j, hj, heq⟩ := hsh.boundary
  have hkj : k < j := by
    by_contra hnot
    have := codec.length_frames_take_mono p.appended (Nat.le_of_not_lt hnot)
    omega
  rw [heq]
  exact ⟨hkj.trans_le hj, codec.length_frames_take_mono p.appended hkj⟩

theorem On.of_lt_readableLen (hon : On id₀ p h k s front back) (hsh : Shape id₀ p)
    (hr : Retained p (h.index + 1))
    (hlt : h.localPos < (p.log.readableLen h.index h.baseByteOffset).1) :
    back ≠ [] ∧ (codec.frames (p.appended.take (k + 1))).length ≤ p.log.committed := by
  obtain ⟨pre, post, hsplit, hk, happ, hpos⟩ := hon.split hsh
  rcases readableLen_eq hon hsh hr with ⟨rfl, heq⟩ | ⟨next, -, hs, -, -, -, heq⟩
  · -- The active segment ends the stream, so the record found is one of its own.
    rw [heq] at hlt
    obtain ⟨hlen, hle⟩ := hsh.take_succ_le_committed (k := k) (by dsimp only at hlt; omega)
    refine ⟨fun hnil => ?_, hle⟩
    rw [hsh.appended_split, hon.records_eq, hnil] at hlen
    simp only [append_nil, length_append] at hlen
    have := hon.number
    have := hsh.active.1
    omega
  · rw [heq, hon.records_eq, hon.pos_eq, codec.frames_append, length_append] at hlt
    have hback : back ≠ [] := by
      rintro rfl
      simp at hlt
    have hpos' := length_pos_iff.mpr hback
    refine ⟨hback, ?_⟩
    calc (codec.frames (p.appended.take (k + 1))).length
        ≤ (codec.frames (p.appended.take (k + back.length))).length :=
          codec.length_frames_take_mono p.appended (by omega)
      _ = s.endOffset := by
          rw [happ, ← append_assoc, take_left' (by simp [hk, Nat.add_assoc]),
            append_assoc, ← hon.records_eq, Segment.endOffset,
            (hsh.layout.clean s hon.mem).length_data]
          have hlay := hsh.layout
          rw [hsplit] at hlay
          rw [codec.frames_append, length_append, hlay.base.2, Nat.zero_add]
      _ ≤ p.log.active.baseByteOffset := hsh.endOffset_le hs
      _ ≤ p.log.committed := hsh.base_le

theorem At.lt_of_readable (hat : At id₀ p h k m) (hsh : Shape id₀ p) (hr : Retained p (h.index + 1))
    (hlt : h.localPos < (p.log.readableLen h.index h.baseByteOffset).1) : k < m := by
  obtain ⟨s, front, back, hon, rfl⟩ := hat
  have hpos := length_pos_iff.mpr (hon.of_lt_readableLen hsh hr hlt).1
  omega

theorem At.before (hat : At id₀ p h k m) (hkm : k < m) :
    ∃ s front r back, On id₀ p h k s front (r :: back) ∧ m = k + (back.length + 1) := by
  obtain ⟨s, front, back, hon, rfl⟩ := hat
  obtain ⟨r, back', rfl⟩ : ∃ r back', back = r :: back' :=
    exists_cons_of_ne_nil (by rintro rfl; simp at hkm)
  exact ⟨s, front, r, back', hon, rfl⟩

theorem On.of_readableLen_le_active (hon : On id₀ p h k s front back) (hsh : Shape id₀ p)
    (hle : p.log.committed - h.baseByteOffset ≤ h.localPos) :
    p.log.committed ≤ (codec.frames (p.appended.take k)).length := by
  obtain ⟨pre, post, -, -, -, hpos⟩ := hon.split hsh
  omega

theorem On.of_readableLen_le_sealed (hon : On id₀ p h k s front back)
    (hle : (codec.frames s.records).length ≤ h.localPos) : back = [] := by
  rw [hon.records_eq, hon.pos_eq, codec.frames_append, length_append] at hle
  have hlen := codec.length_le_length_frames back
  exact length_eq_zero_iff.mp (by omega)

/-- A segment of the slice can be opened. -/
theorem canOpen_of_mem (hs : s ∈ p.log.segments) : p.canOpen s.index = true := by
  have hmem : s.entry ∈ p.dir :=
    mem_append_right _ (List.mem_map_of_mem (mem_append_right _ hs))
  unfold Proc.canOpen Dir.find
  rw [isSome_iff_ne_none, Ne, lookup_eq_none_iff]
  intro hnone
  exact absurd (hnone _ hmem) (by simp [Segment.entry])

theorem canOpen_of_at {index base : ℕ} (hat : At id₀ p ⟨index, base, 0⟩ k m)
    (hr : Retained p index) : p.canOpen index = true := by
  obtain ⟨s, front, back, hon, -⟩ := hat
  have hindex : s.index = index := hon.index_eq
  have hmem := hon.mem
  rw [Proc.all_eq_dropped_append] at hmem
  rcases mem_append.mp hmem with hdropped | hslice
  · exact absurd (hr s hdropped) hindex.ge.not_gt
  · exact hindex ▸ canOpen_of_mem hslice

/-- The position at the head of a segment. -/
theorem On.head (hsh : Shape id₀ p) (hs : s ∈ p.all) :
    On id₀ p ⟨s.index, s.baseByteOffset, 0⟩ (s.baseMsgID - id₀) s [] s.records := by
  obtain ⟨pre, post, hsplit⟩ := append_of_mem hs
  have hlay := hsh.layout
  rw [hsplit] at hlay
  have hbase := hlay.base.1
  exact ⟨hs, rfl, rfl, rfl, rfl, by rw [length_nil]; omega⟩

end Position

/-! ## The invariant of a reader -/

/-- What the calls of `Next` have returned when the reader stands before record number `k`: the
records from number `n` on, all of them committed. -/
structure Returned (p : Proc) (n k : ℕ) (out : List Record) : Prop where
  number : k = n + out.length
  out_eq : out <+: p.appended.drop n
  committed : out ≠ [] → (codec.frames (p.appended.take k)).length ≤ p.log.committed

/-- The invariant of a reader that `NewReader` has returned, positioned before record number `n`. -/
def NextOk (id₀ n : ℕ) (p : Proc) (out : List Record) : Phase → Prop
  | .idle h | .loop h =>
    ∃ k m, At id₀ p h k m ∧ Retained p (h.index + 1) ∧ Returned p n k out
  | .decode h =>
    ∃ k m, At id₀ p h k m ∧ Retained p (h.index + 1) ∧ Returned p n k out ∧ k < m ∧
      (codec.frames (p.appended.take (k + 1))).length ≤ p.log.committed
  | .openNext h index base =>
    ∃ k m, At id₀ p ⟨index, base, 0⟩ k m ∧ h.index < index ∧ Retained p index ∧ Returned p n k out
  | _ => False

/-- The invariant of a reader inside `NewReader`. When the goal is a record number, the reader is on
its way to that record, and the segment it has chosen is there to be opened. -/
def ScanOk (id₀ : ℕ) (goal : Option ℕ) (p : Proc) : Phase → Prop
  | .start => True
  | .openStart index base =>
    ∃ k m, At id₀ p ⟨index, base, 0⟩ k m ∧ Retained p (index + 1) ∧
      ∀ n ∈ goal, k ≤ n ∧ n ≤ m ∧ Retained p index
  | .scan h =>
    ∃ k m, At id₀ p h k m ∧ Retained p (h.index + 1) ∧ ∀ n ∈ goal, k ≤ n ∧ n ≤ m
  | .scanDecode h =>
    ∃ k m, At id₀ p h k m ∧ Retained p (h.index + 1) ∧ k < m ∧ ∀ n ∈ goal, k ≤ n ∧ n ≤ m
  | .refused _ => goal = none
  | _ => False

/-- The record that `NewReader` has to find: it is `fromMsgID`, lies in a segment of the slice or
right after the last one, and everything before it is committed. -/
structure Goal (id₀ : ℕ) (p : Proc) (fromMsgID n : ℕ) : Prop where
  number : fromMsgID = id₀ + n
  retained : (stream p.dropped).length ≤ n
  le_length : n ≤ p.appended.length
  committed : (codec.frames (p.appended.take n)).length ≤ p.log.committed

/-- The invariant of a log with a reader. -/
structure ReadOk (id₀ : ℕ) (goal : Option ℕ) (t : Reading) : Prop where
  inv : Inv id₀ t.proc
  goal_ok : ∀ n ∈ goal, Goal id₀ t.proc t.fromMsgID n
  phase : (t.out = [] ∧ ScanOk id₀ goal t.proc t.phase) ∨
    ∃ n, (∀ n' ∈ goal, n = n') ∧ NextOk id₀ n t.proc t.out t.phase

/-- The segment that a reader holds or has chosen, by index. -/
def Phase.held : Phase → Option ℕ
  | .start | .refused _ | .failed _ => none
  | .openStart index _ => some index
  | .scan h | .scanDecode h | .idle h | .loop h | .decode h | .openNext h _ _ => some h.index

/-- A call of `DropSegmentsBefore`, if the step is one, removes no segment above the reader's. -/
def Spares (t : Reading) : ReadAction → Prop
  | .log (.drop keepIndex) =>
    ∀ i ∈ t.phase.held, ∀ s ∈ t.proc.log.dropped keepIndex, s.index ≤ i
  | _ => True

/-- The write of a step, if it is one, is not cut short. -/
def ReadAction.Intact : ReadAction → Prop
  | .log a => a.Intact
  | _ => True

/-- The step is no call of `DropSegmentsBefore`. -/
def ReadAction.KeepsAll : ReadAction → Prop
  | .log (.drop _) => False
  | _ => True

instance (t : Reading) (a : ReadAction) : Decidable (Spares t a) := by
  unfold Spares
  split <;> infer_instance

instance (a : ReadAction) : Decidable a.Intact := by
  unfold ReadAction.Intact
  split <;> infer_instance

instance (a : ReadAction) : Decidable a.KeepsAll := by
  unfold ReadAction.KeepsAll
  split <;> infer_instance

/-! ## Steps of the log -/

section LogStep

variable {id₀ n k m : ℕ} {goal : Option ℕ} {p p' : Proc} {h : Handle} {out : List Record}
  {phase : Phase} {a : Action}

theorem At.le_length (hat : At id₀ p h k m) (hsh : Shape id₀ p) : m ≤ p.appended.length := by
  obtain ⟨s, front, back, hon, rfl⟩ := hat
  obtain ⟨pre, post, -, hk, happ, -⟩ := hon.split hsh
  rw [happ, hk]
  simp only [length_append]
  omega

theorem Extends.frames_take (he : Extends p p') (hk : k ≤ p.appended.length)
    (hle : (codec.frames (p.appended.take k)).length ≤ p.log.committed) :
    (codec.frames (p'.appended.take k)).length ≤ p'.log.committed := by
  obtain ⟨more, hmore⟩ := he.appended
  rw [← hmore, take_append_of_le_length hk]
  exact hle.trans he.committed

theorem Returned.extend (hret : Returned p n k out) (he : Extends p p') :
    Returned p' n k out := by
  refine ⟨hret.number, ?_, fun hne => he.frames_take ?_ (hret.committed hne)⟩
  · obtain ⟨more, hmore⟩ := he.appended
    rw [← hmore, drop_append]
    exact hret.out_eq.trans (prefix_append _ _)
  · have hlen := hret.out_eq.length_le
    have hpos := length_pos_iff.mpr hne
    have hnumber := hret.number
    rw [length_drop] at hlen
    omega

theorem NextOk.of_log (hi : Inv id₀ p) (ha : a.Intact) (hstep : Step p a p')
    (hspare : ∀ keepIndex, a = .drop keepIndex → ∀ i ∈ phase.held,
      ∀ s ∈ p.log.dropped keepIndex, s.index ≤ i)
    (hok : NextOk id₀ n p out phase) : NextOk id₀ n p' out phase := by
  have he := extends_of_step hi hstep
  cases phase with
  | idle | loop =>
    obtain ⟨k, m, hat, hr, hret⟩ := hok
    obtain ⟨m', -, hat'⟩ := hat.of_step hi ha hstep
    exact ⟨k, m', hat', hr.of_step hstep fun keepIndex heq s hs =>
      Nat.lt_succ_of_le (hspare keepIndex heq _ rfl s hs), hret.extend he⟩
  | decode =>
    obtain ⟨k, m, hat, hr, hret, hkm, hle⟩ := hok
    obtain ⟨m', hm, hat'⟩ := hat.of_step hi ha hstep
    have hlen := hat.le_length hi.shape
    exact ⟨k, m', hat', hr.of_step hstep fun keepIndex heq s hs =>
      Nat.lt_succ_of_le (hspare keepIndex heq _ rfl s hs), hret.extend he, hkm.trans_le hm,
      he.frames_take (by omega) hle⟩
  | openNext =>
    obtain ⟨k, m, hat, hlt, hr, hret⟩ := hok
    obtain ⟨m', -, hat'⟩ := hat.of_step hi ha hstep
    exact ⟨k, m', hat', hlt, hr.of_step hstep fun keepIndex heq s hs =>
      (hspare keepIndex heq _ rfl s hs).trans_lt hlt, hret.extend he⟩
  | _ => exact hok.elim

theorem ScanOk.of_log (hi : Inv id₀ p) (ha : a.Intact) (hstep : Step p a p')
    (hspare : ∀ keepIndex, a = .drop keepIndex → ∀ i ∈ phase.held,
      ∀ s ∈ p.log.dropped keepIndex, s.index ≤ i)
    (hgoal : goal ≠ none → ∀ keepIndex, a ≠ .drop keepIndex)
    (hok : ScanOk id₀ goal p phase) : ScanOk id₀ goal p' phase := by
  cases phase with
  | start => trivial
  | openStart =>
    obtain ⟨k, m, hat, hr, hbounds⟩ := hok
    obtain ⟨m', hm, hat'⟩ := hat.of_step hi ha hstep
    refine ⟨k, m', hat', hr.of_step hstep fun keepIndex heq s hs =>
      Nat.lt_succ_of_le (hspare keepIndex heq _ rfl s hs), fun n hn => ?_⟩
    obtain ⟨hkn, hnm, hrn⟩ := hbounds n hn
    exact ⟨hkn, hnm.trans hm, hrn.of_step hstep fun keepIndex heq =>
      absurd heq (hgoal (ne_none_iff_exists'.mpr ⟨n, hn⟩) keepIndex)⟩
  | scan =>
    obtain ⟨k, m, hat, hr, hbounds⟩ := hok
    obtain ⟨m', hm, hat'⟩ := hat.of_step hi ha hstep
    exact ⟨k, m', hat', hr.of_step hstep fun keepIndex heq s hs =>
      Nat.lt_succ_of_le (hspare keepIndex heq _ rfl s hs),
      fun n hn => ⟨(hbounds n hn).1, (hbounds n hn).2.trans hm⟩⟩
  | scanDecode =>
    obtain ⟨k, m, hat, hr, hkm, hbounds⟩ := hok
    obtain ⟨m', hm, hat'⟩ := hat.of_step hi ha hstep
    exact ⟨k, m', hat', hr.of_step hstep fun keepIndex heq s hs =>
      Nat.lt_succ_of_le (hspare keepIndex heq _ rfl s hs), hkm.trans_le hm,
      fun n hn => ⟨(hbounds n hn).1, (hbounds n hn).2.trans hm⟩⟩
  | refused => exact hok
  | _ => exact hok.elim

/-- The record that a reader has to find stays where it is when nothing is dropped. -/
theorem Goal.of_log {fromMsgID : ℕ} (hg : Goal id₀ p fromMsgID n) (hi : Inv id₀ p)
    (hdrop : ∀ keepIndex, a ≠ .drop keepIndex) (hstep : Step p a p') :
    Goal id₀ p' fromMsgID n := by
  have he := extends_of_step hi hstep
  refine ⟨hg.number, ?_, hg.le_length.trans he.appended.length_le,
    he.frames_take hg.le_length hg.committed⟩
  rw [stream_dropped_of_step hdrop hstep]
  exact hg.retained

end LogStep

/-! ## Steps of the reader -/

theorem startSegment_spec (fromMsgID : ℕ) {id off : ℕ} {sealed : List Segment} {active : Segment}
    (hlay : Layout id off (sealed ++ [active])) :
    startSegment fromMsgID active (sealed ++ [active]) ∈ sealed ++ [active] ∧
      (id ≤ fromMsgID →
        (startSegment fromMsgID active (sealed ++ [active])).baseMsgID ≤ fromMsgID) ∧
      (startSegment fromMsgID active (sealed ++ [active]) = active ∨
        fromMsgID < (startSegment fromMsgID active (sealed ++ [active])).baseMsgID
          + (startSegment fromMsgID active (sealed ++ [active])).records.length) := by
  induction sealed generalizing id off with
  | nil =>
    obtain ⟨hid, -⟩ := hlay
    exact ⟨mem_singleton_self _, fun hle => hid.trans_le hle, .inl rfl⟩
  | cons s sealed ih =>
    obtain ⟨hid, hoff, hclean, hrest⟩ := hlay
    obtain ⟨hmem, hle, hend⟩ := ih hrest
    obtain ⟨s', rest, hcons⟩ : ∃ s' rest, sealed ++ [active] = s' :: rest :=
      exists_cons_of_ne_nil (by simp)
    have hbase : s'.baseMsgID = id + s.records.length := by
      have hrest' : Layout (id + s.records.length) (off + s.f.data.length) (s' :: rest) :=
        hcons ▸ hrest
      exact hrest'.1
    rw [cons_append, hcons, startSegment]
    rw [hcons] at hmem hle hend
    split_ifs with hlt
    · exact ⟨mem_cons_self .., fun h => hid.trans_le h, .inr (by omega)⟩
    · exact ⟨mem_cons_of_mem _ hmem, fun h => hle (by omega), hend⟩

theorem append_singleton_prefix {α : Type} {l l' : List α} {x : α} (h : l <+: l')
    (hx : l'[l.length]? = some x) : l ++ [x] <+: l' := by
  obtain ⟨rest, rfl⟩ := h
  rw [getElem?_append_right le_rfl, Nat.sub_self] at hx
  obtain ⟨y, ys, rfl⟩ : ∃ y ys, rest = y :: ys :=
    exists_cons_of_ne_nil (by rintro rfl; simp at hx)
  obtain rfl : y = x := by simpa using hx
  exact ⟨ys, by simp⟩

variable {id₀ fromMsgID : ℕ} {p : Proc}

/-- The segment that `NewReader` chooses has not been dropped and begins at or below `fromMsgID`. It
ends above, or it is the active one. -/
theorem at_startSegment {s : Segment} (hi : Inv id₀ p) (hfloor : p.log.retainedFloor ≤ fromMsgID)
    (hs : s = startSegment fromMsgID p.log.active p.log.segments) :
    At id₀ p ⟨s.index, s.baseByteOffset, 0⟩ (s.baseMsgID - id₀)
        (s.baseMsgID - id₀ + s.records.length) ∧
      Retained p s.index ∧ id₀ + (s.baseMsgID - id₀) ≤ fromMsgID ∧
      (s = p.log.active ∨ fromMsgID < s.baseMsgID + s.records.length) := by
  have hlay := hi.shape.layout
  have hasc := hi.shape.ascending
  rw [Proc.all_eq_dropped_append] at hlay hasc
  obtain ⟨hmem, hle, hend⟩ := startSegment_spec fromMsgID (layout_append.mp hlay).2
  rw [← Log.segments, ← hs] at hmem hle hend
  have hhead := On.head hi.shape (s := s) (by
    rw [Proc.all_eq_dropped_append]
    exact mem_append_right _ hmem)
  have hnumber := hhead.number
  rw [length_nil, Nat.add_zero] at hnumber
  exact ⟨⟨s, [], _, hhead, rfl⟩, fun s' hs' => (pairwise_append.mp hasc).2.2 s' hs' s hmem,
    hnumber.trans_le (hle (hi.shape.retainedFloor_eq ▸ hfloor)), hend⟩

theorem scanOk_startSegment {goal : Option ℕ} (hi : Inv id₀ p)
    (hgoal : ∀ n ∈ goal, Goal id₀ p fromMsgID n) (hfloor : p.log.retainedFloor ≤ fromMsgID) :
    ScanOk id₀ goal p (.openStart
      (startSegment fromMsgID p.log.active p.log.segments).index
      (startSegment fromMsgID p.log.active p.log.segments).baseByteOffset) := by
  obtain ⟨s, hs⟩ : ∃ s, s = startSegment fromMsgID p.log.active p.log.segments := ⟨_, rfl⟩
  obtain ⟨hat, hretained, hbase, hend⟩ := at_startSegment hi hfloor hs
  rw [← hs]
  refine ⟨_, _, hat, fun s' hs' => (hretained s' hs').trans (Nat.lt_succ_self _), fun n hn => ?_⟩
  have hnumber := (hgoal n hn).number
  have hlen := (hgoal n hn).le_length
  refine ⟨by omega, ?_, hretained⟩
  rcases hend with hactive | hlt
  · have hid := hi.shape.active.1
    rw [hi.shape.appended_split, length_append, ← hactive] at hlen
    rw [← hactive] at hid
    omega
  · omega

section ReadStep

variable {id₀ n : ℕ} {goal : Option ℕ} {t t' : Reading}

theorem proc_of_read (hstep : t.read = some t') :
    t'.proc = t.proc ∧ t'.fromMsgID = t.fromMsgID ∧ t.out <+: t'.out := by
  unfold Reading.read at hstep
  repeat' split at hstep
  all_goals
    first
    | cases hstep; exact ⟨rfl, rfl, prefix_rfl⟩
    | cases hstep; exact ⟨rfl, rfl, prefix_append _ _⟩
    | cases hstep

/-- A step of `Next` keeps its invariant: it does not fail, and what it returns is the record at its
position. -/
theorem NextOk.of_read (hi : Inv id₀ t.proc) (hok : NextOk id₀ n t.proc t.out t.phase)
    (hstep : t.read = some t') : NextOk id₀ n t'.proc t'.out t'.phase := by
  obtain ⟨p, fromMsgID, phase, out⟩ := t
  dsimp only at hi hok
  cases phase with
  | idle =>
    cases hstep
    exact hok
  | loop =>
    obtain ⟨k, m, hat, hr, hret⟩ := hok
    obtain ⟨s, front, back, hon, -⟩ := id hat
    dsimp only [Reading.read] at hstep
    split_ifs at hstep with hfree hlt hactive
    · cases hstep
      exact ⟨k, m, hat, hr, hret, hat.lt_of_readable hi.shape hr hlt,
        (hon.of_lt_readableLen hi.shape hr hlt).2⟩
    · rcases readableLen_eq hon hi.shape hr with
        ⟨-, heq⟩ | ⟨next, hnext, hs, hafter, hlt', hid, heq⟩
      · rw [heq] at hactive
        exact absurd rfl hactive
      · rw [hafter] at hstep
        cases hstep
        rw [heq] at hlt
        -- The whole segment has been read, so the successor starts at the next record.
        obtain rfl := hon.of_readableLen_le_sealed (Nat.le_of_not_lt hlt)
        have hmem : next ∈ p.all := by
          rw [Proc.all_eq_dropped_append]
          exact mem_append_right _ hnext
        have hhead := On.head hi.shape hmem
        have hk : next.baseMsgID - id₀ = k := by
          have hnumber := hon.number
          rw [hid, hon.records_eq, append_nil]
          omega
        rw [hk] at hhead
        refine ⟨k, _, ⟨next, [], _, hhead, rfl⟩, hlt', fun s' hs' => ?_, hret⟩
        exact (Nat.le_of_lt_succ (hr s' hs')).trans_lt hlt'
  | decode =>
    obtain ⟨k, m, hat, hr, hret, hkm, hle⟩ := hok
    obtain ⟨s, front, r, back', hon, rfl⟩ := hat.before hkm
    simp only [Reading.read, hon.decodeAt hi.shape, Option.some.injEq] at hstep
    cases hstep
    refine ⟨k + 1, _, ⟨s, front ++ [r], back', hon.advance, rfl⟩, hr, ?_, ?_, fun _ => hle⟩
    · have hnumber := hret.number
      rw [length_append, length_singleton]
      omega
    · refine append_singleton_prefix hret.out_eq ?_
      rw [getElem?_drop, ← hret.number]
      exact hon.getElem hi.shape
  | openNext =>
    obtain ⟨k, m, hat, hlt, hr, hret⟩ := hok
    simp only [Reading.read, canOpen_of_at hat hr, if_true, Option.some.injEq] at hstep
    cases hstep
    exact ⟨k, m, hat, fun s hs => (hr s hs).trans (Nat.lt_succ_self _), hret⟩
  | _ => exact hok.elim

/-- `NewReader` returns with nothing read. -/
theorem NextOk.of_at {p : Proc} {h : Handle} {k m : ℕ} (hat : At id₀ p h k m)
    (hr : Retained p (h.index + 1)) : NextOk id₀ k p [] (.idle h) :=
  ⟨k, m, hat, hr, rfl, nil_prefix, fun hne => absurd rfl hne⟩

/-- A step of `NewReader` keeps its invariant, or `NewReader` returns: at the record it had to find,
if that is there. -/
theorem ScanOk.of_read (hi : Inv id₀ t.proc) (hgoal : ∀ n ∈ goal, Goal id₀ t.proc t.fromMsgID n)
    (hout : t.out = []) (hok : ScanOk id₀ goal t.proc t.phase) (hstep : t.read = some t') :
    (t'.out = [] ∧ ScanOk id₀ goal t'.proc t'.phase) ∨
      ∃ n, (∀ n' ∈ goal, n = n') ∧ NextOk id₀ n t'.proc t'.out t'.phase := by
  obtain ⟨p, fromMsgID, phase, out⟩ := t
  dsimp only at hi hgoal hout hok
  subst hout
  cases phase with
  | start =>
    dsimp only [Reading.read] at hstep
    split_ifs at hstep with hfree hfloor
    · cases hstep
      refine .inl ⟨rfl, eq_none_iff_forall_not_mem.mpr fun n hn => ?_⟩
      have := (hgoal n hn).number
      have := (hgoal n hn).retained
      have := hi.shape.retainedFloor_eq
      omega
    · cases hstep
      exact .inl ⟨rfl, scanOk_startSegment hi hgoal (Nat.le_of_not_lt hfloor)⟩
  | openStart =>
    obtain ⟨k, m, hat, hr, hbounds⟩ := hok
    dsimp only [Reading.read] at hstep
    split_ifs at hstep with hopen
    · cases hstep
      exact .inl ⟨rfl, k, m, hat, hr, fun n hn => ⟨(hbounds n hn).1, (hbounds n hn).2.1⟩⟩
    · cases hstep
      refine .inl ⟨rfl, eq_none_iff_forall_not_mem.mpr fun n hn => ?_⟩
      exact hopen (canOpen_of_at hat (hbounds n hn).2.2)
  | scan =>
    obtain ⟨k, m, hat, hr, hbounds⟩ := hok
    obtain ⟨s, front, back, hon, hm⟩ := id hat
    dsimp only [Reading.read] at hstep
    split_ifs at hstep with hfree hle
    · cases hstep
      refine .inr ⟨k, fun n hn => ?_, .of_at hat hr⟩
      obtain ⟨hkn, hnm⟩ := hbounds n hn
      rcases readableLen_eq hon hi.shape hr with ⟨-, heq⟩ | ⟨next, -, -, -, -, -, heq⟩
      · -- Everything committed has been scanned, and that includes all before the goal.
        rw [heq] at hle
        have hall := hon.of_readableLen_le_active hi.shape hle
        have hbefore := (hgoal n hn).committed
        have hlen := (hgoal n hn).le_length
        by_contra hne
        have := codec.length_frames_take_lt p.appended (i := k) (j := n) (by omega) (by omega)
        omega
      · rw [heq] at hle
        obtain rfl := hon.of_readableLen_le_sealed hle
        rw [length_nil] at hm
        omega
    · cases hstep
      exact .inl ⟨rfl, k, m, hat, hr, hat.lt_of_readable hi.shape hr (Nat.lt_of_not_le hle),
        hbounds⟩
  | scanDecode =>
    obtain ⟨k, m, hat, hr, hkm, hbounds⟩ := hok
    obtain ⟨s, front, r, back', hon, rfl⟩ := hat.before hkm
    simp only [Reading.read, hon.decodeAt hi.shape] at hstep
    have hid := hi.shape.numbered.msgID_eq (hon.getElem hi.shape)
    split_ifs at hstep with hfound
    · cases hstep
      refine .inr ⟨k, fun n hn => ?_, .of_at hat hr⟩
      have := (hgoal n hn).number
      have := (hbounds n hn).1
      omega
    · cases hstep
      refine .inl ⟨rfl, k + 1, _, ⟨s, front ++ [r], back', hon.advance, rfl⟩, hr, fun n hn => ?_⟩
      have := (hgoal n hn).number
      have := (hbounds n hn).2
      omega
  | refused => cases hstep
  | _ => exact hok.elim

end ReadStep

/-! ## Runs of a log with a reader -/

section Runs

variable {id₀ n : ℕ} {goal : Option ℕ} {t t' : Reading} {a : ReadAction}

/-- What `Spares` says about a step of the log. -/
theorem Spares.drop {a : Action} (h : Spares t (.log a)) :
    ∀ keepIndex, a = .drop keepIndex → ∀ i ∈ t.phase.held,
      ∀ s ∈ t.proc.log.dropped keepIndex, s.index ≤ i := by
  rintro keepIndex rfl
  exact h

theorem ReadAction.KeepsAll.spares (h : a.KeepsAll) : Spares t a := by
  cases a with
  | log a =>
    cases a with
    | drop => exact h.elim
    | _ => trivial
  | _ => trivial

/-- A cancelled call of `Next` changes nothing else. -/
theorem cancel_sound (hstep : t.step .cancel = some t') :
    ∃ h, t.phase = .loop h ∧ t' = { t with phase := .idle h } := by
  obtain ⟨p, fromMsgID, phase, out⟩ := t
  dsimp only [Reading.step] at hstep
  split at hstep
  · exact ⟨_, rfl, (Option.some.inj hstep).symm⟩
  · cases hstep

/-- No step changes what the reader was asked for. -/
theorem fromMsgID_of_step (hstep : t.step a = some t') : t'.fromMsgID = t.fromMsgID := by
  cases a with
  | log =>
    obtain ⟨p', -, rfl⟩ := map_eq_some_iff.mp hstep
    rfl
  | read => exact (proc_of_read hstep).2.1
  | cancel =>
    obtain ⟨h, -, rfl⟩ := cancel_sound hstep
    rfl

/-- The record to find stays where it is. -/
theorem goal_of_step (hi : Inv id₀ t.proc) (hkeep : goal ≠ none → a.KeepsAll)
    (hgoal : ∀ n ∈ goal, Goal id₀ t.proc t.fromMsgID n) (hstep : t.step a = some t') :
    ∀ n ∈ goal, Goal id₀ t'.proc t'.fromMsgID n := by
  intro n hn
  have hkeep' := hkeep (ne_none_iff_exists'.mpr ⟨n, hn⟩)
  cases a with
  | log =>
    obtain ⟨p', hp', rfl⟩ := map_eq_some_iff.mp hstep
    refine (hgoal n hn).of_log hi ?_ (step_sound hp')
    rintro keepIndex rfl
    exact hkeep'
  | read =>
    obtain ⟨hproc, hfrom, -⟩ := proc_of_read hstep
    rw [hproc, hfrom]
    exact hgoal n hn
  | cancel =>
    obtain ⟨h, -, rfl⟩ := cancel_sound hstep
    exact hgoal n hn

theorem NextOk.of_step (hi : Inv id₀ t.proc) (ha : a.Intact) (hspare : Spares t a)
    (hok : NextOk id₀ n t.proc t.out t.phase) (hstep : t.step a = some t') :
    Inv id₀ t'.proc ∧ NextOk id₀ n t'.proc t'.out t'.phase := by
  cases a with
  | log =>
    obtain ⟨p', hp', rfl⟩ := map_eq_some_iff.mp hstep
    have hstep' := step_sound hp'
    exact ⟨inv_of_step ha hi hstep', hok.of_log hi ha hstep' hspare.drop⟩
  | read => exact ⟨(proc_of_read hstep).1.symm ▸ hi, hok.of_read hi hstep⟩
  | cancel =>
    obtain ⟨h, hphase, rfl⟩ := cancel_sound hstep
    rw [hphase] at hok
    exact ⟨hi, hok⟩

/-- Every step keeps the invariant of a log with a reader. -/
theorem ReadOk.of_step (ha : a.Intact) (hspare : Spares t a) (hkeep : goal ≠ none → a.KeepsAll)
    (hok : ReadOk id₀ goal t) (hstep : t.step a = some t') : ReadOk id₀ goal t' := by
  have hgoal := goal_of_step hok.inv hkeep hok.goal_ok hstep
  rcases hok.phase with ⟨hout, hscan⟩ | ⟨n, hn, hnext⟩
  · cases a with
    | log a =>
      obtain ⟨p', hp', rfl⟩ := map_eq_some_iff.mp hstep
      have hstep' := step_sound hp'
      have hdrop : goal ≠ none → ∀ keepIndex, a ≠ .drop keepIndex := by
        rintro hne keepIndex rfl
        exact hkeep hne
      exact ⟨inv_of_step ha hok.inv hstep', hgoal,
        .inl ⟨hout, hscan.of_log hok.inv ha hstep' hspare.drop hdrop⟩⟩
    | read =>
      exact ⟨(proc_of_read hstep).1.symm ▸ hok.inv, hgoal,
        hscan.of_read hok.inv hok.goal_ok hout hstep⟩
    | cancel =>
      obtain ⟨h, hphase, rfl⟩ := cancel_sound hstep
      rw [hphase] at hscan
      exact hscan.elim
  · obtain ⟨hi', hnext'⟩ := hnext.of_step hok.inv ha hspare hstep
    exact ⟨hi', hgoal, .inr ⟨n, hn, hnext'⟩⟩

/-- The invariant holds when `NewReader` is called. -/
theorem readOk_start {p : Proc} {fromMsgID : ℕ} (hi : Inv id₀ p)
    (hgoal : ∀ n ∈ goal, Goal id₀ p fromMsgID n) :
    ReadOk id₀ goal ⟨p, fromMsgID, .start, []⟩ :=
  ⟨hi, hgoal, .inl ⟨rfl, trivial⟩⟩

end Runs

end ToyMQ.Wal
