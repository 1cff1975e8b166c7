import ToyMQ.Wal.Reader

/-!
# A reader is exact when nothing is dropped

`reader_exact` is the contract of `NewReader` and `Next` for a log without retention: `Next` returns
exactly the records from the requested id on, each one only when it is committed. It includes that
the reader gets on: the loop of `NewReader` ends (`reads_scan`), and a call of `Next` returns the
next record when that is committed and the mutex is free (`NextOk.progress`).
-/

namespace ToyMQ.Wal

open Lib List

/-! ## The record to find -/

def Proc.firstUncommitted (p : Proc) : ℕ :=
  match p.appended.drop (codec.whole p.log.committed p.appended) with
  | [] => p.log.nextMsgID
  | rec :: _ => rec.msgID.toNat

variable {id₀ n : ℕ} {p : Proc}

theorem Shape.firstUncommitted_eq (h : Shape id₀ p) :
    p.firstUncommitted = id₀ + codec.whole p.log.committed p.appended := by
  have hle := codec.whole_le_length p.log.committed p.appended
  unfold Proc.firstUncommitted
  split
  · next hnil =>
    have hlen := drop_eq_nil_iff.mp hnil
    rw [h.next_eq]
    omega
  · next rec rest hcons =>
    refine h.numbered.msgID_eq ?_
    rw [← head?_drop, hcons]
    rfl

theorem goal_of_range {fromMsgID : ℕ} (h : Shape id₀ p) (hlow : p.log.retainedFloor ≤ fromMsgID)
    (hhigh : fromMsgID ≤ p.firstUncommitted) : Goal id₀ p fromMsgID (fromMsgID - id₀) := by
  rw [h.retainedFloor_eq] at hlow
  rw [h.firstUncommitted_eq] at hhigh
  have hle := codec.whole_le_length p.log.committed p.appended
  have hmono := codec.length_frames_take_mono p.appended
    (show fromMsgID - id₀ ≤ codec.whole p.log.committed p.appended by omega)
  exact ⟨by omega, by omega, by omega,
    hmono.trans (codec.length_frames_take_whole_le p.log.committed p.appended)⟩

/-- The records from an id on, in a numbered list. -/
theorem Numbered.filter_le {id : ℕ} {rs : List Record} (h : Numbered id rs) :
    rs.filter (fun r => id + n ≤ r.msgID.toNat) = rs.drop n := by
  have hsplit : Numbered id (rs.take n ++ rs.drop n) := by rwa [take_append_drop]
  obtain ⟨hfront, hback⟩ := numbered_append.mp hsplit
  have hnone : (rs.take n).filter (fun r => id + n ≤ r.msgID.toNat) = [] := by
    refine filter_eq_nil_iff.mpr fun r hr => ?_
    have hlt := (hfront.bounds hr).2
    have hlen := length_take_le n rs
    simp only [decide_eq_true_eq]
    omega
  have hall : (rs.drop n).filter (fun r => id + n ≤ r.msgID.toNat) = rs.drop n := by
    refine filter_eq_self.mpr fun r hr => ?_
    have hle := (hback.bounds hr).1
    have hpos := length_pos_of_mem hr
    rw [length_drop] at hpos
    rw [length_take] at hle
    simp only [decide_eq_true_eq]
    omega
  conv_lhs => rw [← take_append_drop n rs]
  rw [filter_append, hnone, hall, nil_append]

/-! ## A waiting reader gets its record -/

/-- The reader gets from one state to the other by its own steps. -/
def Reads (t t' : Reading) : Prop := ∃ as, Run Reading.step (fun _ a => a = .read) t as t'

theorem Reads.refl (t : Reading) : Reads t t := ⟨[], .nil t⟩

variable {t t' t'' : Reading} {k : ℕ} {out : List Record}

theorem Reads.cons (hstep : t.read = some t') (h : Reads t' t'') : Reads t t'' := by
  obtain ⟨as, hrun⟩ := h
  exact ⟨.read :: as, .cons rfl hstep hrun⟩

theorem Reads.trans (h : Reads t t') (h' : Reads t' t'') : Reads t t'' := by
  obtain ⟨as, hrun⟩ := h
  obtain ⟨as', hrun'⟩ := h'
  exact ⟨as ++ as', hrun.trans hrun'⟩

section Progress

variable {id₀ n k m fromMsgID : ℕ} {p : Proc} {h : Handle} {s : Segment}
  {front back out : List Record}

theorem reads_loop {r : Record} (hi : Inv id₀ p) (hfree : p.holder = .free)
    (hon : On id₀ p h k s front (r :: back)) (hr : Retained p (h.index + 1))
    (hle : (codec.frames (p.appended.take (k + 1))).length ≤ p.log.committed) :
    Reads ⟨p, fromMsgID, .loop h, out⟩
      ⟨p, fromMsgID, .idle (h.advance (codec.frame r).length), out ++ [r]⟩ := by
  have hlt : h.localPos < (p.log.readableLen h.index h.baseByteOffset).1 := by
    rcases readableLen_eq hon hi.shape hr with ⟨-, heq⟩ | ⟨next, -, -, -, -, -, heq⟩
    · obtain ⟨pre, post, -, -, -, hpos⟩ := hon.split hi.shape
      have hk : k < p.appended.length :=
        (List.getElem?_eq_some_iff.mp (hon.getElem hi.shape)).1
      have := codec.length_frames_take_lt p.appended (Nat.lt_add_one k) hk
      rw [heq]
      omega
    · have hpos := codec.length_frame_pos r
      rw [heq, hon.records_eq, hon.pos_eq]
      simp only [codec.frames_append, codec.frames_cons, length_append]
      omega
  have hcheck : (⟨p, fromMsgID, .loop h, out⟩ : Reading).read
      = some ⟨p, fromMsgID, .decode h, out⟩ := by
    simp only [Reading.read, hfree, ne_eq, not_true_eq_false, if_false, hlt, if_true]
  refine .cons hcheck (.cons ?_ (.refl _))
  simp only [Reading.read, hon.decodeAt hi.shape]

theorem reads_openNext (hi : Inv id₀ p) (hfree : p.holder = .free)
    (hon : On id₀ p h k s front []) (hr : Retained p (h.index + 1))
    (hk : k < p.appended.length) :
    ∃ h' s' r back', Reads ⟨p, fromMsgID, .loop h, out⟩ ⟨p, fromMsgID, .loop h', out⟩ ∧
      On id₀ p h' k s' [] (r :: back') ∧ Retained p (h'.index + 1) := by
  rcases readableLen_eq hon hi.shape hr with ⟨rfl, -⟩ | ⟨next, hnext, hs, hafter, hlt, hid, heq⟩
  · -- The active segment ends the stream.
    have hlen := hi.shape.appended_split ▸ hk
    have := hon.number
    have := hi.shape.active.1
    rw [length_append, hon.records_eq, append_nil] at hlen
    omega
  · have hmem : next ∈ p.all := by
      rw [Proc.all_eq_dropped_append]
      exact mem_append_right _ hnext
    have hhead := On.head hi.shape hmem
    have hnumber := hon.number
    rw [show next.baseMsgID - id₀ = k by rw [hid, hon.records_eq, append_nil]; omega] at hhead
    have hretained : Retained p next.index := fun s' hs' =>
      (Nat.le_of_lt_succ (hr s' hs')).trans_lt hlt
    -- A sealed segment is not empty; an empty active one would end the stream here.
    have hne : next.records ≠ [] := by
      intro hnil
      rcases mem_append.mp hmem with holder | hactive
      · exact hi.shape.nonempty next holder hnil
      · obtain rfl := mem_singleton.mp hactive
        rw [hi.shape.appended_split, length_append, hnil, length_nil] at hk
        have := hi.shape.active.1
        have := hhead.number
        rw [length_nil] at this
        omega
    obtain ⟨r, back', hcons⟩ := exists_cons_of_ne_nil hne
    rw [hcons] at hhead
    refine ⟨_, next, r, back', ?_, hhead,
      fun s' hs' => (hretained s' hs').trans (Nat.lt_succ_self _)⟩
    have hfull : ¬ h.localPos < (codec.frames s.records).length := by
      rw [hon.records_eq, hon.pos_eq, append_nil]
      exact lt_irrefl _
    have hcheck : (⟨p, fromMsgID, .loop h, out⟩ : Reading).read
        = some ⟨p, fromMsgID, .openNext h next.index next.baseByteOffset, out⟩ := by
      simp [Reading.read, hfree, heq, hfull, hafter]
    refine .cons hcheck (.cons ?_ (.refl _))
    simp [Reading.read, canOpen_of_mem hnext]

variable {t : Reading}

theorem NextOk.progress (hi : Inv id₀ t.proc) (hfree : t.proc.holder = .free)
    (hok : NextOk id₀ n t.proc t.out t.phase) (hlen : n + t.out.length < t.proc.appended.length)
    (hle : (codec.frames (t.proc.appended.take (n + t.out.length + 1))).length
      ≤ t.proc.log.committed) : ∃ t' r, Reads t t' ∧ t'.out = t.out ++ [r] := by
  obtain ⟨p, fromMsgID, phase, out⟩ := t
  -- From the head of the loop: decode, or open the successor first.
  have hloop : ∀ h : Handle, NextOk id₀ n p out (.loop h) →
      ∃ t' r, Reads ⟨p, fromMsgID, .loop h, out⟩ t' ∧ t'.out = out ++ [r] := by
    rintro h ⟨k, m, ⟨s, front, back, hon, -⟩, hr, hret⟩
    rw [← hret.number] at hlen hle
    cases back with
    | nil =>
      obtain ⟨h', s', r, back', hreads, hon', hr'⟩ := reads_openNext hi hfree hon hr hlen
      exact ⟨_, r, hreads.trans (reads_loop hi hfree hon' hr' hle), rfl⟩
    | cons r => exact ⟨_, r, reads_loop hi hfree hon hr hle, rfl⟩
  cases phase with
  | idle h =>
    obtain ⟨t', r, hreads, hout⟩ := hloop h hok
    exact ⟨t', r, .cons rfl hreads, hout⟩
  | loop h => exact hloop h hok
  | decode h =>
    obtain ⟨k, m, hat, -, -, hkm, -⟩ := hok
    obtain ⟨s, front, r, back', hon, -⟩ := hat.before hkm
    refine ⟨⟨p, fromMsgID, .idle (h.advance (codec.frame r).length), out ++ [r]⟩, r,
      .cons ?_ (.refl _), rfl⟩
    simp only [Reading.read, hon.decodeAt hi.shape]
  | openNext h index base =>
    obtain ⟨k, m, hat, hlt, hr, hret⟩ := hok
    have hopen : (⟨p, fromMsgID, .openNext h index base, out⟩ : Reading).read
        = some ⟨p, fromMsgID, .loop ⟨index, base, 0⟩, out⟩ := by
      simp [Reading.read, canOpen_of_at hat hr]
    obtain ⟨t', r, hreads, hout⟩ := hloop _
      ⟨k, m, hat, fun s' hs' => (hr s' hs').trans (Nat.lt_succ_self _), hret⟩
    exact ⟨t', r, .cons hopen hreads, hout⟩
  | _ => exact hok.elim

/-- The loop of `NewReader` ends: at each turn fewer records of the segment are left. -/
theorem reads_scan (hi : Inv id₀ p) (hfree : p.holder = .free) (hat : At id₀ p h k m)
    (hr : Retained p (h.index + 1)) :
    ∃ h', Reads ⟨p, fromMsgID, .scan h, out⟩ ⟨p, fromMsgID, .idle h', out⟩ := by
  obtain ⟨s, front, back, hon, -⟩ := hat
  induction back generalizing h k front with
  | nil =>
    refine ⟨h, .cons ?_ (.refl _)⟩
    have hle : (p.log.readableLen h.index h.baseByteOffset).1 ≤ h.localPos :=
      Nat.le_of_not_lt fun hlt => (hon.of_lt_readableLen hi.shape hr hlt).1 rfl
    simp [Reading.read, hfree, hle]
  | cons r back ih =>
    by_cases hle : (p.log.readableLen h.index h.baseByteOffset).1 ≤ h.localPos
    · exact ⟨h, .cons (by simp [Reading.read, hfree, hle]) (.refl _)⟩
    have hscan : (⟨p, fromMsgID, .scan h, out⟩ : Reading).read
        = some ⟨p, fromMsgID, .scanDecode h, out⟩ := by
      simp [Reading.read, hfree, hle]
    by_cases hfound : fromMsgID ≤ r.msgID.toNat
    · refine ⟨h, .cons hscan (.cons ?_ (.refl _))⟩
      simp [Reading.read, hon.decodeAt hi.shape, hfound]
    · obtain ⟨h', hreads⟩ := ih (h := h.advance _) hr (front ++ [r]) hon.advance
      refine ⟨h', .cons hscan (.cons ?_ hreads)⟩
      simp [Reading.read, hon.decodeAt hi.shape, hfound]

theorem reads_scanDecode (hi : Inv id₀ p) (hfree : p.holder = .free) (hat : At id₀ p h k m)
    (hkm : k < m) (hr : Retained p (h.index + 1)) :
    ∃ h', Reads ⟨p, fromMsgID, .scanDecode h, out⟩ ⟨p, fromMsgID, .idle h', out⟩ := by
  obtain ⟨s, front, r, back, hon, -⟩ := hat.before hkm
  by_cases hfound : fromMsgID ≤ r.msgID.toNat
  · exact ⟨h, .cons (by simp [Reading.read, hon.decodeAt hi.shape, hfound]) (.refl _)⟩
  · obtain ⟨h', hreads⟩ := reads_scan hi hfree ⟨s, _, back, hon.advance, rfl⟩ hr
    exact ⟨h', .cons (by simp [Reading.read, hon.decodeAt hi.shape, hfound]) hreads⟩

theorem reads_openStart {index base : ℕ} (hi : Inv id₀ p) (hfree : p.holder = .free)
    (hat : At id₀ p ⟨index, base, 0⟩ k m) (hr : Retained p index) :
    ∃ h, Reads ⟨p, fromMsgID, .openStart index base, out⟩ ⟨p, fromMsgID, .idle h, out⟩ := by
  obtain ⟨h, hreads⟩ := reads_scan (h := ⟨index, base, 0⟩) hi hfree hat
    fun s hs => (hr s hs).trans (Nat.lt_succ_self _)
  exact ⟨h, .cons (by simp [Reading.read, canOpen_of_at hat hr]) hreads⟩

theorem reads_start (hi : Inv id₀ p) (hfree : p.holder = .free)
    (hfloor : p.log.retainedFloor ≤ fromMsgID) :
    ∃ h, Reads ⟨p, fromMsgID, .start, out⟩ ⟨p, fromMsgID, .idle h, out⟩ := by
  obtain ⟨hat, hr, -⟩ := at_startSegment hi hfloor rfl
  obtain ⟨h, hreads⟩ := reads_openStart hi hfree hat hr
  exact ⟨h, .cons (by simp [Reading.read, hfree, Nat.not_lt.mpr hfloor]) hreads⟩

/-- A call of `NewReader` returns when the mutex is free and the record to find is there. -/
theorem ReadOk.reads_idle (hok : ReadOk id₀ (some n) t) (hfree : t.proc.holder = .free)
    (hscan : ScanOk id₀ (some n) t.proc t.phase) : ∃ h, Reads t { t with phase := .idle h } := by
  have hi := hok.inv
  have hgoal := hok.goal_ok n rfl
  obtain ⟨p, fromMsgID, phase, out⟩ := t
  dsimp only at hi hgoal hfree hscan ⊢
  cases phase with
  | start =>
    refine reads_start hi hfree ?_
    rw [hi.shape.retainedFloor_eq, hgoal.number]
    exact Nat.add_le_add_left hgoal.retained _
  | openStart =>
    obtain ⟨k, m, hat, -, hbounds⟩ := hscan
    exact reads_openStart hi hfree hat (hbounds n rfl).2.2
  | scan =>
    obtain ⟨k, m, hat, hr, -⟩ := hscan
    exact reads_scan hi hfree hat hr
  | scanDecode =>
    obtain ⟨k, m, hat, hr, hkm, -⟩ := hscan
    exact reads_scanDecode hi hfree hat hkm hr
  | refused => cases hscan
  | _ => exact hscan.elim

end Progress

/-! ## Exactness -/

theorem Returned.located (h : Returned p n k out) {r : Record} (hr : r ∈ out) :
    ∃ stop, Located p.appended (r, stop) ∧ stop ≤ p.log.committed := by
  obtain ⟨front, back, rfl⟩ := append_of_mem hr
  obtain ⟨rest, hrest⟩ := h.out_eq
  have hlen : n ≤ p.appended.length := by
    by_contra hnot
    rw [drop_eq_nil_of_le (Nat.le_of_not_le hnot)] at hrest
    simp at hrest
  have hsplit : p.appended = (p.appended.take n ++ front) ++ r :: (back ++ rest) := by
    conv_lhs => rw [← take_append_drop n p.appended, ← hrest]
    simp
  refine ⟨(codec.frames (p.appended.take n ++ front ++ [r])).length, ⟨_, _, hsplit, rfl⟩,
    le_trans ?_ (h.committed (by simp))⟩
  -- The frames up to the record are part of those up to position `k`.
  have htake : p.appended.take (n + front.length + 1) = p.appended.take n ++ front ++ [r] := by
    conv_lhs => rw [hsplit, ← singleton_append, ← append_assoc]
    exact take_left' (by simp [hlen, Nat.add_assoc])
  have hnumber := h.number
  rw [length_append, length_cons] at hnumber
  rw [← htake]
  exact codec.length_frames_take_mono _ (by omega)

/-- The invariant goes along the reader's own steps. -/
theorem ReadOk.of_reads {goal : Option ℕ} (hok : ReadOk id₀ goal t) (hreads : Reads t t') :
    ReadOk id₀ goal t' := by
  obtain ⟨as, hrun⟩ := hreads
  refine hrun.invariant hok fun t a t' ha hok hstep => ?_
  subst ha
  exact hok.of_step (a := .read) trivial trivial (fun _ => trivial) hstep

theorem ReadOk.progress (hok : ReadOk id₀ (some n) t) (hfree : t.proc.holder = .free)
    (hlt : n + t.out.length < codec.whole t.proc.log.committed t.proc.appended) :
    ∃ t' r, Reads t t' ∧ t'.out = t.out ++ [r] := by
  have hlen := codec.whole_le_length t.proc.log.committed t.proc.appended
  have hle := (codec.length_frames_take_mono t.proc.appended hlt).trans
    (codec.length_frames_take_whole_le t.proc.log.committed t.proc.appended)
  rcases hok.phase with ⟨-, hscan⟩ | ⟨n', hn', hnext⟩
  · obtain ⟨h, hreads⟩ := hok.reads_idle hfree hscan
    rcases (hok.of_reads hreads).phase with ⟨-, hscan'⟩ | ⟨n', hn', hnext⟩
    · exact hscan'.elim
    · obtain rfl := hn' n rfl
      obtain ⟨t', r, hreads', hout⟩ := NextOk.progress (t := { t with phase := .idle h }) hok.inv
        hfree hnext (hlt.trans_le hlen) hle
      exact ⟨t', r, hreads.trans hreads', hout⟩
  · obtain rfl := hn' n rfl
    exact NextOk.progress hok.inv hfree hnext (hlt.trans_le hlen) hle

theorem NextOk.returned {phase : Phase} (hok : NextOk id₀ n p out phase) :
    ∃ k, Returned p n k out := by
  cases phase with
  | idle | loop =>
    obtain ⟨k, -, -, -, hret⟩ := hok
    exact ⟨k, hret⟩
  | decode =>
    obtain ⟨k, -, -, -, hret, -⟩ := hok
    exact ⟨k, hret⟩
  | openNext =>
    obtain ⟨k, -, -, -, -, hret⟩ := hok
    exact ⟨k, hret⟩
  | _ => exact hok.elim

theorem Returned.numbered (h : Returned p n k out) (hsh : Shape id₀ p)
    (hle : n ≤ p.appended.length) : Numbered (id₀ + n) out := by
  obtain ⟨rest, hrest⟩ := h.out_eq
  have hnum := hsh.numbered
  rw [← take_append_drop n p.appended, ← hrest, numbered_append, numbered_append,
    length_take, min_eq_left hle] at hnum
  exact hnum.2.1

/-- A reader is exact when nothing is dropped. Take any state that a log has `Reached` (by whole
writes, successful removals, names of six digits and crashes that keep the sealed files) and any
`fromMsgID` from the retained floor up to the first uncommitted record, and let `NewReader` and
calls of `Next` run with appends, rotations and flushes in any order, all with whole writes. Then
neither reports an error; the records returned are those with the ids `fromMsgID`, `fromMsgID + 1`
and so on, as they were appended; each ends at or below `committed`; and whenever the next one is
committed and the mutex is free, the reader's own steps return it. -/
theorem reader_exact {p₀ : Proc} {fromMsgID : ℕ} {as : List ReadAction} {t : Reading}
    (hlog : Reached p₀) (hlow : p₀.log.retainedFloor ≤ fromMsgID)
    (hhigh : fromMsgID ≤ p₀.firstUncommitted)
    (hrun : Run Reading.step (fun _ a => a.Intact ∧ a.KeepsAll) ⟨p₀, fromMsgID, .start, []⟩ as t) :
    (∀ e, t.phase ≠ .refused e ∧ t.phase ≠ .failed e) ∧
    t.out <+: t.proc.appended.filter (fun r => fromMsgID ≤ r.msgID.toNat) ∧
    Numbered fromMsgID t.out ∧
    (∀ r ∈ t.out, ∃ stop, Located t.proc.appended (r, stop) ∧ stop ≤ t.proc.log.committed) ∧
    (t.proc.holder = .free → fromMsgID + t.out.length < t.proc.firstUncommitted →
      ∃ t' r, Reads t t' ∧ t'.out = t.out ++ [r]) := by
  obtain ⟨id₀, hi₀, -⟩ := hlog.inv
  -- The reader has to find record number `n` of the stream, which starts at id `id₀`.
  obtain ⟨n, hn⟩ : ∃ n, n = fromMsgID - id₀ := ⟨_, rfl⟩
  have hstart : ReadOk id₀ (some n) ⟨p₀, fromMsgID, .start, []⟩ :=
    readOk_start hi₀ fun n' hn' => by
      rw [← Option.mem_some.mp hn', hn]
      exact goal_of_range hi₀.shape hlow hhigh
  have hok : ReadOk id₀ (some n) t := hrun.invariant hstart fun _ _ _ ha hok hstep =>
    hok.of_step ha.1 ha.2.spares (fun _ => ha.2) hstep
  have hfrom : fromMsgID = id₀ + n := (hstart.goal_ok n rfl).number
  have hgoal := hok.goal_ok n rfl
  have hprogress : t.proc.holder = .free → fromMsgID + t.out.length < t.proc.firstUncommitted →
      ∃ t' r, Reads t t' ∧ t'.out = t.out ++ [r] := by
    intro hfree hlt
    rw [hok.inv.shape.firstUncommitted_eq, hfrom] at hlt
    exact hok.progress hfree (by omega)
  rcases hok.phase with ⟨hout, hscan⟩ | ⟨n', hn', hnext⟩
  · rw [hout] at hprogress ⊢
    refine ⟨fun e => ⟨?_, ?_⟩, nil_prefix, trivial, by simp, hprogress⟩
    · intro hphase
      rw [hphase] at hscan
      cases hscan
    · intro hphase
      rw [hphase] at hscan
      exact hscan
  · obtain rfl := hn' n rfl
    obtain ⟨k, hret⟩ := hnext.returned
    refine ⟨fun e => ⟨?_, ?_⟩, ?_, hfrom ▸ hret.numbered hok.inv.shape hgoal.le_length,
      fun r hr => hret.located hr, hprogress⟩
    · intro hphase
      rw [hphase] at hnext
      exact hnext
    · intro hphase
      rw [hphase] at hnext
      exact hnext
    · rw [hfrom, hok.inv.shape.numbered.filter_le]
      exact hret.out_eq

/-- Three appends with a segment cap of one byte; the third is not committed when `NewReader` is
called. -/
def appendRun : List Action :=
  [.append emptyMessage, .write none, .fsync true, .append emptyMessage, .rotateCreate true,
    .write none, .fsync true, .append emptyMessage, .rotateCreate true, .write none]

/-- `NewReader` runs while the third append is committed, and `Next` rolls over to its segment. -/
def readRun : List ReadAction :=
  [.log (.fsync true), .read, .read, .read, .log (.append emptyMessage), .log (.rotateCreate true),
    .log (.write none), .log (.fsync true), .read, .read, .read, .read, .read, .read, .read, .read,
    .read]

/-- The theorem at a reader that starts at id 1 and has returned the records 1 and 2. -/
theorem reader_exact_readRun :
    ∃ p₀ t, Reached p₀ ∧
      exec Reading.step (fun _ a => a.Intact ∧ a.KeepsAll) ⟨p₀, 1, .start, []⟩ readRun = some t ∧
      t.out.map (fun r => r.msgID.toNat) = [1, 2] ∧
      (∀ e, t.phase ≠ .refused e ∧ t.phase ≠ .failed e) ∧
      t.out <+: t.proc.appended.filter (fun r => 1 ≤ r.msgID.toNat) ∧
      Numbered 1 t.out ∧
      (∀ r ∈ t.out, ∃ stop, Located t.proc.appended (r, stop) ∧ stop ≤ t.proc.log.committed) ∧
      (t.proc.holder = .free → 1 + t.out.length < t.proc.firstUncommitted →
        ∃ t' r, Reads t t' ∧ t'.out = t.out ++ [r]) := by
  obtain ⟨p₀, hp₀, hlow, hhigh, t, ht, hout⟩ :
      ∃ p₀, Run Wal.step (fun p a => a.Intact ∧ a ≠ .remove false ∧ NameFits p a)
          (.empty .perMessage 1) appendRun p₀ ∧
        p₀.log.retainedFloor ≤ 1 ∧ 1 ≤ p₀.firstUncommitted ∧
        ∃ t, exec Reading.step (fun _ a => a.Intact ∧ a.KeepsAll) ⟨p₀, 1, .start, []⟩
            readRun = some t ∧
          t.out.map (fun r => r.msgID.toNat) = [1, 2] := by
    decide +kernel
  have hlog := (Reached.opened (openLog_nil .perMessage 1)).run hp₀
  exact ⟨p₀, t, hlog, ht, hout, reader_exact hlog hlow hhigh (run_of_exec ht)⟩

/-- A write stops after one byte and the next one succeeds, with a reader from id 0 behind them. -/
def tornRun : List ReadAction :=
  [.log (.append emptyMessage), .log (.write (some 1)), .log (.append emptyMessage),
    .log (.write none), .log (.fsync true), .read, .read, .read, .read]

/-- What retention leaves of a log with one record in each segment that has come to the first name
of seven digits. -/
def staleDir : Dir :=
  [(segmentName 999999, ⟨codec.frame { emptyMessage with msgID := 999999 }, 38⟩),
    (segmentName 1000000,
      ⟨codec.frame { emptyMessage with msgID := 1000000, payload := [97] }, 39⟩)]

/-- An append to the log that was opened there, with a reader from its last record on. -/
def staleRun : List ReadAction :=
  [.log (.append { emptyMessage with payload := [98] }), .log (.rotateCreate true),
    .log (.write none), .log (.fsync true)] ++ List.replicate 12 .read

/-- Both conditions of `reader_exact` are needed. Behind a torn write `NewReader` meets bytes that
are no frame. And `Open` passes over a file whose name has seven digits, the next segment is written
behind what that file holds, and the reader returns the record of the earlier life. -/
theorem reader_inexact :
    (∃ p₀ t, Reached p₀ ∧
      Run Reading.step (fun _ a => a.KeepsAll) ⟨p₀, 0, .start, []⟩ tornRun t ∧
      t.proc.acked.length = 1 ∧ t.phase = .refused (.decode .shortRead)) ∧
    ∃ p₀ t, openLog .perMessage 1 staleDir = .ok p₀ ∧
      p₀.log.retainedFloor ≤ 999999 ∧ 999999 ≤ p₀.firstUncommitted ∧
      Run Reading.step (fun _ a => a.Intact ∧ a.KeepsAll) ⟨p₀, 999999, .start, []⟩ staleRun t ∧
      t.out.map (fun r => (r.msgID, r.payload)) = [(999999, []), (1000000, [97])] ∧
      t.proc.appended.map (fun r => (r.msgID, r.payload)) = [(999999, []), (1000000, [98])] := by
  constructor
  · obtain ⟨t, ht⟩ : ∃ t, Run Reading.step (fun _ a => a.KeepsAll)
        ⟨.empty .perMessage 1, 0, .start, []⟩ tornRun t ∧
        t.proc.acked.length = 1 ∧ t.phase = .refused (.decode .shortRead) := by
      decide +kernel
    exact ⟨_, t, .opened (openLog_nil .perMessage 1), ht⟩
  · obtain ⟨p₀, hp₀, hlow, hhigh, t, ht⟩ : ∃ p₀, openLog .perMessage 1 staleDir = .ok p₀ ∧
        p₀.log.retainedFloor ≤ 999999 ∧ 999999 ≤ p₀.firstUncommitted ∧
        ∃ t, Run Reading.step (fun _ a => a.Intact ∧ a.KeepsAll) ⟨p₀, 999999, .start, []⟩
            staleRun t ∧
          t.out.map (fun r => (r.msgID, r.payload)) = [(999999, []), (1000000, [97])] ∧
          t.proc.appended.map (fun r => (r.msgID, r.payload)) =
            [(999999, []), (1000000, [98])] := by
      decide +kernel
    exact ⟨p₀, t, hp₀, hlow, hhigh, ht⟩

end ToyMQ.Wal
