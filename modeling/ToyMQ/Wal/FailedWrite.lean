import ToyMQ.Wal.ReaderExact
import ToyMQ.Wal.Torn

/-!
# Acknowledged records after a torn write

A write that fails may leave part of a frame behind, and the log goes on. `acked_lost` is what comes
of it: the next append is written behind those bytes, synced and acknowledged, and neither a reader
nor `Open` finds it again.

`acked_survive` says when a torn write does no harm: nothing is written behind it in the same life,
and the segment it is in is not sealed. A reader then reads as if the torn bytes were not there
(`read_whole`), and every acknowledged record from its start on is returned (`Follows.returns`). The
next `Open` cuts the torn bytes off and visits every acknowledged record.
-/

namespace ToyMQ.Wal

open Lib List

/-! ## What a reader sees of a torn log -/

/-- A log with a reader, without the bytes that nobody accounts for. -/
def Reading.whole (t : Reading) : Reading := { t with proc := t.proc.whole }

/-- A descriptor reads the bytes that are accounted for, and then perhaps those that are not. -/
theorem content_whole (p : Proc) (i : ℕ) :
    ∃ rest, p.content i = p.whole.content i ++ rest ∧
      (rest = [] ∨ rest = p.log.active.f.data.drop p.counted) := by
  have hall : ∀ q : Proc, (q.all.find? fun s => s.index == i)
      = (q.older.find? fun s => s.index == i).or
        (if q.log.active.index == i then some q.log.active else none) := fun q => by
    rw [Proc.all, find?_append, find?_singleton]
  have holder : p.whole.older = p.older := rfl
  unfold Proc.content
  rw [hall p, hall p.whole, holder]
  cases p.older.find? fun s => s.index == i with
  | some => exact ⟨[], (append_nil _).symm, .inl rfl⟩
  | none =>
    rw [Option.none_or, Option.none_or, show p.whole.log.active.index = p.log.active.index from rfl]
    split_ifs
    · exact ⟨_, (take_append_drop p.counted p.log.active.f.data).symm, .inr rfl⟩
    · exact ⟨[], rfl, .inl rfl⟩

variable {id₀ : ℕ} {p : Proc}

theorem On.decodeAt_torn {k : ℕ} {h : Handle} {s : Segment} {front back : List Record} {r : Record}
    (hon : On id₀ p.whole h k s front (r :: back)) (hsh : Shape id₀ p.whole) :
    p.decodeAt h = .ok (r, (codec.frame r).length) := by
  have hfit : codec.Fits r :=
    (hsh.layout.clean s hon.mem).fits r (by rw [hon.records_eq]; simp)
  obtain ⟨rest, hrest, -⟩ := content_whole p h.index
  rw [Proc.decodeAt, hrest, hon.content_eq hsh, hon.pos_eq, append_assoc, drop_left,
    codec.frames_cons, append_assoc]
  exact codec.decode_frame r _ hfit

/-- Which segment follows does not depend on the torn bytes, nor does its place. -/
theorem segmentAfter_whole (p : Proc) (i : ℕ) :
    p.whole.log.segmentAfter i = none ∧ p.log.segmentAfter i = none ∨
      ∃ s s', p.whole.log.segmentAfter i = some s ∧ p.log.segmentAfter i = some s' ∧
        s.index = s'.index ∧ s.baseByteOffset = s'.baseByteOffset := by
  have hall : ∀ l : Log, l.segmentAfter i = (l.sealed.find? fun s => decide (i < s.index)).or
      (if decide (i < l.active.index) then some l.active else none) := fun l => by
    rw [Log.segmentAfter, Log.segments, find?_append, find?_singleton]
  rw [hall, hall, show p.whole.log.sealed = p.log.sealed from rfl]
  cases p.log.sealed.find? fun s => decide (i < s.index) with
  | some s => exact .inr ⟨s, s, rfl, rfl, rfl, rfl⟩
  | none =>
    rw [Option.none_or, Option.none_or, show p.whole.log.active.index = p.log.active.index from rfl]
    split_ifs
    · exact .inr ⟨_, _, rfl, rfl, rfl, rfl⟩
    · exact .inl ⟨rfl, rfl⟩

theorem readableLen_whole (p : Proc) (i base : ℕ) :
    p.whole.log.readableLen i base = p.log.readableLen i base := by
  unfold Log.readableLen
  rw [show p.whole.log.active.index = p.log.active.index from rfl,
    show p.whole.log.committed = p.log.committed from rfl]
  rcases segmentAfter_whole p i with ⟨hnone, hnone'⟩ | ⟨s, s', hs, hs', -, hbase⟩
  · rw [hnone, hnone']
  · rw [hs, hs']
    dsimp only
    rw [hbase]

theorem startSegment_trim (fromMsgID n : ℕ) (sealed : List Segment) (active : Segment) :
    startSegment fromMsgID (active.trim n) (sealed ++ [active.trim n])
        = (startSegment fromMsgID active (sealed ++ [active])).trim n ∨
      startSegment fromMsgID (active.trim n) (sealed ++ [active.trim n])
        = startSegment fromMsgID active (sealed ++ [active]) := by
  induction sealed with
  | nil => exact .inl rfl
  | cons s sealed ih =>
    cases sealed with
    | nil =>
      simp only [cons_append, nil_append, startSegment,
        show (active.trim n).baseMsgID = active.baseMsgID from rfl]
      split_ifs
      · exact .inr rfl
      · exact .inl rfl
    | cons =>
      simp only [cons_append, startSegment]
      split_ifs
      · exact .inr rfl
      · exact ih

theorem startSegment_whole (p : Proc) (fromMsgID : ℕ) :
    (startSegment fromMsgID p.whole.log.active p.whole.log.segments).index
        = (startSegment fromMsgID p.log.active p.log.segments).index ∧
      (startSegment fromMsgID p.whole.log.active p.whole.log.segments).baseByteOffset
        = (startSegment fromMsgID p.log.active p.log.segments).baseByteOffset := by
  have htrim : p.whole.log.active = p.log.active.trim p.counted := rfl
  have hsealed : p.whole.log.sealed = p.log.sealed := rfl
  rw [Log.segments, Log.segments, htrim, hsealed]
  rcases startSegment_trim fromMsgID p.counted p.log.sealed p.log.active with heq | heq <;>
    rw [heq] <;> exact ⟨rfl, rfl⟩

theorem canOpen_whole (p : Proc) (i : ℕ) : p.whole.canOpen i = p.canOpen i := by
  have hdir : ∀ q : Proc, q.canOpen i = (((q.strays ++ q.retired.map Segment.entry).lookup
      (segmentName i)).isSome || (segmentName i == segmentName q.log.active.index)) := fun q => by
    rw [Proc.canOpen, Dir.find, Proc.dir, Proc.linked_eq, map_append, ← append_assoc,
      lookup_append, Option.isSome_or]
    congr 1
    rw [map_singleton, Segment.entry, lookup_cons]
    cases segmentName i == segmentName q.log.active.index <;> rfl
  rw [hdir p, hdir p.whole]
  rfl

/-- A reader of a torn log takes the steps that it would take without the torn bytes, as long as it
decodes what it would decode. -/
theorem read_whole {t : Reading}
    (hdecode : ∀ h, t.phase = .scanDecode h ∨ t.phase = .decode h →
      t.proc.whole.decodeAt h = t.proc.decodeAt h) :
    t.whole.read = t.read.map Reading.whole := by
  obtain ⟨p, fromMsgID, phase, out⟩ := t
  show (⟨p.whole, fromMsgID, phase, out⟩ : Reading).read = _
  cases phase with
  | start =>
    obtain ⟨hindex, hbase⟩ := startSegment_whole p fromMsgID
    have hfloor : p.whole.log.retainedFloor = p.log.retainedFloor := rfl
    simp only [Reading.read, hindex, hbase, hfloor,
      show p.whole.holder = p.holder from rfl]
    split_ifs <;> rfl
  | openStart | openNext =>
    simp only [Reading.read, canOpen_whole]
    split_ifs <;> rfl
  | scan =>
    simp only [Reading.read, readableLen_whole,
      show p.whole.holder = p.holder from rfl]
    split_ifs <;> rfl
  | scanDecode h =>
    simp only [Reading.read, hdecode h (.inl rfl)]
    cases p.decodeAt h with
    | error => rfl
    | ok =>
      dsimp only
      split_ifs <;> rfl
  | idle | refused | failed => rfl
  | loop h =>
    simp only [Reading.read, readableLen_whole,
      show p.whole.holder = p.holder from rfl]
    split_ifs
    · rfl
    · rfl
    · rfl
    · -- The successor may be the active segment, which is not the same in both processes.
      rcases segmentAfter_whole p h.index with ⟨hnone, hnone'⟩ | ⟨s, s', hs, hs', hindex, hbase⟩
      · rw [hnone, hnone']
        rfl
      · rw [hs, hs']
        dsimp only
        rw [hindex, hbase]
        rfl
  | decode h =>
    simp only [Reading.read, hdecode h (.inr rfl)]
    split <;> rfl

/-! ## A reader that starts anywhere above the floor -/

/-- The invariant of `NewReader` when nothing is dropped: it stands at or before the record it was
asked for, which need not have been appended yet. -/
def Seeks (id₀ fromMsgID : ℕ) (p : Proc) : Phase → Prop
  | .start => p.log.retainedFloor ≤ fromMsgID
  | .openStart index base =>
    ∃ k m, At id₀ p ⟨index, base, 0⟩ k m ∧ Retained p index ∧ id₀ + k ≤ fromMsgID
  | .scan h => ∃ k m, At id₀ p h k m ∧ Retained p (h.index + 1) ∧ id₀ + k ≤ fromMsgID
  | .scanDecode h =>
    ∃ k m, At id₀ p h k m ∧ Retained p (h.index + 1) ∧ id₀ + k ≤ fromMsgID ∧ k < m
  | _ => False

/-- The invariant of a log with a reader that will return every record from `fromMsgID` on. -/
structure Follows (id₀ : ℕ) (t : Reading) : Prop where
  inv : Inv id₀ t.proc
  phase : (t.out = [] ∧ Seeks id₀ t.fromMsgID t.proc t.phase) ∨
    ∃ n, id₀ + n ≤ t.fromMsgID ∧ NextOk id₀ n t.proc t.out t.phase

section Follows

variable {id₀ n fromMsgID : ℕ} {p p' : Proc} {phase : Phase} {out : List Record} {a : Action}
  {t t' : Reading}

theorem Retained.of_step_keep {i : ℕ} (hr : Retained p i) (hdrop : ∀ keepIndex, a ≠ .drop keepIndex)
    (hstep : Step p a p') : Retained p' i :=
  hr.of_step hstep fun keepIndex heq => absurd heq (hdrop keepIndex)

theorem Seeks.of_log (hi : Inv id₀ p) (ha : a.Intact) (hdrop : ∀ keepIndex, a ≠ .drop keepIndex)
    (hstep : Step p a p') (hok : Seeks id₀ fromMsgID p phase) : Seeks id₀ fromMsgID p' phase := by
  cases phase with
  | start =>
    have hstream := stream_dropped_of_step hdrop hstep
    show p'.log.retainedFloor ≤ fromMsgID
    rw [(inv_of_step ha hi hstep).shape.retainedFloor_eq, hstream, ← hi.shape.retainedFloor_eq]
    exact hok
  | openStart | scan =>
    obtain ⟨k, m, hat, hr, hle⟩ := hok
    obtain ⟨m', -, hat'⟩ := hat.of_step hi ha hstep
    exact ⟨k, m', hat', hr.of_step_keep hdrop hstep, hle⟩
  | scanDecode =>
    obtain ⟨k, m, hat, hr, hle, hkm⟩ := hok
    obtain ⟨m', hm, hat'⟩ := hat.of_step hi ha hstep
    exact ⟨k, m', hat', hr.of_step_keep hdrop hstep, hle, hkm.trans_le hm⟩
  | _ => exact hok.elim

theorem At.fail {h : Handle} {k m : ℕ} (hat : At id₀ p h k m) (rec : Record) :
    At id₀ (p.fail rec) h k m := by
  obtain ⟨s, front, back, hon, hm⟩ := hat
  exact ⟨s, front, back, ⟨hon.mem, hon.index_eq, hon.base_eq, hon.records_eq, hon.pos_eq,
    hon.number⟩, hm⟩

theorem Seeks.fail (hok : Seeks id₀ fromMsgID p phase) (rec : Record) :
    Seeks id₀ fromMsgID (p.fail rec) phase := by
  cases phase with
  | start => exact hok
  | openStart | scan | scanDecode =>
    obtain ⟨k, m, hat, hrest⟩ := hok
    exact ⟨k, m, hat.fail rec, hrest⟩
  | _ => exact hok.elim

theorem NextOk.fail (hok : NextOk id₀ n p out phase) (rec : Record) :
    NextOk id₀ n (p.fail rec) out phase := by
  have he : Extends p (p.fail rec) := .of_eq rfl rfl rfl
  cases phase with
  | idle | loop =>
    obtain ⟨k, m, hat, hr, hret⟩ := hok
    exact ⟨k, m, hat.fail rec, hr, hret.extend he⟩
  | decode =>
    obtain ⟨k, m, hat, hr, hret, hrest⟩ := hok
    exact ⟨k, m, hat.fail rec, hr, hret.extend he, hrest⟩
  | openNext =>
    obtain ⟨k, m, hat, hlt, hr, hret⟩ := hok
    exact ⟨k, m, hat.fail rec, hlt, hr, hret.extend he⟩
  | _ => exact hok.elim

theorem Follows.fail (hok : Follows id₀ t) (rec : Record) (hdrop : t.proc.toDrop = []) :
    Follows id₀ { t with proc := t.proc.fail rec } := by
  refine ⟨hok.inv.fail rec hdrop, hok.phase.imp ?_ ?_⟩
  · rintro ⟨hout, hseeks⟩
    exact ⟨hout, hseeks.fail rec⟩
  · rintro ⟨n, hn, hnext⟩
    exact ⟨n, hn, hnext.fail rec⟩

theorem Follows.of_log (hok : Follows id₀ t) (ha : a.Intact)
    (hdrop : ∀ keepIndex, a ≠ .drop keepIndex) (hstep : Step t.proc a p') :
    Follows id₀ { t with proc := p' } := by
  refine ⟨inv_of_step ha hok.inv hstep, hok.phase.imp ?_ ?_⟩
  · rintro ⟨hout, hseeks⟩
    exact ⟨hout, hseeks.of_log hok.inv ha hdrop hstep⟩
  · rintro ⟨n, hn, hnext⟩
    exact ⟨n, hn, hnext.of_log hok.inv ha hstep fun keepIndex heq => absurd heq (hdrop keepIndex)⟩

/-- A step of `NewReader` keeps its invariant, or `NewReader` returns at or before the record it was
asked for. -/
theorem Seeks.of_read (hi : Inv id₀ t.proc) (hout : t.out = [])
    (hok : Seeks id₀ t.fromMsgID t.proc t.phase) (hstep : t.read = some t') :
    (t'.out = [] ∧ Seeks id₀ t'.fromMsgID t'.proc t'.phase) ∨
      ∃ n, id₀ + n ≤ t'.fromMsgID ∧ NextOk id₀ n t'.proc t'.out t'.phase := by
  obtain ⟨p, fromMsgID, phase, out⟩ := t
  subst hout
  cases phase with
  | start =>
    dsimp only [Reading.read] at hstep
    have hfloor : p.log.retainedFloor ≤ fromMsgID := hok
    split_ifs at hstep with hfree hlt
    · exact absurd hlt (Nat.not_lt.mpr hfloor)
    · cases hstep
      obtain ⟨hat, hr, hle, -⟩ := at_startSegment hi hfloor rfl
      exact .inl ⟨rfl, _, _, hat, hr, hle⟩
  | openStart =>
    obtain ⟨k, m, hat, hr, hle⟩ := hok
    simp only [Reading.read, canOpen_of_at hat hr, if_true, Option.some.injEq] at hstep
    cases hstep
    exact .inl ⟨rfl, k, m, hat, fun s hs => (hr s hs).trans (Nat.lt_succ_self _), hle⟩
  | scan =>
    obtain ⟨k, m, hat, hr, hle⟩ := hok
    dsimp only [Reading.read] at hstep
    split_ifs at hstep with hfree hend
    · cases hstep
      exact .inr ⟨k, hle, .of_at hat hr⟩
    · cases hstep
      exact .inl ⟨rfl, k, m, hat, hr, hle,
        hat.lt_of_readable hi.shape hr (Nat.lt_of_not_le hend)⟩
  | scanDecode =>
    obtain ⟨k, m, hat, hr, hle, hkm⟩ := hok
    obtain ⟨s, front, r, back', hon, -⟩ := hat.before hkm
    simp only [Reading.read, hon.decodeAt hi.shape] at hstep
    have hid := hi.shape.numbered.msgID_eq (hon.getElem hi.shape)
    split_ifs at hstep with hfound
    · cases hstep
      exact .inr ⟨k, hle, .of_at hat hr⟩
    · cases hstep
      refine .inl ⟨rfl, k + 1, _, ⟨s, front ++ [r], back', hon.advance, rfl⟩, hr, ?_⟩
      show id₀ + (k + 1) ≤ fromMsgID
      omega
  | _ => exact hok.elim

/-- The reader's own steps keep the invariant. -/
theorem Follows.of_read (hok : Follows id₀ t) (hstep : t.read = some t') : Follows id₀ t' := by
  obtain ⟨hproc, hfrom, -⟩ := proc_of_read hstep
  refine ⟨hproc.symm ▸ hok.inv, ?_⟩
  rcases hok.phase with ⟨hout, hseeks⟩ | ⟨n, hn, hnext⟩
  · exact hseeks.of_read hok.inv hout hstep
  · exact .inr ⟨n, hfrom.symm ▸ hn, hnext.of_read hok.inv hstep⟩

theorem Follows.of_reads (hok : Follows id₀ t) (hreads : Reads t t') : Follows id₀ t' := by
  obtain ⟨as, hrun⟩ := hreads
  refine hrun.invariant hok fun t a t' ha hok hstep => ?_
  subst ha
  exact hok.of_read hstep

/-- The reader's own steps leave the log alone. -/
theorem Reads.proc_eq (hreads : Reads t t') : t'.proc = t.proc := by
  obtain ⟨as, hrun⟩ := hreads
  refine hrun.invariant (I := fun u => u.proc = t.proc) rfl fun u a u' ha hu hstep => ?_
  subst ha
  exact (proc_of_read hstep).1.trans hu

theorem NextOk.of_reads (hi : Inv id₀ t.proc) (hok : NextOk id₀ n t.proc t.out t.phase)
    (hreads : Reads t t') : NextOk id₀ n t'.proc t'.out t'.phase := by
  obtain ⟨as, hrun⟩ := hreads
  have hboth : Inv id₀ t'.proc ∧ NextOk id₀ n t'.proc t'.out t'.phase :=
    hrun.invariant (I := fun u => Inv id₀ u.proc ∧ NextOk id₀ n u.proc u.out u.phase) ⟨hi, hok⟩
      fun u a u' ha hu hstep => by
        subst ha
        exact hu.2.of_step hu.1 trivial (a := .read) trivial hstep
  exact hboth.2

variable {x : Record × ℕ}

theorem NextOk.returns {pre post : List Record} (hi : Inv id₀ t.proc)
    (hfree : t.proc.holder = .free) (hok : NextOk id₀ n t.proc t.out t.phase)
    (hsplit : t.proc.appended = pre ++ x.1 :: post)
    (hstop : (codec.frames (pre ++ [x.1])).length ≤ t.proc.log.committed) (hn : n ≤ pre.length) :
    ∃ t', Reads t t' ∧ x.1 ∈ t'.out := by
  -- At each turn one more record before `x` has been returned.
  induction hleft : pre.length + 1 - (n + t.out.length) generalizing t with
  | zero =>
    obtain ⟨k, hret⟩ := hok.returned
    obtain ⟨rest, hrest⟩ := hret.out_eq
    have helem : (t.out ++ rest)[pre.length - n]? = some x.1 := by
      rw [hrest, getElem?_drop, Nat.add_sub_cancel' hn, hsplit,
        getElem?_append_right le_rfl, Nat.sub_self]
      rfl
    rw [getElem?_append_left (by omega)] at helem
    exact ⟨t, .refl t, mem_of_getElem? helem⟩
  | succ left ih =>
    have hlen : n + t.out.length < t.proc.appended.length := by
      rw [hsplit, length_append, length_cons]
      omega
    have hle : (codec.frames (t.proc.appended.take (n + t.out.length + 1))).length
        ≤ t.proc.log.committed := by
      refine (codec.length_frames_take_mono t.proc.appended
        (show n + t.out.length + 1 ≤ pre.length + 1 by omega)).trans ?_
      rw [hsplit, take_append, take_of_length_le (Nat.le_succ _)]
      simpa using hstop
    obtain ⟨u, r, hreads, hout⟩ := hok.progress hi hfree hlen hle
    have hproc := hreads.proc_eq
    obtain ⟨t', hreads', hmem⟩ := ih (t := u) (hproc ▸ hi) (hproc ▸ hfree)
      (hok.of_reads hi hreads) (hproc ▸ hsplit) (hproc ▸ hstop)
      (by rw [hout, length_append, length_singleton]; omega)
    exact ⟨t', hreads.trans hreads', hmem⟩

/-- `NewReader` returns when the mutex is free. -/
theorem Seeks.reads_idle (hi : Inv id₀ t.proc) (hfree : t.proc.holder = .free)
    (hok : Seeks id₀ t.fromMsgID t.proc t.phase) : ∃ h, Reads t { t with phase := .idle h } := by
  obtain ⟨p, fromMsgID, phase, out⟩ := t
  cases phase with
  | start => exact reads_start hi hfree hok
  | openStart =>
    obtain ⟨k, m, hat, hr, -⟩ := hok
    exact reads_openStart hi hfree hat hr
  | scan =>
    obtain ⟨k, m, hat, hr, -⟩ := hok
    exact reads_scan hi hfree hat hr
  | scanDecode =>
    obtain ⟨k, m, hat, hr, -, hkm⟩ := hok
    exact reads_scanDecode hi hfree hat hkm hr
  | _ => exact hok.elim

theorem Follows.returns (hok : Follows id₀ t) (hfree : t.proc.holder = .free)
    (hloc : Located t.proc.appended x) (hle : x.2 ≤ t.proc.log.committed)
    (hfrom : t.fromMsgID ≤ x.1.msgID.toNat) : ∃ t', Reads t t' ∧ x.1 ∈ t'.out := by
  obtain ⟨pre, post, hsplit, hstop⟩ := hloc
  have hid : x.1.msgID.toNat = id₀ + pre.length := by
    refine hok.inv.shape.numbered.msgID_eq ?_
    rw [hsplit, getElem?_append_right le_rfl, Nat.sub_self]
    rfl
  rw [hstop] at hle
  rcases hok.phase with ⟨hout, hseeks⟩ | ⟨n, hn, hnext⟩
  · obtain ⟨h, hreads⟩ := hseeks.reads_idle hok.inv hfree
    rcases (hok.of_reads hreads).phase with ⟨-, hnone⟩ | ⟨n, hn, hnext⟩
    · exact hnone.elim
    · obtain ⟨t', hreads', hmem⟩ := NextOk.returns (t := { t with phase := .idle h }) hok.inv hfree
        hnext hsplit hle (by dsimp only at hn; omega)
      exact ⟨t', hreads.trans hreads', hmem⟩
  · exact hnext.returns hok.inv hfree hsplit hle (by omega)

theorem Follows.no_error (hok : Follows id₀ t) (e : ReadError)
    (hphase : t.phase = .refused e ∨ t.phase = .failed e) : False := by
  rcases hok.phase with ⟨-, hseeks⟩ | ⟨n, -, hnext⟩
  · rcases hphase with heq | heq <;> rw [heq] at hseeks <;> exact hseeks
  · rcases hphase with heq | heq <;> rw [heq] at hnext <;> exact hnext

/-! ## A reader of a log that keeps tidy -/

/-- Where the reader decodes, it stands before a record, so that it decodes the same with the torn
bytes and without. -/
theorem Follows.decodeAt_eq (hok : Follows id₀ t.whole) (h : Handle)
    (hphase : t.phase = .scanDecode h ∨ t.phase = .decode h) :
    t.proc.whole.decodeAt h = t.proc.decodeAt h := by
  have hbefore : ∃ k s front r back, On id₀ t.proc.whole h k s front (r :: back) := by
    have hat : ∃ k m, At id₀ t.proc.whole h k m ∧ k < m := by
      rcases hok.phase with ⟨-, hseeks⟩ | ⟨n, -, hnext⟩
      · rw [show t.whole.phase = t.phase from rfl] at hseeks
        rcases hphase with heq | heq <;> rw [heq] at hseeks
        · obtain ⟨k, m, hat, -, -, hkm⟩ := hseeks
          exact ⟨k, m, hat, hkm⟩
        · exact hseeks.elim
      · rw [show t.whole.phase = t.phase from rfl] at hnext
        rcases hphase with heq | heq <;> rw [heq] at hnext
        · exact hnext.elim
        · obtain ⟨k, m, hat, -, -, hkm, -⟩ := hnext
          exact ⟨k, m, hat, hkm⟩
    obtain ⟨k, m, hat, hkm⟩ := hat
    obtain ⟨s, front, r, back, hon, -⟩ := hat.before hkm
    exact ⟨k, s, front, r, back, hon⟩
  obtain ⟨k, s, front, r, back, hon⟩ := hbefore
  rw [hon.decodeAt hok.inv.shape, hon.decodeAt_torn hok.inv.shape]

theorem Reads.of_whole {u : Reading} (hok : Follows id₀ t.whole) (hreads : Reads t.whole u) :
    ∃ t', Reads t t' ∧ t'.whole = u := by
  obtain ⟨as, hrun⟩ := hreads
  obtain ⟨v, hv⟩ : ∃ v, v = t.whole := ⟨_, rfl⟩
  rw [← hv] at hrun
  induction hrun generalizing t with
  | nil => exact ⟨t, .refl t, hv.symm⟩
  | cons ha hstep hrun ih =>
    subst ha hv
    have hread : t.read.map Reading.whole = some _ := (read_whole hok.decodeAt_eq).symm.trans hstep
    obtain ⟨t₁, ht₁, rfl⟩ := Option.map_eq_some_iff.mp hread
    obtain ⟨t', hreads, heq⟩ := ih (hok.of_read hstep) rfl
    exact ⟨t', .cons ht₁ hreads, heq⟩

/-- The log keeps tidy and drops nothing while the reader is at work. -/
def TidyRead (t : Reading) : ReadAction → Prop
  | .log a => TidyStep t.proc a ∧ (ReadAction.log a).KeepsAll
  | _ => True

instance (t : Reading) : DecidablePred (TidyRead t)
  | .log _ => inferInstanceAs (Decidable (_ ∧ _))
  | .read | .cancel => isTrue trivial

theorem follows_of_step {Cut : Record → ℕ → Prop} {w : ℕ} {a : ReadAction}
    (htorn : Torn Cut id₀ w t.proc) (hok : Follows id₀ t.whole) (ha : TidyRead t a)
    (hcut : ∀ rec k, t.proc.holder = .write rec → a = .log (.write (some k)) → Cut rec k)
    (hstep : t.step a = some t') : Torn Cut id₀ w t'.proc ∧ Follows id₀ t'.whole := by
  cases a with
  | log a =>
    obtain ⟨p', hp', rfl⟩ := Option.map_eq_some_iff.mp hstep
    obtain ⟨⟨htidy, hrm, hname⟩, hkeep⟩ := ha
    have hstep' := step_sound hp'
    have hdrop : ∀ keepIndex, a ≠ .drop keepIndex := by
      rintro keepIndex rfl
      exact hkeep
    refine ⟨htorn.of_step htidy hrm hname (fun rec k hh heq => hcut rec k hh (heq ▸ rfl)) hstep',
      ?_⟩
    show Follows id₀ { t.whole with proc := p'.whole }
    cases wholeStep_of_step htorn.inv htorn.synced_le htidy hstep' with
    | quiet hintact hst | tidy hintact hst => exact hok.of_log hintact hdrop hst
    | @torn rec k _ hh _ _ _ hwhole =>
      -- Without its bytes, a torn write is a call that fails.
      have hholder := htorn.inv.calls.holder
      rw [show t.proc.whole.holder = t.proc.holder from rfl, hh] at hholder
      rw [hwhole]
      exact hok.fail rec hholder.1
  | read =>
    have hstep' : t.read = some t' := hstep
    refine ⟨(proc_of_read hstep').1.symm ▸ htorn, hok.of_read (t := t.whole) ?_⟩
    rw [read_whole hok.decodeAt_eq, hstep']
    rfl
  | cancel =>
    obtain ⟨h, hphase, rfl⟩ := cancel_sound hstep
    refine ⟨htorn, hok.inv, hok.phase.imp ?_ ?_⟩
    · rintro ⟨-, hseeks⟩
      rw [show t.whole.phase = t.phase from rfl, hphase] at hseeks
      exact hseeks.elim
    · rintro ⟨n, hn, hnext⟩
      rw [show t.whole.phase = t.phase from rfl, hphase] at hnext
      exact ⟨n, hn, hnext⟩

end Follows

theorem Torn.acked_visited {Cut : Record → ℕ → Prop} {w : ℕ} {cut : ℕ → ℕ × ℕ}
    (h : Torn Cut id₀ w p) (hmode : p.log.syncMode ≠ .none) (hmay : p.MayCut cut)
    (hkeep : p.KeepsSealed cut) (mode : SyncMode) (segmentBytes : ℕ) :
    ∃ q, Wal.openLog mode segmentBytes (p.crashDir (Segment.cutBy cut)) = .ok q ∧
      ∀ x ∈ p.acked, x.1 ∈ stream p.gone ∨ x.1 ∈ q.appended := by
  obtain ⟨q, more, hopen, happended, -, -⟩ := h.openLog hmay hkeep mode segmentBytes
  refine ⟨q, hopen, fun x hx => ?_⟩
  obtain ⟨hloc, hle⟩ := h.inv.calls.acked x hx
  have hlate := h.entries.late x (mem_append_left _ hx)
  have hmem : x.1 ∈ stream p.gone ∨ x.1 ∈ stream p.whole.linked := by
    have hsplit := h.inv.shape.appended_linked
    obtain ⟨pre, post, heq, -⟩ := hloc
    rw [← mem_append, show p.gone = p.whole.gone from rfl, ← hsplit, heq]
    simp
  refine hmem.imp_right fun hlinked => ?_
  have hsynced : p.whole.log.active.f.synced ≤ (cut p.log.active.index).1 := by
    obtain ⟨hlow, hhigh, -⟩ := hmay p.log.active (by rw [p.linked_eq]; simp)
    exact (min_le_left _ _).trans (hlow.trans hhigh)
  have hfound := mem_of_located h.inv (h.durable hmode) hsynced hloc hlate hle hlinked
  rw [happended]
  rcases mem_append.mp hfound with hretired | hactive
  · exact mem_append_left _ hretired
  · exact mem_append_right _ (codec.take_whole_subset_append _ _ more hactive)

/-- Acknowledged records survive failed writes, as long as nothing is written behind a torn write in
the same life and no segment is sealed over one. Take any state that a log reaches over its lives
with such writes, any reader that starts at or above the retained floor, and any run of both in
which nothing is dropped. Then the reader reports no error; its own steps return every acknowledged
record from `fromMsgID` on when the mutex is free; and after any crash the next `Open` visits every
acknowledged record of a segment that was not removed. -/
theorem acked_survive {kept : List Record} {p₀ : Proc} {fromMsgID : ℕ} {as : List ReadAction}
    {t : Reading} (hlog : Lives TidyStep kept p₀) (hlow : p₀.log.retainedFloor ≤ fromMsgID)
    (hrun : Run Reading.step TidyRead ⟨p₀, fromMsgID, .start, []⟩ as t)
    (hmode : t.proc.log.syncMode = .perMessage) :
    (∀ e, t.phase ≠ .refused e ∧ t.phase ≠ .failed e) ∧
    (∀ x ∈ t.proc.acked, fromMsgID ≤ x.1.msgID.toNat → t.proc.holder = .free →
      ∃ t', Reads t t' ∧ x.1 ∈ t'.out) ∧
    ∀ cut, t.proc.MayCut cut → t.proc.KeepsSealed cut → ∀ mode segmentBytes,
      ∃ q, openLog mode segmentBytes (t.proc.crashDir (Segment.cutBy cut)) = .ok q ∧
        ∀ x ∈ t.proc.acked, x.1 ∈ stream t.proc.gone ∨ x.1 ∈ q.appended := by
  obtain ⟨id₀, w, htorn₀⟩ : ∃ id₀ w, Torn (fun _ _ => True) id₀ w p₀ :=
    hlog.torn fun _ _ ha => ⟨ha, fun _ _ _ _ => trivial⟩
  have hstart : Follows id₀ (Reading.whole ⟨p₀, fromMsgID, .start, []⟩) :=
    ⟨htorn₀.inv, .inl ⟨rfl, hlow⟩⟩
  obtain ⟨⟨htorn, hok⟩, hfrom⟩ := hrun.invariant
    (I := fun u => (Torn (fun _ _ => True) id₀ w u.proc ∧ Follows id₀ u.whole) ∧
      u.fromMsgID = fromMsgID) ⟨⟨htorn₀, hstart⟩, rfl⟩ fun u a u' ha hu hstep =>
        ⟨follows_of_step hu.1.1 hu.1.2 ha (fun _ _ _ _ => trivial) hstep,
          (fromMsgID_of_step hstep).trans hu.2⟩
  refine ⟨fun e => ⟨fun hphase => ?_, fun hphase => ?_⟩, fun x hx hle hfree => ?_,
    fun cut hmay hkeep mode segmentBytes =>
      htorn.acked_visited (hmode ▸ by decide) hmay hkeep mode segmentBytes⟩
  · exact hok.no_error e (.inl hphase)
  · exact hok.no_error e (.inr hphase)
  · obtain ⟨hloc, hcommitted⟩ := htorn.inv.calls.acked x hx
    obtain ⟨u, hreads, hmem⟩ := hok.returns hfree hloc hcommitted (hfrom.trans_le hle)
    obtain ⟨t', hreads', rfl⟩ := hreads.of_whole hok
    exact ⟨t', hreads', hmem⟩

/-- One append is acknowledged; the write of the second stops after one byte. -/
def tornLast : List Action :=
  [.append emptyMessage, .write none, .fsync true, .append emptyMessage, .write (some 1)]

/-- `NewReader` and one call of `Next`, with the committer and the mutex idle. -/
def readOne : List ReadAction := [.read, .read, .read, .read, .read, .read, .read]

/-- The theorem at a torn write that is the last of its life, with a reader that has returned the
acknowledged record. -/
theorem acked_survive_tornLast :
    ∃ p₀ t, Lives TidyStep [] p₀ ∧
      exec Reading.step TidyRead ⟨p₀, 0, .start, []⟩ readOne = some t ∧
      (t.proc.acked.length = 1 ∧ t.proc.failed.length = 1 ∧ t.out.length = 1) ∧
      (∀ e, t.phase ≠ .refused e ∧ t.phase ≠ .failed e) ∧
      (∀ x ∈ t.proc.acked, 0 ≤ x.1.msgID.toNat → t.proc.holder = .free →
        ∃ t', Reads t t' ∧ x.1 ∈ t'.out) ∧
      ∀ cut, t.proc.MayCut cut → t.proc.KeepsSealed cut → ∀ mode segmentBytes,
        ∃ q, openLog mode segmentBytes (t.proc.crashDir (Segment.cutBy cut)) = .ok q ∧
          ∀ x ∈ t.proc.acked, x.1 ∈ stream t.proc.gone ∨ x.1 ∈ q.appended := by
  have hopen := openLog_nil .perMessage 0
  obtain ⟨p₀, hp₀, hlow, t, ht, hmode, hcounts⟩ :
      ∃ p₀, Run Wal.step TidyStep (.empty .perMessage 0) tornLast p₀ ∧
        p₀.log.retainedFloor ≤ 0 ∧
        ∃ t, exec Reading.step TidyRead ⟨p₀, 0, .start, []⟩ readOne = some t ∧
          t.proc.log.syncMode = .perMessage ∧
          t.proc.acked.length = 1 ∧ t.proc.failed.length = 1 ∧ t.out.length = 1 := by
    decide +kernel
  have hlog : Lives TidyStep [] p₀ := (Lives.opened hopen).run hp₀
  exact ⟨p₀, t, hlog, ht, hcounts, acked_survive hlog hlow (run_of_exec ht) hmode⟩

/-- The write of the first append stops after one byte; the second is acknowledged. -/
def tornFirst : List Action :=
  [.append emptyMessage, .write (some 1), .append emptyMessage, .write none, .fsync true]

/-- A record that is written behind a torn write is lost, although its append returned success in
per-message mode: a reader that starts at its id ends with a decode error, and `Open` truncates the
file before it. -/
theorem acked_lost :
    ∃ p₀ p t q, openLog .perMessage 0 [] = .ok p₀ ∧
      Run step (fun _ _ => True) p₀ tornFirst p ∧ p.acked.length = 1 ∧
      (∀ x ∈ p.acked, x.1.msgID.toNat = 0) ∧
      Run Reading.step (fun _ a => a = .read) ⟨p, 0, .start, []⟩
        [.read, .read, .read, .read] t ∧
      t.phase = .refused (.decode .shortRead) ∧
      openLog .perMessage 0 p.dir = .ok q ∧ q.appended = [] := by
  obtain ⟨p, hp, hacked, hid, t, ht, hphase, q, hq⟩ :
      ∃ p, Run step (fun _ _ => True) (.empty .perMessage 0) tornFirst p ∧
        p.acked.length = 1 ∧ (∀ x ∈ p.acked, x.1.msgID.toNat = 0) ∧
        ∃ t, Run Reading.step (fun _ a => a = .read) ⟨p, 0, .start, []⟩
            [.read, .read, .read, .read] t ∧
          t.phase = .refused (.decode .shortRead) ∧
          ∃ q, openLog .perMessage 0 p.dir = .ok q ∧ q.appended = [] := by
    decide +kernel
  exact ⟨_, p, t, q, openLog_nil .perMessage 0, hp, hacked, hid, ht, hphase, hq⟩

end ToyMQ.Wal
