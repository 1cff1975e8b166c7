import ToyMQ.Wal.ReaderExact

/-!
# A reader and its start

`NewReader` scans forward to `fromMsgID`, and stops at the end of what may be read when it does not
get there. `Next` then goes on from that place and compares nothing with `fromMsgID` any more, so
that a reader which was asked for an id above the committed ones returns smaller ones as soon as
they are appended (`reader_below_start`).

`reader_above_start` says when this does not happen: whenever the scan runs out of readable bytes,
its position is at `fromMsgID` or above (`Arrives`). The condition is exact
(`numbered_of_stop`), and a reader that starts at or below the first uncommitted id meets it
(`arrives_of_committed_start`).
-/

namespace ToyMQ.Wal

open Lib Option

/-! ## The id at a position -/

/-- The id of the record behind a reader's position: the base id of its segment, plus the number of
records before the position. -/
def Proc.idAt (p : Proc) (h : Handle) : ℕ :=
  match p.all.find? fun s => s.index == h.index with
  | some s => s.baseMsgID + codec.whole h.localPos s.records
  | none => 0

/-- When the step is the one in which `NewReader` runs out of readable bytes, its position is not
below the id it was asked for. -/
def Arrives (t : Reading) : ReadAction → Prop
  | .read =>
    match t.phase with
    | .scan h => (t.proc.log.readableLen h.index h.baseByteOffset).1 ≤ h.localPos →
        t.fromMsgID ≤ t.proc.idAt h
    | _ => True
  | _ => True

instance (t : Reading) (a : ReadAction) : Decidable (Arrives t a) := by
  unfold Arrives
  split
  · split <;> infer_instance
  · infer_instance

section Position

variable {id₀ k m : ℕ} {p : Proc} {h : Handle}

theorem At.idAt_eq (hat : At id₀ p h k m) (hsh : Shape id₀ p) : p.idAt h = id₀ + k := by
  obtain ⟨s, front, back, hon, -⟩ := hat
  have hfound : (p.all.find? fun s => s.index == h.index) = some s :=
    hon.index_eq ▸ hsh.find_index hon.mem
  have hcount : codec.whole h.localPos s.records = front.length := by
    rw [hon.pos_eq, hon.records_eq]
    exact codec.whole_frames_append front back
  unfold Proc.idAt
  rw [hfound]
  dsimp only
  rw [hcount]
  exact hon.number.symm

end Position

/-! ## Where `NewReader` returns -/

section Start

variable {id₀ n : ℕ} {goal : Option ℕ} {t t' : Reading} {a : ReadAction}

variable {p : Proc}

theorem NextOk.idAt_eq {h : Handle} (hok : NextOk id₀ n p [] (.idle h)) (hsh : Shape id₀ p) :
    p.idAt h = id₀ + n := by
  obtain ⟨k, m, hat, -, hret⟩ := hok
  have hnumber : k = n + 0 := hret.number
  rw [hat.idAt_eq hsh, hnumber, Nat.add_zero]

theorem ScanOk.le_of_returns (hi : Inv id₀ t.proc) (hout : t.out = [])
    (hok : ScanOk id₀ goal t.proc t.phase) (harrives : Arrives t .read)
    (hstep : t.read = some t') (hnext : NextOk id₀ n t'.proc t'.out t'.phase) :
    t.fromMsgID ≤ id₀ + n := by
  obtain ⟨p, fromMsgID, phase, out⟩ := t
  subst hout
  cases phase with
  | start | openStart =>
    dsimp only [Reading.read] at hstep
    split_ifs at hstep <;> cases hstep <;> exact hnext.elim
  | scan h =>
    dsimp only [Reading.read] at hstep
    split_ifs at hstep with hfree hle
    · cases hstep
      have hreached : fromMsgID ≤ p.idAt h := harrives hle
      exact hreached.trans_eq (hnext.idAt_eq hi.shape)
    · cases hstep
      exact hnext.elim
  | scanDecode h =>
    obtain ⟨k, m, hat, -, hkm, -⟩ := hok
    obtain ⟨s, front, r, back', hon, -⟩ := hat.before hkm
    simp only [Reading.read, hon.decodeAt hi.shape] at hstep
    split_ifs at hstep with hfound
    · cases hstep
      calc fromMsgID ≤ r.msgID.toNat := hfound
        _ = id₀ + k := hi.shape.numbered.msgID_eq (hon.getElem hi.shape)
        _ = p.idAt h := (hat.idAt_eq hi.shape).symm
        _ = id₀ + n := hnext.idAt_eq hi.shape
    · cases hstep
      exact hnext.elim
  | refused => cases hstep
  | _ => exact hok.elim

/-- The invariant of a log with a reader that returns nothing below its start. -/
structure Above (id₀ : ℕ) (t : Reading) : Prop where
  inv : Inv id₀ t.proc
  phase : (t.out = [] ∧ ScanOk id₀ none t.proc t.phase) ∨
    ∃ n, t.fromMsgID ≤ id₀ + n ∧ NextOk id₀ n t.proc t.out t.phase

theorem Above.of_step (hok : Above id₀ t) (ha : a.Intact) (hspare : Spares t a)
    (harrives : Arrives t a) (hstep : t.step a = some t') : Above id₀ t' := by
  have hfrom := fromMsgID_of_step hstep
  rcases hok.phase with ⟨hout, hscan⟩ | ⟨n, hn, hnext⟩
  · have hread : ReadOk id₀ none t' :=
      ReadOk.of_step ha hspare (fun hne => absurd rfl hne)
        ⟨hok.inv, fun _ hn => (not_mem_none _ hn).elim, .inl ⟨hout, hscan⟩⟩ hstep
    refine ⟨hread.inv, hread.phase.imp_right ?_⟩
    rintro ⟨n, -, hnext⟩
    refine ⟨n, ?_, hnext⟩
    rw [hfrom]
    cases a with
    | read => exact hscan.le_of_returns hok.inv hout harrives hstep hnext
    | log =>
      -- The phase is still one of `NewReader`.
      obtain ⟨p', hp', rfl⟩ := map_eq_some_iff.mp hstep
      cases hphase : t.phase <;> simp only [hphase] at hscan hnext <;>
        first | exact hscan.elim | exact hnext.elim
    | cancel =>
      obtain ⟨h, hphase, -⟩ := cancel_sound hstep
      rw [hphase] at hscan
      exact hscan.elim
  · obtain ⟨hi', hnext'⟩ := hnext.of_step hok.inv ha hspare hstep
    exact ⟨hi', .inr ⟨n, hfrom ▸ hn, hnext'⟩⟩

theorem NextOk.numbered {out : List Record} {phase : Phase} (hsh : Shape id₀ p)
    (hok : NextOk id₀ n p out phase) : Numbered (id₀ + n) out := by
  obtain ⟨k, hret⟩ := hok.returned
  rcases Nat.le_total n p.appended.length with hle | hge
  · exact hret.numbered hsh hle
  · have hnil : out = [] := by
      have hprefix := hret.out_eq
      rwa [List.drop_eq_nil_of_le hge, List.prefix_nil] at hprefix
    rw [hnil]
    trivial

end Start

/-! ## The bound -/

/-- A reader does not go below its start, when the scan for it gets there. Take any state that a log
has `Reached` (by whole writes, successful removals, names of six digits and crashes that keep the
sealed files) and any `fromMsgID`, and let `NewReader` and calls of `Next` run with appends,
rotations, flushes and calls of `DropSegmentsBefore` that spare the reader's successors, in any
order and with whole writes. If the scan of `NewReader` is at `fromMsgID` or above when it runs out
of readable bytes, then no record that `Next` returns has an id below `fromMsgID`. -/
theorem reader_above_start {p₀ : Proc} {fromMsgID : ℕ} {as : List ReadAction} {t : Reading}
    (hlog : Reached p₀)
    (hrun : Run Reading.step (fun t a => a.Intact ∧ Spares t a ∧ Arrives t a)
      ⟨p₀, fromMsgID, .start, []⟩ as t) :
    ∀ r ∈ t.out, fromMsgID ≤ r.msgID.toNat := by
  obtain ⟨id₀, hi₀, -⟩ := hlog.inv
  have hok : t.fromMsgID = fromMsgID ∧ Above id₀ t := by
    refine hrun.invariant (I := fun t => t.fromMsgID = fromMsgID ∧ Above id₀ t)
      ⟨rfl, hi₀, .inl ⟨rfl, trivial⟩⟩ fun u a u' ha hu hstep => ?_
    exact ⟨(fromMsgID_of_step hstep).trans hu.1, hu.2.of_step ha.1 ha.2.1 ha.2.2 hstep⟩
  obtain ⟨rfl, hi, ⟨hout, -⟩ | ⟨n, hn, hnext⟩⟩ := hok
  · rw [hout]
    intro r hr
    cases hr
  · intro r hr
    exact hn.trans ((hnext.numbered hi.shape).bounds hr).1

variable {id₀ : ℕ} {t t' : Reading} {as : List ReadAction} {a : ReadAction}

/-- A scan that stops early is not made up for: from wherever `NewReader` ran out of readable bytes,
`Next` returns the records in order. The condition of `reader_above_start` is exact in this sense:
with a position below `fromMsgID`, the first record returned is below it too. -/
theorem numbered_of_stop {h : Handle} (hok : ReadOk id₀ none t) (hphase : t.phase = .scan h)
    (hfree : t.proc.holder = .free)
    (hle : (t.proc.log.readableLen h.index h.baseByteOffset).1 ≤ h.localPos)
    (hrun : Run Reading.step (fun t a => a.Intact ∧ Spares t a) { t with phase := .idle h } as t') :
    Numbered (t.proc.idAt h) t'.out := by
  obtain ⟨p, fromMsgID, phase, out⟩ := t
  dsimp only at hphase hfree hle hrun ⊢
  subst hphase
  have hstop : (⟨p, fromMsgID, .scan h, out⟩ : Reading).step .read
      = some ⟨p, fromMsgID, .idle h, out⟩ := by
    simp only [Reading.step, Reading.read, hfree, ne_eq, not_true_eq_false, if_false, hle, if_true]
  rcases hok.phase with ⟨hout, -⟩ | ⟨n, -, hnext⟩
  · subst hout
    rcases (hok.of_step (a := .read) trivial trivial (fun _ => trivial) hstop).phase with
      ⟨-, hscan⟩ | ⟨n, -, hnext⟩
    · exact hscan.elim
    · have hend : Inv id₀ t'.proc ∧ NextOk id₀ n t'.proc t'.out t'.phase :=
        hrun.invariant (I := fun u => Inv id₀ u.proc ∧ NextOk id₀ n u.proc u.out u.phase)
          ⟨hok.inv, hnext⟩ fun _ _ _ ha hu hstep => hu.2.of_step hu.1 ha.1 ha.2 hstep
      have hstart : p.idAt h = id₀ + n := hnext.idAt_eq hok.inv.shape
      rw [hstart]
      exact hend.2.numbered hend.1.shape
  · exact hnext.elim

theorem ReadOk.arrives {n : ℕ} (hok : ReadOk id₀ (some n) t) (hstep : t.step a = some t') :
    Arrives t a := by
  cases a with
  | log | cancel => trivial
  | read =>
    have hok' := hok.of_step (a := .read) trivial trivial (fun _ => trivial) hstep
    have hgoal := hok.goal_ok n rfl
    obtain ⟨p, fromMsgID, phase, out⟩ := t
    cases phase with
    | scan h =>
      intro hle
      obtain ⟨hout, -⟩ | ⟨n', -, hnext⟩ := hok.phase
      · dsimp only [Reading.step, Reading.read] at hstep hle hout
        subst hout
        split_ifs at hstep
        cases hstep
        rcases hok'.phase with ⟨-, hscan⟩ | ⟨n', hn', hnext⟩
        · exact hscan.elim
        · obtain rfl := hn' n rfl
          have hstart : p.idAt h = id₀ + n' := hnext.idAt_eq hok.inv.shape
          exact (hgoal.number.trans hstart.symm).le
      · exact hnext.elim
    | _ => trivial

/-- A reader that starts between the floor and the first uncommitted id meets the condition at every
step, as long as nothing is dropped. -/
theorem arrives_of_committed_start {p₀ : Proc} {fromMsgID : ℕ} (hlog : Reached p₀)
    (hlow : p₀.log.retainedFloor ≤ fromMsgID) (hhigh : fromMsgID ≤ p₀.firstUncommitted)
    (hrun : Run Reading.step (fun _ a => a.Intact ∧ a.KeepsAll) ⟨p₀, fromMsgID, .start, []⟩ as t)
    (hstep : t.step a = some t') : Arrives t a := by
  obtain ⟨id₀, hi₀, -⟩ := hlog.inv
  have hstart : ReadOk id₀ (some (fromMsgID - id₀)) ⟨p₀, fromMsgID, .start, []⟩ :=
    readOk_start hi₀ fun n hn => mem_some.mp hn ▸ goal_of_range hi₀.shape hlow hhigh
  have hok : ReadOk id₀ (some (fromMsgID - id₀)) t := hrun.invariant hstart
    fun _ _ _ ha hok hstep => hok.of_step ha.1 ha.2.spares (fun _ => ha.2) hstep
  exact hok.arrives hstep

/-- One append, synced before it returns. -/
def oneAppend : List ReadAction :=
  [.log (.append emptyMessage), .log (.write none), .log (.fsync true)]

/-- `NewReader` is asked for id 1 on an empty log. Record 0 is committed before it scans, so that
the scan ends behind it, and `Next` returns record 1. -/
def caughtUpRun : List ReadAction :=
  [.read, .read] ++ oneAppend ++ [.read, .read, .read] ++ oneAppend ++ [.read, .read, .read]

/-- The theorem at a reader that was asked for an id beyond the last one. -/
theorem reader_above_start_caughtUp :
    ∃ p₀ t, Reached p₀ ∧ p₀.log.nextMsgID = 0 ∧
      Run Reading.step (fun t a => a.Intact ∧ Spares t a ∧ Arrives t a) ⟨p₀, 1, .start, []⟩
        caughtUpRun t ∧
      t.out.map (fun r => r.msgID.toNat) = [1] ∧ ∀ r ∈ t.out, 1 ≤ r.msgID.toNat := by
  have hopen := openLog_nil .perMessage 1000
  obtain ⟨t, ht, hout⟩ : ∃ t, Run Reading.step (fun t a => a.Intact ∧ Spares t a ∧ Arrives t a)
      ⟨.empty .perMessage 1000, 1, .start, []⟩ caughtUpRun t ∧
      t.out.map (fun r => r.msgID.toNat) = [1] := by
    decide +kernel
  exact ⟨_, t, .opened hopen, rfl, ht, hout, reader_above_start (.opened hopen) ht⟩

/-- A reader goes below its start. `NewReader` is asked for id 5 on an empty log and finds nothing
to read; record 0 is appended, and `Next` returns it. -/
theorem reader_below_start :
    ∃ p₀ t, Reached p₀ ∧
      Run Reading.step (fun _ a => a.Intact ∧ a.KeepsAll) ⟨p₀, 5, .start, []⟩
        ([.read, .read, .read] ++ oneAppend ++ [.read, .read, .read]) t ∧
      t.out.map (fun r => r.msgID.toNat) = [0] := by
  obtain ⟨t, ht⟩ : ∃ t, Run Reading.step (fun _ a => a.Intact ∧ a.KeepsAll)
      ⟨.empty .perMessage 1000, 5, .start, []⟩
      ([.read, .read, .read] ++ oneAppend ++ [.read, .read, .read]) t ∧
      t.out.map (fun r => r.msgID.toNat) = [0] := by
    decide +kernel
  exact ⟨_, t, .opened (openLog_nil .perMessage 1000), ht⟩

end ToyMQ.Wal
