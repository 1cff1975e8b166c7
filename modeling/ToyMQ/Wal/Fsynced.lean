import ToyMQ.Wal.Committer

/-!
# What group commit has fsynced

In batched mode an append returns success when `committed` has passed its end. Then its frame lies
in the part of a segment file that an fsync has covered. `durable_before_visible` says so in logical
offsets, which needs every write to be whole. Here the frame itself is followed (`Segment.Synced`),
so that writes may stop half-way, as long as every fsync of an open descriptor succeeds.

`Kept` is the invariant. An append that waits is fsynced already, or its frame is in the active
segment and its end is above `committed`: `rotate` leaves no segment behind with bytes that are not
committed. The committer's snapshot relies on the same for the segment that it has taken.
-/

namespace ToyMQ.Wal

open Lib List

/-! ## A frame in a file -/

def Segment.Stores (s : Segment) (rec : Record) : Prop :=
  ∃ before after, s.f.data = before ++ codec.frame rec ++ after

/-- The frame of the record is in the part of the file that an fsync has covered. -/
def Segment.Synced (s : Segment) (rec : Record) : Prop :=
  ∃ before after, s.f.data = before ++ codec.frame rec ++ after ∧
    (before ++ codec.frame rec).length ≤ s.f.synced

namespace Segment

variable {s : Segment} {rec : Record}

/-- An fsync covers what is in the file. -/
theorem Stores.sync (h : s.Stores rec) : s.sync.Synced rec := by
  obtain ⟨before, after, hdata⟩ := h
  refine ⟨before, after, hdata, ?_⟩
  show _ ≤ s.f.data.length
  rw [hdata]
  simp

theorem Synced.syncAt (h : s.Synced rec) (t : ℕ) : (syncAt t s).Synced rec := by
  unfold Wal.syncAt
  split_ifs
  · obtain ⟨before, after, hdata, -⟩ := h
    exact Stores.sync ⟨before, after, hdata⟩
  · exact h

theorem Stores.syncAt (h : s.Stores rec) (t : ℕ) : (syncAt t s).Stores rec := by
  unfold Wal.syncAt
  split_ifs
  · exact h
  · exact h

variable {s' : Segment} {bs : Bytes}

/-- What is written behind a frame leaves it where it is. -/
theorem Stores.append (h : s.Stores rec) (hdata : s'.f.data = s.f.data ++ bs) : s'.Stores rec := by
  obtain ⟨before, after, heq⟩ := h
  exact ⟨before, after ++ bs, by rw [hdata, heq, append_assoc]⟩

theorem Synced.append (h : s.Synced rec) (hdata : s'.f.data = s.f.data ++ bs)
    (hsynced : s'.f.synced = s.f.synced) : s'.Synced rec := by
  obtain ⟨before, after, heq, hle⟩ := h
  exact ⟨before, after ++ bs, by rw [hdata, heq, append_assoc], hsynced ▸ hle⟩

theorem stores_withRecord (s : Segment) (rec : Record) : (s.withRecord rec).Stores rec :=
  ⟨s.f.data, [], (append_nil _).symm⟩

end Segment

/-- The frame of the record is fsynced, in one of the segments. -/
def Proc.Fsynced (p : Proc) (rec : Record) : Prop := ∃ s ∈ p.all, s.Synced rec

/-- Every frame that is fsynced stays so. -/
def Proc.Preserves (p p' : Proc) : Prop :=
  ∀ s ∈ p.all, ∃ s' ∈ p'.all, ∀ rec, s.Synced rec → s'.Synced rec

namespace Proc

variable {p p' : Proc} {rec : Record}

theorem Fsynced.of_preserves (h : p.Fsynced rec) (hp : p.Preserves p') : p'.Fsynced rec := by
  obtain ⟨s, hs, hsynced⟩ := h
  obtain ⟨s', hs', hkeeps⟩ := hp s hs
  exact ⟨s', hs', hkeeps rec hsynced⟩

theorem Preserves.of_all (h : p'.all = p.all) : p.Preserves p' :=
  fun s hs => ⟨s, h ▸ hs, fun _ hrec => hrec⟩

theorem mem_all_active (p : Proc) : p.log.active ∈ p.all :=
  mem_append_right _ (mem_singleton_self _)

theorem preserves_syncSegment (p : Proc) (t : ℕ) : p.Preserves (p.syncSegment t) := by
  intro s hs
  rw [p.all_eq_gone_append] at hs
  rcases mem_append.mp hs with hgone | hlinked
  · exact ⟨s, all_syncSegment p t ▸ mem_append_left _ hgone, fun _ hrec => hrec⟩
  · refine ⟨syncAt t s, ?_, fun _ hrec => hrec.syncAt t⟩
    exact all_syncSegment p t ▸ mem_append_right _ (List.mem_map_of_mem hlinked)

/-- A write to the active segment takes nothing back. -/
theorem preserves_of_write {bs : Bytes} (holder : p'.older = p.older)
    (hdata : p'.log.active.f.data = p.log.active.f.data ++ bs)
    (hsynced : p'.log.active.f.synced = p.log.active.f.synced) : p.Preserves p' := by
  intro s hs
  rcases mem_append.mp hs with hold | hactive
  · exact ⟨s, mem_append_left _ (holder ▸ hold), fun _ hrec => hrec⟩
  · rw [mem_singleton.mp hactive]
    exact ⟨_, p'.mem_all_active, fun _ hrec => hrec.append hdata hsynced⟩

theorem preserves_rotated (p : Proc) : p.Preserves p.rotated := by
  have hall : p.rotated.all = p.all ++ [p.nextSegment] := by
    simp [Proc.rotated, Proc.all, Proc.older]
  exact fun s hs => ⟨s, hall ▸ mem_append_left _ hs, fun _ hrec => hrec⟩

/-- An fsync of the active segment covers its frames. -/
theorem fsynced_of_syncActive (h : p.log.active.Stores rec) {t : ℕ} (ht : t = p.log.active.index) :
    (p.syncSegment t).Fsynced rec := by
  refine ⟨syncAt t p.log.active, (p.syncSegment t).mem_all_active, ?_⟩
  rw [syncAt, if_pos ht.symm]
  exact h.sync

end Proc

/-! ## The invariant -/

/-- Where the call with the mutex can be in batched mode, while no segment is dropped. -/
def Holder.batched : Holder → Bool
  | .free | .rotateSync _ | .rotateCreate _ | .write _ => true
  | .fsync _ _ | .removing => false

/-- What the committer knows of the appends that its snapshot covers. -/
def FlusherKept (p : Proc) : Flusher → Prop
  | .idle => True
  | .syncing snap target => snap ≤ p.log.written ∧
    ∀ w ∈ p.waiting, w.2 ≤ snap → p.Fsynced w.1 ∨ target = p.log.active.index
  | .publish snap ok => snap ≤ p.log.written ∧
    (ok = true → ∀ w ∈ p.waiting, w.2 ≤ snap → p.Fsynced w.1)

variable {p p' : Proc}

/-- When all who wait are fsynced, the snapshot is. -/
theorem FlusherKept.of_fsynced {f : Flusher} (h : FlusherKept p f)
    (hwritten : p'.log.written = p.log.written) (hall : ∀ w ∈ p'.waiting, p'.Fsynced w.1) :
    FlusherKept p' f := by
  cases f with
  | idle => trivial
  | syncing => exact ⟨hwritten ▸ h.1, fun w hw _ => .inl (hall w hw)⟩
  | publish => exact ⟨hwritten ▸ h.1, fun _ w hw _ => hall w hw⟩

structure Kept (p : Proc) : Prop where
  mode : p.log.syncMode = .batched
  committed_le : p.log.committed ≤ p.log.written
  /-- `rotate` creates a file when everything is committed. -/
  create : ∀ rec, p.holder = .rotateCreate rec → p.log.written ≤ p.log.committed
  holder : p.holder.batched = true
  acked : ∀ w ∈ p.acked, p.Fsynced w.1
  waiting_le : ∀ w ∈ p.waiting, w.2 ≤ p.log.written
  /-- An append that waits is fsynced, or its frame is in the active segment. -/
  waiting : ∀ w ∈ p.waiting, p.Fsynced w.1 ∨
    (p.log.committed < w.2 ∧ p.log.active.Stores w.1)
  flusher : FlusherKept p p.flusher

namespace Kept

variable {p p' : Proc}

/-- Who waits for a committed offset is fsynced. -/
theorem fsynced (h : Kept p) {w : Record × ℕ} (hw : w ∈ p.waiting)
    (hle : w.2 ≤ p.log.committed) : p.Fsynced w.1 := by
  rcases h.waiting w hw with hsynced | ⟨hlt, -⟩
  · exact hsynced
  · exact absurd hle (Nat.not_le.mpr hlt)

/-- A step that publishes nothing, stays in the active segment, leaves the committer alone and lets
nobody start to wait. -/
theorem carry (h : Kept p) (hkeeps : p.Preserves p')
    (hmode : p'.log.syncMode = p.log.syncMode) (hcommitted : p'.log.committed = p.log.committed)
    (hwritten : p.log.written ≤ p'.log.written) (hindex : p'.log.active.index = p.log.active.index)
    (hactive : ∀ rec, p.log.active.Stores rec → p'.log.active.Stores rec)
    (hwaiting : ∀ w ∈ p'.waiting, w ∈ p.waiting)
    (hacked : ∀ w ∈ p'.acked, w ∈ p.acked ∨ p'.Fsynced w.1) (hflusher : p'.flusher = p.flusher)
    (hcreate : ∀ rec, p'.holder = .rotateCreate rec → p'.log.written ≤ p'.log.committed)
    (hholder : p'.holder.batched = true) : Kept p' := by
  refine
    { mode := hmode.trans h.mode
      committed_le := hcommitted ▸ h.committed_le.trans hwritten
      create := hcreate
      holder := hholder
      acked := fun w hw => ?_
      waiting_le := fun w hw => (h.waiting_le w (hwaiting w hw)).trans hwritten
      waiting := fun w hw => ?_
      flusher := ?_ }
  · rcases hacked w hw with hold | hnew
    · exact (h.acked w hold).of_preserves hkeeps
    · exact hnew
  · rw [hcommitted]
    exact (h.waiting w (hwaiting w hw)).imp (fun hs => hs.of_preserves hkeeps)
      fun hst => ⟨hst.1, hactive _ hst.2⟩
  · have hf := h.flusher
    rw [hflusher]
    cases hp : p.flusher with
    | idle => trivial
    | syncing =>
      rw [hp] at hf
      refine ⟨hf.1.trans hwritten, fun w hw hle => ?_⟩
      rw [hindex]
      exact (hf.2 w (hwaiting w hw) hle).imp_left fun hs => hs.of_preserves hkeeps
    | publish =>
      rw [hp] at hf
      exact ⟨hf.1.trans hwritten,
        fun hok w hw hle => (hf.2 hok w (hwaiting w hw) hle).of_preserves hkeeps⟩

/-- A step that only lets the call with the mutex go on, or return. -/
theorem of_holder (h : Kept p) (hlog : p'.log = p.log) (hall : p'.all = p.all)
    (hwaiting : ∀ w ∈ p'.waiting, w ∈ p.waiting)
    (hacked : ∀ w ∈ p'.acked, w ∈ p.acked ∨ p.Fsynced w.1) (hflusher : p'.flusher = p.flusher)
    (hcreate : ∀ rec, p'.holder = .rotateCreate rec → p.log.written ≤ p.log.committed)
    (hholder : p'.holder.batched = true) : Kept p' := by
  have hkeeps : p.Preserves p' := .of_all hall
  refine h.carry hkeeps (by rw [hlog]) (by rw [hlog]) (by rw [hlog]) (by rw [hlog])
    (fun rec hrec => by rw [hlog]; exact hrec) hwaiting (fun w hw => ?_) hflusher
    (fun rec hrec => by rw [hlog]; exact hcreate rec hrec) hholder
  exact (hacked w hw).imp_right fun hs => hs.of_preserves hkeeps

/-- `rotate` syncs, and publishes all that was written. -/
theorem rotateSync (h : Kept p) (rec : Record) :
    Kept { (p.syncSegment p.log.active.index).commit p.log.written with
      holder := .rotateCreate rec } := by
  have hkeeps := p.preserves_syncSegment p.log.active.index
  -- Everybody who waits is fsynced now.
  have hall : ∀ w ∈ p.waiting, (p.syncSegment p.log.active.index).Fsynced w.1 := by
    intro w hw
    rcases h.waiting w hw with hsynced | ⟨-, hstores⟩
    · exact hsynced.of_preserves hkeeps
    · exact Proc.fsynced_of_syncActive hstores rfl
  exact
    { mode := h.mode
      committed_le := le_rfl
      create := fun _ _ => le_rfl
      holder := rfl
      acked := fun w hw => (h.acked w hw).of_preserves hkeeps
      waiting_le := h.waiting_le
      waiting := fun w hw => .inl (hall w hw)
      flusher := h.flusher.of_fsynced rfl hall }

/-- `rotate` goes on to a new segment. -/
theorem rotateCreate (h : Kept p) {rec : Record} (hh : p.holder = .rotateCreate rec) :
    Kept { p.rotated with holder := .write rec } := by
  have hkeeps := p.preserves_rotated
  have hall : ∀ w ∈ p.waiting, p.rotated.Fsynced w.1 := fun w hw =>
    (h.fsynced hw ((h.waiting_le w hw).trans (h.create rec hh))).of_preserves hkeeps
  exact
    { mode := h.mode
      committed_le := h.committed_le
      create := fun _ heq => by cases heq
      holder := rfl
      acked := fun w hw => (h.acked w hw).of_preserves hkeeps
      waiting_le := h.waiting_le
      waiting := fun w hw => .inl (hall w hw)
      flusher := h.flusher.of_fsynced rfl hall }

/-- After its write an append waits. -/
theorem fence_eq (h : Kept p) (herr : p.log.commitErr = false) (rec : Record) :
    p.log.committed < (p.wrote rec).log.written ∧
      (p.wrote rec).fence rec =
        { p.wrote rec with
          holder := .free, waiting := p.waiting ++ [(rec, (p.wrote rec).log.written)] } := by
  have hlt : p.log.committed < (p.wrote rec).log.written :=
    h.committed_le.trans_lt (Nat.lt_add_of_pos_right (codec.length_frame_pos rec))
  refine ⟨hlt, ?_⟩
  have hmode : (p.wrote rec).log.syncMode = .batched := h.mode
  have hnot : ¬ (p.wrote rec).log.written ≤ (p.wrote rec).log.committed := Nat.not_le.mpr hlt
  have herr' : ¬ (p.wrote rec).log.commitErr = true := by
    show ¬ p.log.commitErr = true
    rw [herr]
    exact Bool.false_ne_true
  unfold Proc.fence
  rw [hmode]
  rw [if_neg hnot, if_neg herr']
  rfl

theorem write (h : Kept p) (herr : p.log.commitErr = false) (rec : Record) :
    Kept ((p.wrote rec).fence rec) := by
  obtain ⟨hlt, hfence⟩ := h.fence_eq herr rec
  have hgrow : p.log.written < (p.wrote rec).log.written :=
    Nat.lt_add_of_pos_right (codec.length_frame_pos rec)
  have hkeeps : p.Preserves (p.wrote rec) := Proc.preserves_of_write rfl rfl rfl
  have hold : Kept { p.wrote rec with holder := .free } :=
    h.carry hkeeps rfl rfl hgrow.le rfl (fun _ hrec => hrec.append rfl) (fun _ hw => hw)
      (fun _ hw => .inl hw) rfl (fun _ heq => by cases heq) rfl
  rw [hfence]
  refine
    { mode := hold.mode
      committed_le := hold.committed_le
      create := hold.create
      holder := hold.holder
      acked := hold.acked
      waiting_le := fun w hw => ?_
      waiting := fun w hw => ?_
      flusher := ?_ }
  · rcases mem_append.mp hw with hw | hw
    · exact hold.waiting_le w hw
    · rw [mem_singleton.mp hw]
  · rcases mem_append.mp hw with hw | hw
    · exact hold.waiting w hw
    · rw [mem_singleton.mp hw]
      exact .inr ⟨hlt, p.log.active.stores_withRecord rec⟩
  · -- The new end is above the committer's snapshot.
    have hsnap := h.flusher
    have hf : FlusherKept { p.wrote rec with holder := .free } p.flusher := hold.flusher
    show FlusherKept _ p.flusher
    cases hp : p.flusher with
    | idle => trivial
    | syncing =>
      rw [hp] at hf hsnap
      refine ⟨hf.1, fun w hw hle => ?_⟩
      rcases mem_append.mp hw with hw | hw
      · exact hf.2 w hw hle
      · rw [mem_singleton.mp hw] at hle
        exact absurd (hle.trans hsnap.1) (Nat.not_le.mpr hgrow)
    | publish =>
      rw [hp] at hf hsnap
      refine ⟨hf.1, fun hok w hw hle => ?_⟩
      rcases mem_append.mp hw with hw | hw
      · exact hf.2 hok w hw hle
      · rw [mem_singleton.mp hw] at hle
        exact absurd (hle.trans hsnap.1) (Nat.not_le.mpr hgrow)

/-- The committer's fsync covers its snapshot. -/
theorem flushSync (h : Kept p) {snap target : ℕ} (hf : p.flusher = .syncing snap target) :
    Kept { p.syncSegment target with flusher := .publish snap true } := by
  have hkeeps := p.preserves_syncSegment target
  have hsnap := h.flusher
  rw [hf] at hsnap
  have hstores : ∀ w ∈ p.waiting, p.Fsynced w.1 ∨
      (p.log.committed < w.2 ∧ p.log.active.Stores w.1) := h.waiting
  refine
    { mode := h.mode
      committed_le := h.committed_le
      create := h.create
      holder := h.holder
      acked := fun w hw => (h.acked w hw).of_preserves hkeeps
      waiting_le := h.waiting_le
      waiting := fun w hw => ?_
      flusher := ⟨hsnap.1, fun _ w hw hle => ?_⟩ }
  · exact (hstores w hw).imp (fun hs => hs.of_preserves hkeeps)
      fun hst => ⟨hst.1, hst.2.syncAt target⟩
  · rcases hsnap.2 w hw hle with hsynced | htarget
    · exact hsynced.of_preserves hkeeps
    · rcases hstores w hw with hsynced | ⟨-, hst⟩
      · exact hsynced.of_preserves hkeeps
      · exact Proc.fsynced_of_syncActive hst htarget

/-- The committer publishes its snapshot. -/
theorem flushEnd (h : Kept p) {snap : ℕ} (hf : p.flusher = .publish snap true) :
    Kept { p with
      flusher := .idle
      log := { p.log with
        committed := if p.log.committed < snap then snap else p.log.committed } } := by
  have hsnap := h.flusher
  rw [hf] at hsnap
  split_ifs with hlt
  · refine ⟨h.mode, hsnap.1, fun rec hrec => (h.create rec hrec).trans hlt.le, h.holder, h.acked,
      h.waiting_le, fun w hw => ?_, trivial⟩
    rcases Nat.lt_or_ge snap w.2 with habove | hbelow
    · exact (h.waiting w hw).imp_right fun hst => ⟨habove, hst.2⟩
    · exact .inl (hsnap.2 rfl w hw hbelow)
  · exact ⟨h.mode, h.committed_le, h.create, h.holder, h.acked, h.waiting_le, h.waiting, trivial⟩

end Kept

/-- The step is one of `DropSegmentsBefore`. -/
def Action.drops : Action → Bool
  | .drop _ | .remove _ => true
  | _ => false

/-- Every other step keeps the invariant. -/
theorem kept_of_step {a : Action} (ha : a.drops = false) (hs : Sound p) (h : Kept p)
    (hstep : Step p a p') : Kept p' := by
  cases hstep with
  | appendTooLarge | appendRotateSync | appendWrite | rotateSyncFail | rotateCreateFail =>
    exact h.of_holder rfl rfl (fun _ hw => hw) (fun _ hw => .inl hw) rfl
      (fun _ heq => by cases heq) rfl
  | appendRotateCreate hfree hroom hfit hrot hle =>
    exact h.of_holder rfl rfl (fun _ hw => hw) (fun _ hw => .inl hw) rfl (fun _ _ => hle) rfl
  | rotateSync => exact h.rotateSync _
  | rotateCreate hh => exact h.rotateCreate hh
  | write => exact h.write hs.commitErr _
  | writeTorn =>
    exact h.carry (Proc.preserves_of_write rfl rfl rfl) rfl rfl le_rfl rfl
      (fun _ hrec => hrec.append rfl) (fun _ hw => hw) (fun _ hw => .inl hw) rfl
      (fun _ heq => by cases heq) rfl
  | fsync hh | fsyncFail hh =>
    -- In batched mode no append syncs by itself.
    have hbatched := h.holder
    rw [hh] at hbatched
    cases hbatched
  | @resume i rec stop hfree hi hle =>
    refine h.of_holder rfl rfl (fun _ hw => mem_of_mem_eraseIdx hw) (fun w hw => ?_) rfl
      (fun _ heq => by cases heq) rfl
    rcases mem_append.mp hw with hw | hw
    · exact .inl hw
    · rw [mem_singleton.mp hw]
      exact .inr (h.fsynced (mem_of_getElem? hi) hle)
  | resumeFail =>
    exact h.of_holder rfl rfl (fun _ hw => mem_of_mem_eraseIdx hw) (fun _ hw => .inl hw) rfl
      (fun _ heq => by cases heq) rfl
  | flushBegin =>
    refine ⟨h.mode, h.committed_le, h.create, h.holder, h.acked, h.waiting_le, h.waiting, ?_⟩
    -- What waits and is not fsynced is in the active segment, which is the one to be synced.
    exact ⟨le_rfl, fun w hw _ => .inr hs.syncFn⟩
  | flushSync hf => exact h.flushSync hf
  | flushSyncFail hf =>
    have hsnap := h.flusher
    rw [hf] at hsnap
    exact ⟨h.mode, h.committed_le, h.create, h.holder, h.acked, h.waiting_le, h.waiting,
      hsnap.1, fun hok => absurd hok Bool.false_ne_true⟩
  | flushEnd hfree hf => exact h.flushEnd hf
  | flushEndFail hfree hf => exact absurd hf (hs.publish _)
  | dropNone | drop | remove => cases ha

/-- The invariant holds of a log that was just opened. -/
theorem kept_of_openLog {segmentBytes : ℕ} {d : Dir} (h : openLog .batched segmentBytes d = .ok p) :
    Kept p ∧ p.waiting = [] := by
  obtain ⟨strays, sealed, active, acc, rfl⟩ := start_of_openLog h
  refine ⟨?_, rfl⟩
  exact
    { mode := rfl
      committed_le := le_rfl
      create := fun _ _ => le_rfl
      holder := rfl
      acked := fun w hw => absurd hw not_mem_nil
      waiting_le := fun w hw => absurd hw not_mem_nil
      waiting := fun w hw => absurd hw not_mem_nil
      flusher := trivial }

end ToyMQ.Wal
