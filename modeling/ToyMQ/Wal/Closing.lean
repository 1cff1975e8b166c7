import ToyMQ.Wal.Fsynced

/-!
# Closing a log under group commit

`Close` closes `stopCommit` and waits until the committer has ended, which makes a last flush before
that. Then it closes the files and returns. Nothing tells an `Append` that this is going on: it
writes when it has the mutex and the descriptor is open, and then waits for a committer.

`Closing` is a log in batched mode with one call of `Close`, in which every fsync of an open
descriptor succeeds. `close_strands_nobody` says that `Close` leaves no append behind when none
writes after the last flush has looked at what was written. `late_append_stranded` is a run in which
one does, and `late_write_strands` says that this is what comes of every such write, unless another
I/O operation fails.
-/

namespace ToyMQ.Wal

open Lib List Option

/-! ## The system -/

/-- How far `Close` has come, and the committer with it. -/
inductive Stage where
  /-- `Close` has not been called. -/
  | running
  /-- `stopCommit` is closed. -/
  | stopping
  /-- The committer is in its last flush, and has looked at what was written. -/
  | flushing
  /-- The committer has ended, and `commitDone` is closed. -/
  | exited
  /-- `Close` has closed the files and returned. -/
  | closed
deriving DecidableEq, Repr

/-- The committer has looked at `written` for the last time. -/
def Stage.looked : Stage → Bool
  | .running | .stopping => false
  | .flushing | .exited | .closed => true

/-- A log with one call of `Close`. -/
structure Closing where
  proc : Proc
  stage : Stage
  /-- The ends of the appends that were woken and have not gone back to `cond.Wait`. -/
  woken : Finset ℕ
  /-- The segments whose descriptors `Close` has closed, by index. -/
  closed : Finset ℕ

/-- One atomic step of an append, the committer or `Close`. -/
inductive ClosingAction where
  | append (rec : Record)
  | rotateSync
  | rotateCreate (ok : Bool)
  | write (cut : Option ℕ)
  /-- An append that was woken looks again. -/
  | resume (i : ℕ)
  /-- A tick lets the committer begin a flush. -/
  | tick
  | flushSync
  | flushEnd
  /-- `Close` closes `stopCommit`. -/
  | stop
  /-- The committer receives the stop, and begins its last flush. -/
  | lastFlush
  /-- The committer ends. -/
  | exit
  /-- `Close` takes the mutex, closes the files and returns. -/
  | closeFiles
deriving DecidableEq, Repr

namespace Closing

/-- A log that was just opened. -/
def new (p : Proc) : Closing := ⟨p, .running, ∅, ∅⟩

/-- The descriptor of the active segment is open. -/
def activeOpen (s : Closing) : Bool := s.proc.log.active.index ∉ s.closed

/-- The log moves on. -/
def withProc (s : Closing) (p : Proc) : Closing := { s with proc := p }

/-- The log moves on, and `cond.Broadcast` wakes all that wait. -/
def broadcast (s : Closing) (p : Proc) : Closing :=
  { s with proc := p, woken := (p.waiting.map Prod.snd).toFinset }

/-- A step. An fsync succeeds when the descriptor is open; a closed one takes no byte of a write. -/
def step (s : Closing) : ClosingAction → Option Closing
  | .append rec => (Wal.step s.proc (.append rec)).map s.withProc
  | .rotateSync =>
    if s.activeOpen then (Wal.step s.proc (.rotateSync true)).map s.broadcast
    else (Wal.step s.proc (.rotateSync false)).map s.withProc
  | .rotateCreate ok => (Wal.step s.proc (.rotateCreate ok)).map s.withProc
  | .write cut =>
    -- An open descriptor may fail after any number of bytes.
    if s.activeOpen ∨ cut = some 0 then (Wal.step s.proc (.write cut)).map s.withProc else none
  | .resume i =>
    match s.proc.waiting[i]? with
    | none => none
    | some (_, stop) =>
      if s.proc.holder = .free ∧ stop ∈ s.woken then
        -- It returns when its end is committed or a flush has failed, and else it waits again.
        match Wal.step s.proc (.resume i) with
        | some p => some (s.withProc p)
        | none => some { s with woken := s.woken.erase stop }
      else none
  | .tick => if s.stage.looked then none else (Wal.step s.proc .flushBegin).map s.withProc
  | .flushSync => (Wal.step s.proc (.flushSync true)).map s.withProc
  | .flushEnd => (Wal.step s.proc .flushEnd).map s.broadcast
  | .stop => if s.stage = .running then some { s with stage := .stopping } else none
  | .lastFlush =>
    -- `flush` returns at once when there is nothing to do.
    if s.stage = .stopping ∧ s.proc.holder = .free ∧ s.proc.flusher = .idle then
      some { s with stage := .flushing, proc := (Wal.step s.proc .flushBegin).getD s.proc }
    else none
  | .exit =>
    if s.stage = .flushing ∧ s.proc.flusher = .idle then some { s with stage := .exited } else none
  | .closeFiles =>
    if s.stage = .exited ∧ s.proc.holder = .free then
      some { s with
        stage := .closed
        closed := (s.proc.log.segments.map Segment.index).toFinset }
    else none

/-- What a step can do. -/
inductive Moves (s : Closing) : ClosingAction → Closing → Prop where
  | append {rec : Record} {p : Proc} (h : Step s.proc (.append rec) p) :
    Moves s (.append rec) (s.withProc p)
  | rotateSync {p : Proc} (hopen : s.activeOpen = true) (h : Step s.proc (.rotateSync true) p) :
    Moves s .rotateSync (s.broadcast p)
  | rotateSyncClosed {p : Proc} (hclosed : s.activeOpen = false)
    (h : Step s.proc (.rotateSync false) p) : Moves s .rotateSync (s.withProc p)
  | rotateCreate {ok : Bool} {p : Proc} (h : Step s.proc (.rotateCreate ok) p) :
    Moves s (.rotateCreate ok) (s.withProc p)
  | write {cut : Option ℕ} {p : Proc} (hopen : s.activeOpen = true ∨ cut = some 0)
    (h : Step s.proc (.write cut) p) : Moves s (.write cut) (s.withProc p)
  | resume {i : ℕ} {p : Proc} (h : Step s.proc (.resume i) p) : Moves s (.resume i) (s.withProc p)
  /-- What it waits for is not there, and it waits again. -/
  | rewait {i : ℕ} {rec : Record} {stop : ℕ} (hi : s.proc.waiting[i]? = some (rec, stop))
    (hnot : ¬ stop ≤ s.proc.log.committed) :
    Moves s (.resume i) { s with woken := s.woken.erase stop }
  | tick {p : Proc} (hstage : s.stage.looked = false) (h : Step s.proc .flushBegin p) :
    Moves s .tick (s.withProc p)
  | flushSync {p : Proc} (h : Step s.proc (.flushSync true) p) : Moves s .flushSync (s.withProc p)
  | flushEnd {p : Proc} (h : Step s.proc .flushEnd p) : Moves s .flushEnd (s.broadcast p)
  | stop (hstage : s.stage = .running) : Moves s .stop { s with stage := .stopping }
  | lastFlush {p : Proc} (hstage : s.stage = .stopping) (h : Step s.proc .flushBegin p) :
    Moves s .lastFlush { s with stage := .flushing, proc := p }
  /-- There is nothing to flush. -/
  | lastFlushNone (hstage : s.stage = .stopping) (hidle : s.proc.flusher = .idle)
    (hnone : s.proc.log.syncMode = .batched → s.proc.log.committed < s.proc.log.written →
      s.proc.log.commitErr = true) :
    Moves s .lastFlush { s with stage := .flushing }
  | exit (hstage : s.stage = .flushing) (hidle : s.proc.flusher = .idle) :
    Moves s .exit { s with stage := .exited }
  | closeFiles (hstage : s.stage = .exited) (hfree : s.proc.holder = .free) :
    Moves s .closeFiles
      { s with stage := .closed, closed := (s.proc.log.segments.map Segment.index).toFinset }

theorem moves_of_step {s s' : Closing} {a : ClosingAction} (h : s.step a = some s') :
    Moves s a s' := by
  cases a with
  | append =>
    obtain ⟨p, hp, rfl⟩ := map_eq_some_iff.mp h
    exact .append (step_sound hp)
  | rotateSync =>
    dsimp only [step] at h
    split_ifs at h with hopen
    · obtain ⟨p, hp, rfl⟩ := map_eq_some_iff.mp h
      exact .rotateSync hopen (step_sound hp)
    · obtain ⟨p, hp, rfl⟩ := map_eq_some_iff.mp h
      exact .rotateSyncClosed (eq_false_of_ne_true hopen) (step_sound hp)
  | rotateCreate =>
    obtain ⟨p, hp, rfl⟩ := map_eq_some_iff.mp h
    exact .rotateCreate (step_sound hp)
  | write =>
    dsimp only [step] at h
    split_ifs at h with hopen
    obtain ⟨p, hp, rfl⟩ := map_eq_some_iff.mp h
    exact .write hopen (step_sound hp)
  | resume i =>
    rcases hi : s.proc.waiting[i]? with _ | ⟨rec, stop⟩
    · simp [step, hi] at h
    · simp only [step, hi] at h
      split_ifs at h with hguard
      rcases hp : Wal.step s.proc (.resume i) with _ | p
      · rw [hp] at h
        cases h
        refine .rewait hi fun hle => ?_
        simp [Wal.step, Proc.resume, hguard.1, hi, hle] at hp
      · rw [hp] at h
        cases h
        exact .resume (step_sound hp)
  | tick =>
    dsimp only [step] at h
    split_ifs at h with hstage
    obtain ⟨p, hp, rfl⟩ := map_eq_some_iff.mp h
    exact .tick (eq_false_of_ne_true hstage) (step_sound hp)
  | flushSync =>
    obtain ⟨p, hp, rfl⟩ := map_eq_some_iff.mp h
    exact .flushSync (step_sound hp)
  | flushEnd =>
    obtain ⟨p, hp, rfl⟩ := map_eq_some_iff.mp h
    exact .flushEnd (step_sound hp)
  | stop =>
    dsimp only [step] at h
    split_ifs at h with hstage
    cases h
    exact .stop hstage
  | lastFlush =>
    dsimp only [step] at h
    split_ifs at h with hguard
    rcases hp : Wal.step s.proc .flushBegin with _ | p
    · rw [hp] at h
      cases h
      refine .lastFlushNone hguard.1 hguard.2.2 fun hmode => ?_
      simpa [Wal.step, Proc.flushBegin, hguard.2.1, hguard.2.2, hmode] using hp
    · rw [hp] at h
      cases h
      exact .lastFlush hguard.1 (step_sound hp)
  | exit =>
    dsimp only [step] at h
    split_ifs at h with hguard
    cases h
    exact .exit hguard.1 hguard.2
  | closeFiles =>
    dsimp only [step] at h
    split_ifs at h with hguard
    cases h
    exact .closeFiles hguard.1 hguard.2

end Closing

/-! ## The steps of an append -/

/-- A step of an append that publishes nothing. -/
def Action.plain : Action → Bool
  | .append _ | .rotateSync false | .rotateCreate _ | .write _ | .resume _ => true
  | _ => false

section Plain

variable {p p' : Proc} {a : Action}

theorem sound_of_plain (ha : a.plain = true) (hs : Sound p) (hstep : Step p a p') : Sound p' := by
  cases a with
  | rotateSync =>
    cases hstep with
    | rotateSync => cases ha
    | rotateSyncFail => exact hs.keep rfl rfl
  | append rec => exact sound_of_step (a := .append rec) trivial trivial hs hstep
  | rotateCreate ok => exact sound_of_step (a := .rotateCreate ok) trivial trivial hs hstep
  | write cut => exact sound_of_step (a := .write cut) trivial trivial hs hstep
  | resume i => exact sound_of_step (a := .resume i) trivial trivial hs hstep
  | fsync | flushBegin | flushSync | flushEnd | drop | remove => cases ha

theorem drops_of_plain (ha : a.plain = true) : a.drops = false := by
  cases a with
  | drop | remove => cases ha
  | _ => rfl

theorem plain_of_step (ha : a.plain = true) (hs : Sound p) (h : Kept p) (hstep : Step p a p') :
    p'.log.committed = p.log.committed ∧ p'.flusher = p.flusher ∧
      ∀ w ∈ p'.waiting, w ∈ p.waiting ∨ p.log.committed < w.2 := by
  cases hstep with
  | appendTooLarge | appendRotateSync | appendRotateCreate | appendWrite | rotateSyncFail
  | rotateCreate | rotateCreateFail | writeTorn => exact ⟨rfl, rfl, fun _ hw => .inl hw⟩
  | @write rec =>
    obtain ⟨hlt, hfence⟩ := h.fence_eq hs.commitErr rec
    rw [hfence]
    refine ⟨rfl, rfl, fun w hw => ?_⟩
    rcases mem_append.mp hw with hw | hw
    · exact .inl hw
    · rw [mem_singleton.mp hw]
      exact .inr hlt
  | resume | resumeFail => exact ⟨rfl, rfl, fun _ hw => .inl (mem_of_mem_eraseIdx hw)⟩
  | rotateSync | fsync | fsyncFail | flushBegin | flushSync | flushSyncFail | flushEnd
  | flushEndFail | dropNone | drop | remove => cases ha

/-- Only a whole write moves `written`. -/
theorem written_of_plain (ha : a.plain = true) (hcut : a ≠ .write none) (hstep : Step p a p') :
    p'.log.written = p.log.written := by
  cases hstep with
  | write => exact absurd rfl hcut
  | rotateSync | fsync | fsyncFail | flushBegin | flushSync | flushSyncFail | flushEnd
  | flushEndFail | dropNone | drop | remove => cases ha
  | _ => rfl

end Plain

/-! ## The invariant -/

/-- The offset that will be committed when the committer is done with its flush. -/
def Proc.promised (p : Proc) : ℕ :=
  match p.flusher with
  | .idle => p.log.committed
  | .syncing snap _ | .publish snap _ => snap

namespace Closing

/-- The invariant. -/
structure Ok (s : Closing) : Prop where
  sound : Sound s.proc
  kept : Kept s.proc
  /-- Who waits for what is committed has been woken. -/
  woken : ∀ w ∈ s.proc.waiting, w.2 ≤ s.proc.log.committed → w.2 ∈ s.woken
  idle : s.stage = .exited ∨ s.stage = .closed → s.proc.flusher = .idle
  opened : s.stage ≠ .closed → s.closed = ∅

/-- The last flush covers everything written. -/
def Settled (s : Closing) : Prop := s.stage.looked = true → s.proc.log.written ≤ s.proc.promised

variable {s s' : Closing} {a : ClosingAction} {p : Proc}

variable {segmentBytes : ℕ} {d : Dir} {w : Record × ℕ} {b : Action}

theorem ok_new (h : openLog .batched segmentBytes d = .ok p) : (new p).Ok := by
  obtain ⟨hkept, hwaiting⟩ := kept_of_openLog h
  refine ⟨(sound_of_openLog h).1, hkept, fun w hw _ => ?_, fun hstage => ?_, fun _ => rfl⟩
  · replace hw : w ∈ p.waiting := hw
    rw [hwaiting] at hw
    exact absurd hw not_mem_nil
  · exact absurd hstage (by simp [new])

/-- A broadcast reaches all that wait. -/
theorem mem_woken_broadcast (s : Closing) {p : Proc} (hw : w ∈ p.waiting) :
    w.2 ∈ (s.broadcast p).woken :=
  List.mem_toFinset.mpr (List.mem_map_of_mem hw)

/-- An append takes a step that publishes nothing. -/
theorem Ok.of_plain (h : s.Ok) (hb : b.plain = true) (hstep : Step s.proc b p) :
    (s.withProc p).Ok := by
  obtain ⟨hcommitted, hflusher, hwaiting⟩ := plain_of_step hb h.sound h.kept hstep
  refine ⟨sound_of_plain hb h.sound hstep, kept_of_step (drops_of_plain hb) h.sound h.kept hstep,
    fun w hw hle => ?_, fun hstage => hflusher.trans (h.idle hstage), h.opened⟩
  replace hle : w.2 ≤ p.log.committed := hle
  rw [hcommitted] at hle
  rcases hwaiting w hw with hold | hnew
  · exact h.woken w hold hle
  · exact absurd hle (Nat.not_le.mpr hnew)

theorem Settled.of_plain (h : s.Settled) (hok : s.Ok) (hb : b.plain = true)
    (hcut : b = .write none → s.stage.looked = false) (hstep : Step s.proc b p) :
    (s.withProc p).Settled := by
  intro hlooked
  replace hlooked : s.stage.looked = true := hlooked
  obtain ⟨hcommitted, hflusher, -⟩ := plain_of_step hb hok.sound hok.kept hstep
  have hwritten : p.log.written = s.proc.log.written := by
    refine written_of_plain hb (fun heq => ?_) hstep
    rw [hcut heq] at hlooked
    cases hlooked
  have hpromised : p.promised = s.proc.promised := by
    unfold Proc.promised
    rw [hflusher, hcommitted]
  show p.log.written ≤ p.promised
  rw [hwritten, hpromised]
  exact h hlooked

theorem Ok.of_step (h : s.Ok) (hstep : Moves s a s') : s'.Ok := by
  cases hstep with
  | append hp | rotateSyncClosed hclosed hp | rotateCreate hp | write hopen hp | resume hp =>
    exact h.of_plain rfl hp
  | rotateSync hopen hp =>
    have hsound := sound_of_step (a := .rotateSync true) rfl trivial h.sound hp
    refine ⟨hsound, kept_of_step rfl h.sound h.kept hp, fun w hw _ => s.mem_woken_broadcast hw,
      fun hstage => ?_, h.opened⟩
    cases hp with
    | rotateSync => exact h.idle hstage
  | @rewait i rec stop hi hnot =>
    refine ⟨h.sound, h.kept, fun w hw hle => ?_, h.idle, h.opened⟩
    refine Finset.mem_erase.mpr ⟨?_, h.woken w hw hle⟩
    rintro rfl
    exact hnot hle
  | tick hstage hp =>
    have hsound := sound_of_step (a := .flushBegin) trivial trivial h.sound hp
    have hkept := kept_of_step rfl h.sound h.kept hp
    cases hp with
    | flushBegin =>
      refine ⟨hsound, hkept, h.woken, fun hended => ?_, h.opened⟩
      rcases hended with hended | hended
      all_goals
        replace hended : s.stage = _ := hended
        rw [hended] at hstage
        cases hstage
  | flushSync hp =>
    have hsound := sound_of_step (a := .flushSync true) rfl trivial h.sound hp
    have hkept := kept_of_step rfl h.sound h.kept hp
    cases hp with
    | flushSync hf | flushSyncFail hf =>
      refine ⟨hsound, hkept, h.woken, fun hended => ?_, h.opened⟩
      rw [h.idle hended] at hf
      cases hf
  | flushEnd hp =>
    have hsound := sound_of_step (a := .flushEnd) trivial trivial h.sound hp
    refine ⟨hsound, kept_of_step rfl h.sound h.kept hp, fun w hw _ => s.mem_woken_broadcast hw,
      fun _ => ?_, h.opened⟩
    cases hp with
    | flushEnd | flushEndFail => rfl
  | stop hstage | lastFlushNone hstage =>
    exact ⟨h.sound, h.kept, h.woken, fun hended => absurd hended (by simp),
      fun _ => h.opened (by rw [hstage]; decide)⟩
  | lastFlush hstage hp =>
    have hsound := sound_of_step (a := .flushBegin) trivial trivial h.sound hp
    have hkept := kept_of_step rfl h.sound h.kept hp
    cases hp with
    | flushBegin =>
      exact ⟨hsound, hkept, h.woken, fun hended => absurd hended (by simp),
        fun _ => h.opened (by rw [hstage]; decide)⟩
  | exit hstage hidle =>
    exact ⟨h.sound, h.kept, h.woken, fun _ => hidle, fun _ => h.opened (by rw [hstage]; decide)⟩
  | closeFiles hstage =>
    exact ⟨h.sound, h.kept, h.woken, fun _ => h.idle (.inl hstage), fun hne => absurd rfl hne⟩

/-- No append writes its frame after the committer has looked at `written` for the last time. -/
def Timely (s : Closing) (a : ClosingAction) : Prop := a = .write none → s.stage.looked = false

instance (s : Closing) (a : ClosingAction) : Decidable (Timely s a) :=
  inferInstanceAs (Decidable (_ → _))

theorem Settled.of_step (h : s.Settled) (hok : s.Ok) (ha : Timely s a) (hstep : Moves s a s') :
    s'.Settled := by
  cases hstep with
  | append hp | rotateSyncClosed hclosed hp | rotateCreate hp | resume hp =>
    exact h.of_plain hok rfl (fun heq => by cases heq) hp
  | rotateSync hopen hp =>
    -- It commits all that is written, and a flush under way is left alone.
    intro hlooked
    have hle := h hlooked
    cases hp with
    | rotateSync =>
      unfold Proc.promised at hle ⊢
      cases hf : s.proc.flusher with
      | idle =>
        dsimp only [broadcast, Proc.commit, Proc.syncSegment]
        rw [hf]
      | syncing | publish =>
        rw [hf] at hle
        dsimp only [broadcast, Proc.commit, Proc.syncSegment]
        rw [hf]
        exact hle
  | write hopen hp => exact h.of_plain hok rfl (fun heq => ha (by cases heq; rfl)) hp
  | rewait => exact h
  | tick hstage =>
    intro hlooked
    exact absurd (hstage.symm.trans hlooked) (by decide)
  | flushSync hp =>
    intro hlooked
    have hle := h hlooked
    unfold Proc.promised at hle
    cases hp with
    | flushSync hf | flushSyncFail hf =>
      rw [hf] at hle
      exact hle
  | flushEnd hp =>
    intro hlooked
    have hle := h hlooked
    unfold Proc.promised at hle
    cases hp with
    | @flushEnd snap hfree hf =>
      rw [hf] at hle
      split_ifs with hlt
      · exact hle
      · exact hle.trans (Nat.le_of_not_lt hlt)
    | flushEndFail hfree hf => exact absurd hf (hok.sound.publish _)
  | stop => exact fun hlooked => by cases hlooked
  | lastFlush hstage hp =>
    intro _
    cases hp with
    | flushBegin => exact le_rfl
  | lastFlushNone hstage hidle hnone =>
    intro _
    -- The committer returns at once only when everything is committed.
    have hle : s.proc.log.written ≤ s.proc.log.committed := by
      by_contra hnot
      have herr := hnone hok.kept.mode (Nat.lt_of_not_le hnot)
      rw [hok.sound.commitErr] at herr
      cases herr
    rw [Proc.promised, hidle]
    exact hle
  | exit hstage | closeFiles hstage => exact fun _ => h (by rw [hstage]; rfl)

variable {as : List ClosingAction}

theorem settled_of_run {p₀ : Proc} (hopen : openLog .batched segmentBytes d = .ok p₀)
    (hrun : Run step Timely (new p₀) as s) : s.Ok ∧ s.Settled := by
  have hnew : (new p₀).Settled := fun hlooked => by cases hlooked
  exact hrun.invariant (I := fun t => t.Ok ∧ t.Settled) ⟨ok_new hopen, hnew⟩
    fun _ _ _ ha h hstep =>
      ⟨h.1.of_step (moves_of_step hstep), h.2.of_step h.1 ha (moves_of_step hstep)⟩

theorem Settled.woken (h : s.Settled) (hok : s.Ok) (hclosed : s.stage = .closed) :
    ∀ w ∈ s.proc.waiting, w.2 ∈ s.woken ∧ w.2 ≤ s.proc.log.committed := by
  intro w hw
  have hall := h (by rw [hclosed]; rfl)
  rw [Proc.promised, hok.idle (.inr hclosed)] at hall
  have hle := (hok.kept.waiting_le w hw).trans hall
  exact ⟨hok.woken w hw hle, hle⟩

/-! ## The calls return -/

/-- The call that holds the mutex can always go on and return. -/
theorem Ok.release (h : s.Ok) :
    ∃ as s', Run step Timely s as s' ∧ s'.stage = s.stage ∧ s'.proc.holder = .free ∧
      s'.proc.waiting = s.proc.waiting ∧ s'.proc.acked = s.proc.acked := by
  have hbatched := h.kept.holder
  cases hh : s.proc.holder with
  | free => exact ⟨[], s, .nil s, rfl, hh, rfl, rfl⟩
  | rotateCreate rec =>
    have hstep : s.step (.rotateCreate false) = some (s.withProc (s.proc.fail rec)) := by
      simp [step, Wal.step, hh]
    exact ⟨_, _, .single (fun heq => by cases heq) hstep, rfl, rfl, rfl, rfl⟩
  | write rec =>
    have hstep : s.step (.write (some 0)) =
        some (s.withProc ((s.proc.torn rec 0).fail rec)) := by
      simp [step, Wal.step, hh]
    exact ⟨_, _, .single (fun heq => by cases heq) hstep, rfl, rfl, rfl, rfl⟩
  | rotateSync rec =>
    by_cases hopen : s.activeOpen = true
    · -- It goes on to create the next file, which may fail.
      let p := { (s.proc.syncSegment s.proc.log.active.index).commit s.proc.log.written with
        holder := .rotateCreate rec }
      have hsync : s.step .rotateSync = some (s.broadcast p) := by
        simp [step, Wal.step, hh, hopen, p]
      have hcreate : (s.broadcast p).step (.rotateCreate false) =
          some ((s.broadcast p).withProc (p.fail rec)) := rfl
      exact ⟨_, _, .cons (fun heq => by cases heq) hsync
        (.single (fun heq => by cases heq) hcreate), rfl, rfl, rfl, rfl⟩
    · have hstep : s.step .rotateSync = some (s.withProc (s.proc.fail rec)) := by
        simp [step, Wal.step, hh, hopen]
      exact ⟨_, _, .single (fun heq => by cases heq) hstep, rfl, rfl, rfl, rfl⟩
  | fsync | removing =>
    rw [hh] at hbatched
    cases hbatched

theorem drain (hfree : s.proc.holder = .free)
    (hwoken : ∀ w ∈ s.proc.waiting, w.2 ∈ s.woken ∧ w.2 ≤ s.proc.log.committed) :
    ∃ as s', Run step Timely s as s' ∧ s'.proc.holder = .free ∧ s'.proc.waiting = [] ∧
      s'.proc.acked = s.proc.acked ++ s.proc.waiting := by
  -- One after the other, from the front of the list.
  induction hwaiting : s.proc.waiting generalizing s with
  | nil => exact ⟨[], s, .nil s, hfree, hwaiting, (append_nil _).symm⟩
  | cons w rest ih =>
    obtain ⟨rec, stop⟩ := w
    rw [hwaiting] at hwoken
    obtain ⟨hmem, hle⟩ := hwoken (rec, stop) mem_cons_self
    let t := s.withProc ({ s.proc with waiting := rest }.succeed rec stop)
    have hstep : s.step (.resume 0) = some t := by
      simp [step, Wal.step, Proc.resume, hwaiting, hfree, hmem, hle, t]
    obtain ⟨as, s', hrun, hfree', hnone, hacked⟩ := ih (s := t) rfl
      (fun w hw => hwoken w (mem_cons_of_mem _ hw)) rfl
    refine ⟨_, s', .cons (fun heq => by cases heq) hstep hrun, hfree', hnone, ?_⟩
    rw [hacked]
    show s.proc.acked ++ [(rec, stop)] ++ rest = _
    rw [append_assoc, singleton_append]

/-- `Close` strands nobody, over any interleaving of appends, ticks and `Close` in which no append
writes after the last flush has looked: when `Close` has returned, each append that still waits has
been woken and finds its end committed, all calls can go on and return, those that wait with
success, and an append that returns success or is about to is fsynced. -/
theorem close_strands_nobody {segmentBytes : ℕ} {d : Dir} {p₀ : Proc} {as : List ClosingAction}
    (hopen : openLog .batched segmentBytes d = .ok p₀) (hrun : Run step Timely (new p₀) as s)
    (hclosed : s.stage = .closed) :
    (∀ w ∈ s.proc.waiting, w.2 ∈ s.woken ∧ w.2 ≤ s.proc.log.committed) ∧
    (∃ as' s', Run step Timely s as' s' ∧ s'.proc.holder = .free ∧ s'.proc.waiting = [] ∧
      s'.proc.acked = s.proc.acked ++ s.proc.waiting) ∧
    ∀ w ∈ s.proc.acked ++ s.proc.waiting, s.proc.Fsynced w.1 := by
  obtain ⟨hok, hsettled⟩ := settled_of_run hopen hrun
  have hwoken := hsettled.woken hok hclosed
  refine ⟨hwoken, ?_, fun w hw => ?_⟩
  · obtain ⟨as₁, t, hrun₁, hstage, hfree, hwaiting, hacked⟩ := hok.release
    obtain ⟨hok', hsettled'⟩ := settled_of_run hopen (hrun.trans hrun₁)
    obtain ⟨as₂, s', hrun₂, hfree', hnone, hall⟩ :=
      drain hfree (hsettled'.woken hok' (hstage.trans hclosed))
    exact ⟨_, s', hrun₁.trans hrun₂, hfree', hnone, by rw [hall, hacked, hwaiting]⟩
  · rcases mem_append.mp hw with hw | hw
    · exact hok.kept.acked w hw
    · exact hok.kept.fsynced hw (hwoken w hw).2

/-- `Close` overtakes an append: the last flush covers it, and it is still to look when `Close` has
returned. The next append finds the descriptor closed. -/
def overtakenAppend : List ClosingAction :=
  [.append ⟨0, 1, [], [7], 0, 0⟩, .write none, .stop, .lastFlush, .flushSync, .flushEnd, .exit,
    .closeFiles, .append ⟨0, 2, [], [8], 0, 0⟩, .write (some 0)]

theorem close_strands_nobody_overtaken :
    ∃ p₀ s, openLog .batched 0 [] = .ok p₀ ∧ Run step Timely (new p₀) overtakenAppend s ∧
      (s.stage = .closed ∧ s.proc.waiting.length = 1 ∧ s.proc.failed.length = 1) ∧
      (∀ w ∈ s.proc.waiting, w.2 ∈ s.woken ∧ w.2 ≤ s.proc.log.committed) ∧
      (∃ as' s', Run step Timely s as' s' ∧ s'.proc.holder = .free ∧ s'.proc.waiting = [] ∧
        s'.proc.acked = s.proc.acked ++ s.proc.waiting) ∧
      ∀ w ∈ s.proc.acked ++ s.proc.waiting, s.proc.Fsynced w.1 := by
  have hopen := openLog_nil .batched 0
  obtain ⟨s, hs, h⟩ : ∃ s, Run step Timely (new (.empty .batched 0)) overtakenAppend s ∧
      s.stage = .closed ∧ s.proc.waiting.length = 1 ∧ s.proc.failed.length = 1 := by
    decide +kernel
  exact ⟨_, s, hopen, hs, h, close_strands_nobody hopen hs h.1⟩

/-! ## An append that comes too late -/

theorem mem_eraseIdx_of_committed {waiting : List (Record × ℕ)} {committed i stop : ℕ}
    {rec : Record} (hw : w ∈ waiting) (habove : committed < w.2)
    (hi : waiting[i]? = some (rec, stop)) (hle : stop ≤ committed) : w ∈ waiting.eraseIdx i := by
  obtain ⟨j, hj⟩ := getElem?_of_mem hw
  refine mem_eraseIdx_iff_getElem?.mpr ⟨j, fun hji => ?_, hj⟩
  rw [hji, hi] at hj
  cases hj
  exact Nat.not_le.mpr habove hle

/-- An append that waits, with an end that nothing can commit: the committer has ended, and the
descriptor that `rotate` would sync is closed. -/
structure Stuck (w : Record × ℕ) (s : Closing) : Prop where
  stage : s.stage = .closed
  closed : s.activeOpen = false
  idle : s.proc.flusher = .idle
  commitErr : s.proc.log.commitErr = false
  waits : w ∈ s.proc.waiting
  above : s.proc.log.committed < w.2
  le_written : w.2 ≤ s.proc.log.written
  holder : ∀ rec, s.proc.holder ≠ .rotateCreate rec

theorem Stuck.of_step (h : Stuck w s) (hstep : Moves s a s') : Stuck w s' ∧ s'.woken ⊆ s.woken := by
  have hpending : s.proc.log.committed < s.proc.log.written := h.above.trans_le h.le_written
  cases hstep with
  | append hp =>
    cases hp with
    -- `rotate` skips its sync only when everything is committed.
    | appendRotateCreate hfree hroom hfit hrot hle => exact absurd hle (Nat.not_le.mpr hpending)
    | appendTooLarge | appendRotateSync | appendWrite =>
      exact ⟨⟨h.stage, h.closed, h.idle, h.commitErr, h.waits, h.above, h.le_written,
        fun _ heq => by cases heq⟩, subset_rfl⟩
  | rotateSync hopen => exact absurd (h.closed.symm.trans hopen) (by decide)
  | rotateSyncClosed hclosed hp =>
    cases hp with
    | rotateSyncFail =>
      exact ⟨⟨h.stage, h.closed, h.idle, h.commitErr, h.waits, h.above, h.le_written,
        fun _ heq => by cases heq⟩, subset_rfl⟩
  | rotateCreate hp =>
    cases hp with
    | rotateCreate hh | rotateCreateFail hh => exact absurd hh (h.holder _)
  | write hopen hp =>
    rcases hopen with hopen | rfl
    · exact absurd (h.closed.symm.trans hopen) (by decide)
    · cases hp with
      | writeTorn =>
        exact ⟨⟨h.stage, h.closed, h.idle, h.commitErr, h.waits, h.above, h.le_written,
          fun _ heq => by cases heq⟩, subset_rfl⟩
  | resume hp =>
    cases hp with
    | @resume i rec stop hfree hi hle =>
      exact ⟨⟨h.stage, h.closed, h.idle, h.commitErr,
        mem_eraseIdx_of_committed h.waits h.above hi hle, h.above, h.le_written,
        fun _ heq => by cases heq⟩, subset_rfl⟩
    | resumeFail hfree hi herr => exact absurd (h.commitErr.symm.trans herr) (by decide)
  | rewait =>
    exact ⟨⟨h.stage, h.closed, h.idle, h.commitErr, h.waits, h.above, h.le_written, h.holder⟩,
      Finset.erase_subset _ _⟩
  | tick hstage | stop hstage | lastFlush hstage | lastFlushNone hstage | exit hstage
  | closeFiles hstage =>
    rw [h.stage] at hstage
    cases hstage
  | flushSync hp =>
    cases hp with
    | flushSync hf | flushSyncFail hf =>
      rw [h.idle] at hf
      cases hf
  | flushEnd hp =>
    cases hp with
    | flushEnd hfree hf | flushEndFail hfree hf =>
      rw [h.idle] at hf
      cases hf

/-- An append that is stuck waits for ever. -/
theorem Stuck.of_run (h : Stuck w s) (hrun : Run step (fun _ _ => True) s as s') :
    Stuck w s' ∧ s'.woken ⊆ s.woken :=
  hrun.invariant (I := fun t => Stuck w t ∧ t.woken ⊆ s.woken) ⟨h, subset_rfl⟩
    fun _ _ _ _ ht hstep =>
      ⟨(ht.1.of_step (moves_of_step hstep)).1,
        (ht.1.of_step (moves_of_step hstep)).2.trans ht.2⟩

/-- The second append writes between the last flush's look at `written` and the end of that flush,
whose broadcast wakes it in vain. -/
def lateAppend : List ClosingAction :=
  [.append ⟨0, 1, [], [7], 0, 0⟩, .write none, .stop, .lastFlush,
    .append ⟨0, 2, [], [8], 0, 0⟩, .write none, .flushSync, .flushEnd, .resume 0, .resume 0, .exit,
    .closeFiles]

/-- A late append is stranded: `Close` has returned, and the append waits on the condition variable
with its frame in the file, in this state and in every state that can follow. -/
theorem late_append_stranded :
    ∃ p₀ s w, openLog .batched 0 [] = .ok p₀ ∧
      Run step (fun _ _ => True) (new p₀) lateAppend s ∧ s.stage = .closed ∧
      w.1 ∈ s.proc.appended ∧
      ∀ as s', Run step (fun _ _ => True) s as s' → w ∈ s'.proc.waiting ∧ w.2 ∉ s'.woken := by
  obtain ⟨s, hs, hstage, hclosed, hidle, herr, hfree, w, hmem, happended, hasleep, habove, hle⟩ :
      ∃ s, Run step (fun _ _ => True) (new (.empty .batched 0)) lateAppend s ∧
        s.stage = .closed ∧ s.activeOpen = false ∧ s.proc.flusher = .idle ∧
        s.proc.log.commitErr = false ∧ s.proc.holder = .free ∧
        ∃ w ∈ s.proc.waiting, w.1 ∈ s.proc.appended ∧ w.2 ∉ s.woken ∧
          s.proc.log.committed < w.2 ∧ w.2 ≤ s.proc.log.written := by
    decide +kernel
  have hstuck : Stuck w s := by
    refine ⟨hstage, hclosed, hidle, herr, hmem, habove, hle, fun rec heq => ?_⟩
    rw [hfree] at heq
    cases heq
  refine ⟨_, s, w, openLog_nil .batched 0, hs, hstage, happended, fun as s' hrun => ?_⟩
  obtain ⟨hstuck', hsub⟩ := hstuck.of_run hrun
  exact ⟨hstuck'.waits, fun hin => hasleep (hsub hin)⟩

/-- An append may even come after `Close`: once everything is committed, `rotate` opens a new file
without a look at the closed one. -/
example : (exec step (fun _ _ => True) (new (.empty .batched 1))
    [.append ⟨0, 1, [], [7], 0, 0⟩, .write none, .stop, .lastFlush, .flushSync, .flushEnd,
      .resume 0, .exit, .closeFiles, .append ⟨0, 2, [], [8], 0, 0⟩, .rotateCreate true,
      .write none]).map (fun s => (s.stage, s.proc.acked.length, s.proc.waiting.length)) =
      some (.closed, 1, 1) := by
  decide +kernel

/-! ## Every late write -/

/-- No file fails to be created, and every write to an open descriptor is whole. -/
def Faultless (s : Closing) (a : ClosingAction) : Prop :=
  a ≠ .rotateCreate false ∧ (s.activeOpen = true → ∀ k, a ≠ .write (some k))

/-- The call with the mutex goes on to write a frame. -/
def writing (s : Closing) : Bool :=
  match s.proc.holder with
  | .rotateCreate _ | .write _ => true
  | _ => false

/-- The last flush has looked at `written`, and an append has written since. The last frame written
is not committed, and its append waits; only `rotate` could commit it, which has a frame of its own
to write then. -/
structure Doomed (s : Closing) : Prop where
  ok : s.Ok
  stage : s.stage = .flushing ∨ s.stage = .exited
  snapshot : ∀ snap, (∃ target, s.proc.flusher = .syncing snap target) ∨
    (∃ ok, s.proc.flusher = .publish snap ok) → snap < s.proc.log.written
  pending : s.writing = true ∨
    (s.proc.log.committed < s.proc.log.written ∧
      ∃ rec, (rec, s.proc.log.written) ∈ s.proc.waiting)

namespace Doomed

theorem activeOpen (h : s.Doomed) : s.activeOpen = true := by
  have hopened : s.closed = ∅ := by
    refine h.ok.opened fun hclosed => ?_
    rcases h.stage with hstage | hstage
    · exact absurd (hstage.symm.trans hclosed) (by decide)
    · exact absurd (hstage.symm.trans hclosed) (by decide)
  simp [Closing.activeOpen, hopened]

theorem looked (h : s.Doomed) : s.stage.looked = true := by
  rcases h.stage with hstage | hstage
  · rw [hstage]
    rfl
  · rw [hstage]
    rfl

theorem of_free (h : s.Doomed) (hfree : s.proc.holder = .free) :
    s.proc.log.committed < s.proc.log.written ∧
      ∃ rec, (rec, s.proc.log.written) ∈ s.proc.waiting := by
  rcases h.pending with hwriting | hpending
  · rw [writing, hfree] at hwriting
    cases hwriting
  · exact hpending

/-- A whole write after the last flush has looked. -/
theorem of_write (hok : s.Ok) (hstage : s.stage = .flushing ∨ s.stage = .exited) {rec : Record}
    (hh : s.proc.holder = .write rec) :
    (s.withProc ((s.proc.wrote rec).fence rec)).Doomed := by
  obtain ⟨hlt, hfence⟩ := hok.kept.fence_eq hok.sound.commitErr rec
  have hgrow : s.proc.log.written < (s.proc.wrote rec).log.written :=
    Nat.lt_add_of_pos_right (codec.length_frame_pos rec)
  have hsnap := hok.kept.flusher
  refine ⟨hok.of_plain rfl (.write hh), hstage, fun snap hf => ?_, .inr ?_⟩
  · replace hf : (∃ target, ((s.proc.wrote rec).fence rec).flusher = .syncing snap target) ∨
      (∃ ok, ((s.proc.wrote rec).fence rec).flusher = .publish snap ok) := hf
    rw [hfence] at hf ⊢
    replace hf : (∃ target, s.proc.flusher = .syncing snap target) ∨
      (∃ ok, s.proc.flusher = .publish snap ok) := hf
    rcases hf with ⟨target, hf⟩ | ⟨ok, hf⟩
    · rw [hf] at hsnap
      exact hsnap.1.trans_lt hgrow
    · rw [hf] at hsnap
      exact hsnap.1.trans_lt hgrow
  · show ((s.proc.wrote rec).fence rec).log.committed < ((s.proc.wrote rec).fence rec).log.written ∧
      ∃ rec', (rec', ((s.proc.wrote rec).fence rec).log.written) ∈
        ((s.proc.wrote rec).fence rec).waiting
    rw [hfence]
    exact ⟨hlt, rec, mem_append_right _ (mem_singleton_self _)⟩

theorem of_step (h : s.Doomed) (ha : Faultless s a) (hstep : Moves s a s') :
    s'.Doomed ∨ ∃ w, Stuck w s' := by
  have hok := h.ok.of_step hstep
  cases hstep with
  | append hp =>
    cases hp with
    | appendTooLarge hfree | appendRotateSync hfree | appendRotateCreate hfree
    | appendWrite hfree => exact .inl ⟨hok, h.stage, h.snapshot, .inr (h.of_free hfree)⟩
  | rotateSync hopen hp =>
    cases hp with
    | rotateSync => exact .inl ⟨hok, h.stage, h.snapshot, .inl rfl⟩
  | rotateSyncClosed hclosed =>
    rw [h.activeOpen] at hclosed
    cases hclosed
  | rotateCreate hp =>
    cases hp with
    | rotateCreate => exact .inl ⟨hok, h.stage, h.snapshot, .inl rfl⟩
    | rotateCreateFail => exact absurd rfl ha.1
  | write hopen hp =>
    cases hp with
    | write hh => exact .inl (of_write h.ok h.stage hh)
    | writeTorn => exact absurd rfl (ha.2 h.activeOpen _)
  | resume hp =>
    cases hp with
    -- Who returns is not the one that wrote last.
    | @resume i rec stop hfree hi hle =>
      obtain ⟨hlt, last, hlast⟩ := h.of_free hfree
      refine .inl ⟨hok, h.stage, h.snapshot, .inr ⟨hlt, last, ?_⟩⟩
      exact mem_eraseIdx_of_committed hlast hlt hi hle
    | resumeFail hfree hi herr =>
      rw [h.ok.sound.commitErr] at herr
      cases herr
  | rewait => exact .inl ⟨hok, h.stage, h.snapshot, h.pending⟩
  | tick hstage =>
    rw [h.looked] at hstage
    cases hstage
  | flushSync hp =>
    cases hp with
    | flushSync hf | flushSyncFail hf =>
      refine .inl ⟨hok, h.stage, fun snap hsnap => ?_, h.pending⟩
      rcases hsnap with ⟨target, heq⟩ | ⟨ok, heq⟩
      · cases heq
      · cases heq
        exact h.snapshot _ (.inl ⟨_, hf⟩)
  | flushEnd hp =>
    cases hp with
    | @flushEnd snap hfree hf =>
      obtain ⟨hlt, last, hlast⟩ := h.of_free hfree
      have hsnap := h.snapshot snap (.inr ⟨_, hf⟩)
      refine .inl ⟨hok, h.stage, fun snap' hsnap' => ?_, .inr ⟨?_, last, hlast⟩⟩
      · rcases hsnap' with ⟨target, heq⟩ | ⟨ok, heq⟩
        · cases heq
        · cases heq
      · show (if s.proc.log.committed < snap then snap else s.proc.log.committed) <
          s.proc.log.written
        split_ifs
        · exact hsnap
        · exact hlt
    | flushEndFail hfree hf => exact absurd hf (h.ok.sound.publish _)
  | stop hstage | lastFlush hstage | lastFlushNone hstage =>
    have hlooked := h.looked
    rw [hstage] at hlooked
    cases hlooked
  | exit => exact .inl ⟨hok, .inr rfl, h.snapshot, h.pending⟩
  | closeFiles hstage hfree =>
    obtain ⟨hlt, last, hlast⟩ := h.of_free hfree
    refine .inr ⟨(last, s.proc.log.written), ?_⟩
    have hclosed : s.proc.log.active.index ∈
        (s.proc.log.segments.map Segment.index).toFinset :=
      List.mem_toFinset.mpr (List.mem_map_of_mem
        (mem_append_right _ (mem_singleton_self _)))
    exact
      { stage := rfl
        closed := decide_eq_false (not_not.mpr hclosed)
        idle := h.ok.idle (.inl hstage)
        commitErr := h.ok.sound.commitErr
        waits := hlast
        above := hlt
        le_written := le_rfl
        holder := fun rec heq => by rw [hfree] at heq; cases heq }

end Doomed

/-- What comes of a write after the last flush has looked, before `Close` has closed the files: when
no other I/O operation fails and `Close` has returned, an append waits in every continuation. -/
theorem late_write_strands {segmentBytes : ℕ} {d : Dir} {p₀ : Proc} {as bs : List ClosingAction}
    {t t' : Closing} (hopen : openLog .batched segmentBytes d = .ok p₀)
    (hrun : Run step (fun _ _ => True) (new p₀) as t)
    (hlate : t.stage = .flushing ∨ t.stage = .exited) (hwrite : t.step (.write none) = some t')
    (hrest : Run step Faultless t' bs s) (hclosed : s.stage = .closed) :
    ∃ w, ∀ cs s', Run step (fun _ _ => True) s cs s' → w ∈ s'.proc.waiting := by
  have hok : t.Ok := hrun.invariant (ok_new hopen) fun _ _ _ _ h hstep =>
    h.of_step (moves_of_step hstep)
  have hdoomed : t'.Doomed := by
    cases moves_of_step hwrite with
    | write hopen hp =>
      cases hp with
      | write hh => exact .of_write hok hlate hh
  have hend : s.Doomed ∨ ∃ w, Stuck w s := by
    refine hrest.invariant (I := fun u => u.Doomed ∨ ∃ w, Stuck w u) (.inl hdoomed)
      fun u a u' ha h hstep => ?_
    rcases h with h | ⟨w, h⟩
    · exact h.of_step ha (moves_of_step hstep)
    · exact .inr ⟨w, (h.of_step (moves_of_step hstep)).1⟩
  rcases hend with h | ⟨w, h⟩
  · rcases h.stage with hstage | hstage
    · exact absurd (hstage.symm.trans hclosed) (by decide)
    · exact absurd (hstage.symm.trans hclosed) (by decide)
  · exact ⟨w, fun cs s' hrun' => (h.of_run hrun').1.waits⟩

instance (s : Closing) (a : ClosingAction) : Decidable (Faultless s a) := by
  have hwrite : Decidable (∀ k, a ≠ .write (some k)) := by
    rcases a with _ | _ | _ | (_ | k) | _ | _ | _ | _ | _ | _ | _ | _
    case write.some => exact .isFalse fun h => h k rfl
    all_goals exact .isTrue nofun
  exact inferInstanceAs (Decidable (_ ∧ (_ → _)))

theorem late_write_strands_lateAppend :
    ∃ t, Run step (fun _ _ => True) (new (.empty .batched 0)) (lateAppend.take 5) t ∧
      ∃ t' s, t.step (.write none) = some t' ∧ Run step Faultless t' (lateAppend.drop 6) s ∧
        s.stage = .closed ∧
        ∃ w, ∀ cs s', Run step (fun _ _ => True) s cs s' → w ∈ s'.proc.waiting := by
  obtain ⟨t, hrun, hlate, t', hwrite, s, hrest, hclosed⟩ :
      ∃ t, Run step (fun _ _ => True) (new (.empty .batched 0)) (lateAppend.take 5) t ∧
        t.stage = .flushing ∧ ∃ t', t.step (.write none) = some t' ∧
        ∃ s, Run step Faultless t' (lateAppend.drop 6) s ∧ s.stage = .closed := by
    decide +kernel
  exact ⟨t, hrun, t', s, hwrite, hrest, hclosed,
    late_write_strands (openLog_nil .batched 0) hrun (.inl hlate) hwrite hrest hclosed⟩

end Closing

end ToyMQ.Wal
