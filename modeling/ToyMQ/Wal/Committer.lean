import ToyMQ.Wal.Crash

/-!
# The group committer and closed descriptors

`flush` takes the descriptor to sync under the mutex and uses it after giving the mutex up. When
that segment is dropped in between, `Sync` fails on a closed file, and the committer takes that for
a lost write: `commitErr` is set for good, and every append that waits fails (`closed_target`).

`committer_fails_only_for_fsync` says that this is the only way: as long as no call of
`DropSegmentsBefore` takes the segment that the committer is about to sync, and every fsync of an
open descriptor succeeds, `commitErr` stays unset, and an append fails only through a fault of its
own.
-/

namespace ToyMQ.Wal

open Lib List

/-! ## The steps allowed -/

/-- An fsync, if the step is one, succeeds when its descriptor is open. -/
def Action.Syncs : Action → Prop
  | .rotateSync ok => ok = true
  | .fsync ok => ok = true
  | .flushSync ok => ok = true
  | _ => True

instance : DecidablePred Action.Syncs
  | .rotateSync ok | .fsync ok | .flushSync ok => inferInstanceAs (Decidable (ok = true))
  | .append _ | .rotateCreate _ | .write _ | .resume _ | .flushBegin | .flushEnd | .drop _
  | .remove _ => isTrue trivial

/-- A segment that the committer has snapshotted and not yet synced is not among those a drop
takes. -/
def SparesTarget (p : Proc) : Action → Prop
  | .drop keepIndex =>
    match p.flusher with
    | .syncing _ target => ∀ s ∈ p.log.dropped keepIndex, s.index ≠ target
    | _ => True
  | _ => True

instance (p : Proc) : DecidablePred (SparesTarget p)
  | .drop keepIndex =>
    match h : p.flusher with
    | .syncing _ target =>
      decidable_of_iff (∀ s ∈ p.log.dropped keepIndex, s.index ≠ target)
        (by simp [SparesTarget, h])
    | .idle | .publish _ _ => isTrue (by simp [SparesTarget, h])
  | .append _ | .rotateSync _ | .rotateCreate _ | .write _ | .fsync _ | .resume _ | .flushBegin
  | .flushSync _ | .flushEnd | .remove _ => isTrue trivial

/-- The step is where an append fails by itself: its record does not fit a frame, the next segment
file cannot be created, or its write stops. -/
def OwnFault (p : Proc) : Action → Prop
  | .append rec => ¬ Fits (p.log.stamp rec)
  | .rotateCreate ok => ok = false
  | .write cut => cut ≠ none
  | _ => False

instance (p : Proc) : DecidablePred (OwnFault p)
  | .append rec => inferInstanceAs (Decidable (¬ Fits (p.log.stamp rec)))
  | .rotateCreate ok => inferInstanceAs (Decidable (ok = false))
  | .write cut => inferInstanceAs (Decidable (cut ≠ none))
  | .rotateSync _ | .fsync _ | .resume _ | .flushBegin | .flushSync _ | .flushEnd | .drop _
  | .remove _ => isFalse id

/-! ## What the committer relies on -/

/-- The committer's part of the log while nothing has gone wrong. -/
structure Sound (p : Proc) : Prop where
  /-- The segment to sync has not been dropped. -/
  target : ∀ snap target, p.flusher = .syncing snap target →
    ∃ s ∈ p.log.segments, s.index = target
  /-- No fsync has failed. -/
  publish : ∀ snap, p.flusher ≠ .publish snap false
  commitErr : p.log.commitErr = false
  syncFn : p.log.syncFn = p.log.active.index

namespace Sound

variable {p p' : Proc}

theorem isOpen (h : Sound p) {snap target : ℕ} (hf : p.flusher = .syncing snap target) :
    p.isOpen target = true := by
  obtain ⟨s, hs, hidx⟩ := h.target snap target hf
  refine List.any_eq_true.mpr ⟨s, mem_append_right _ hs, ?_⟩
  exact beq_iff_eq.mpr hidx

theorem carry (h : Sound p) (hflusher : p'.flusher = p.flusher)
    (hsegs : ∀ s ∈ p.log.segments, ∃ s' ∈ p'.log.segments, s'.index = s.index)
    (herr : p'.log.commitErr = p.log.commitErr) (hsync : p'.log.syncFn = p'.log.active.index) :
    Sound p' := by
  refine ⟨fun snap target hf => ?_, fun snap => ?_, herr.trans h.commitErr, hsync⟩
  · obtain ⟨s, hs, hidx⟩ := h.target snap target (hflusher ▸ hf)
    obtain ⟨s', hs', hidx'⟩ := hsegs s hs
    exact ⟨s', hs', hidx'.trans hidx⟩
  · rw [hflusher]
    exact h.publish snap

theorem keep (h : Sound p) (hflusher : p'.flusher = p.flusher)
    (hlog : p'.log = { p.log with committed := p'.log.committed }) : Sound p' := by
  refine h.carry hflusher (fun s hs => ⟨s, ?_, rfl⟩) (by rw [hlog]) (by rw [hlog]; exact h.syncFn)
  rw [hlog]
  exact hs

/-- An fsync keeps the slice. -/
theorem syncSegment (h : Sound p) (t : ℕ) : Sound (p.syncSegment t) := by
  refine h.carry rfl (fun s hs => ?_) rfl (h.syncFn.trans (index_syncAt t p.log.active).symm)
  refine ⟨syncAt t s, ?_, index_syncAt t s⟩
  have hmap : (p.syncSegment t).log.segments = p.log.segments.map (syncAt t) := by
    simp [Proc.syncSegment, Log.segments]
  rw [hmap]
  exact List.mem_map_of_mem hs

theorem write (h : Sound p) (hflusher : p'.flusher = p.flusher)
    (hsealed : p'.log.sealed = p.log.sealed)
    (hactive : p'.log.active.index = p.log.active.index)
    (herr : p'.log.commitErr = p.log.commitErr) (hsync : p'.log.syncFn = p.log.syncFn) :
    Sound p' := by
  refine h.carry hflusher (fun s hs => ?_) herr (by rw [hsync, hactive]; exact h.syncFn)
  rcases mem_append.mp hs with hold | hlast
  · exact ⟨s, mem_append_left _ (hsealed ▸ hold), rfl⟩
  · rw [mem_singleton.mp hlast]
    exact ⟨p'.log.active, mem_append_right _ (mem_singleton_self _), hactive⟩

/-- The committer moves on to a state that is not an fsync nor a failure. -/
theorem flush (h : Sound p) {flusher : Flusher} (hsyncing : ∀ snap t, flusher ≠ .syncing snap t)
    (hfail : ∀ snap, flusher ≠ .publish snap false) : Sound { p with flusher := flusher } :=
  ⟨fun snap t hf => absurd hf (hsyncing snap t), hfail, h.commitErr, h.syncFn⟩

end Sound

variable {p p' : Proc} {a : Action}

theorem failed_fence (herr : p.log.commitErr = false) (rec : Record) :
    (p.fence rec).failed = p.failed := by
  unfold Proc.fence
  split
  · split_ifs with hle hgave
    · rfl
    · rw [herr] at hgave
      cases hgave
    · rfl
  · rfl
  · rfl

theorem Sound.fence (h : Sound p) (rec : Record) : Sound (p.fence rec) := by
  rcases fence_cases p rec with ⟨-, heq⟩ | heq | heq | ⟨-, heq⟩ | heq <;> rw [heq]
  all_goals exact h.keep rfl rfl

/-! ## Steps and runs -/

/-- Every step keeps the committer's part of the log sound. -/
theorem sound_of_step (ha : a.Syncs) (hspare : SparesTarget p a) (h : Sound p)
    (hstep : Step p a p') : Sound p' := by
  cases hstep with
  | appendTooLarge | appendRotateSync | appendRotateCreate | appendWrite | rotateSyncFail
  | rotateCreateFail | fsyncFail | resume | resumeFail => exact h.keep rfl rfl
  | rotateSync => exact (h.syncSegment p.log.active.index).keep rfl rfl
  | rotateCreate =>
    -- The segment that is sealed stays in the slice, with its descriptor open.
    exact h.carry rfl (fun s hs => ⟨s, mem_append_left _ hs, rfl⟩) rfl rfl
  | @write rec =>
    have hwrote : Sound (p.wrote rec) := h.write rfl rfl rfl rfl rfl
    exact hwrote.fence rec
  | writeTorn => exact h.write rfl rfl rfl rfl rfl
  | fsync => exact (h.syncSegment p.log.syncFn).keep rfl rfl
  | flushBegin =>
    refine ⟨fun snap target hf => ?_, nofun, h.commitErr, h.syncFn⟩
    obtain ⟨-, rfl⟩ := Flusher.syncing.inj hf
    exact ⟨p.log.active, mem_append_right _ (mem_singleton_self _), h.syncFn.symm⟩
  | flushSync =>
    exact (h.syncSegment _).flush nofun nofun
  | @flushSyncFail ok snap target hf hfail =>
    -- Its descriptor is open, so that the fsync succeeds.
    rcases hfail with rfl | hclosed
    · cases ha
    · rw [h.isOpen hf] at hclosed
      cases hclosed
  | flushEnd =>
    have hidle : Sound { p with flusher := .idle } := h.flush nofun nofun
    exact hidle.keep rfl rfl
  | @flushEndFail snap hfree hf => exact absurd hf (h.publish snap)
  | dropNone => exact h
  | @drop keepIndex =>
    refine ⟨fun snap target hf => ?_, h.publish, h.commitErr, h.syncFn⟩
    have hf' : p.flusher = .syncing snap target := hf
    obtain ⟨s, hs, hidx⟩ := h.target snap target hf'
    rw [SparesTarget, hf'] at hspare
    refine ⟨s, ?_, hidx⟩
    rcases mem_append.mp hs with hsealed | hactive
    · rw [← p.log.dropped_append_kept keepIndex] at hsealed
      rcases mem_append.mp hsealed with hdropped | hkept
      · exact absurd hidx (hspare s hdropped)
      · exact mem_append_left _ hkept
    · exact mem_append_right _ hactive
  | remove => exact h.keep rfl rfl

theorem failed_of_step (ha : a.Syncs) (h : Sound p) (hown : ¬ OwnFault p a) (hstep : Step p a p') :
    p'.failed = p.failed := by
  cases hstep with
  | appendTooLarge hfree hfit => exact absurd hfit hown
  | rotateSyncFail | fsyncFail => cases ha
  | rotateCreateFail => exact absurd rfl hown
  | @write rec => exact failed_fence (p := p.wrote rec) h.commitErr rec
  | @writeTorn rec k => exact absurd (Option.some_ne_none k) hown
  | resumeFail hfree hi herr =>
    rw [h.commitErr] at herr
    cases herr
  | _ => rfl

/-- A log that was just opened is sound. -/
theorem sound_of_openLog {mode : SyncMode} {segmentBytes : ℕ} {d : Dir}
    (h : openLog mode segmentBytes d = .ok p) : Sound p ∧ p.failed = [] := by
  obtain ⟨strays, sealed, active, acc, rfl⟩ := start_of_openLog h
  exact ⟨⟨nofun, nofun, rfl, rfl⟩, rfl⟩

/-- The committer fails only for fsync errors: in every state that a log in batched mode reaches,
over any interleaving in which every fsync of an open descriptor succeeds and no drop takes the
segment that the committer is about to sync, that segment's descriptor is open and `commitErr` is
unset; the next step lets an append fail only through a fault of its own, and without such faults
no append has failed. -/
theorem committer_fails_only_for_fsync {segmentBytes : ℕ} {d : Dir} {p₀ p : Proc}
    {as : List Action} (hopen : openLog .batched segmentBytes d = .ok p₀)
    (hrun : Run step (fun p a => a.Syncs ∧ SparesTarget p a) p₀ as p) :
    (∀ snap target, p.flusher = .syncing snap target → p.isOpen target = true) ∧
    p.log.commitErr = false ∧
    (∀ a p', a.Syncs → step p a = some p' → ¬ OwnFault p a → p'.failed = p.failed) ∧
    (Run step (fun p a => (a.Syncs ∧ SparesTarget p a) ∧ ¬ OwnFault p a) p₀ as p →
      p.failed = []) := by
  obtain ⟨hsound₀, hfailed₀⟩ := sound_of_openLog hopen
  have hsound : Sound p := hrun.invariant hsound₀ fun _ _ _ ha h hstep =>
    sound_of_step ha.1 ha.2 h (step_sound hstep)
  refine ⟨fun snap target hf => hsound.isOpen hf, hsound.commitErr,
    fun a p' ha hstep hown => failed_of_step ha hsound hown (step_sound hstep),
    fun hclean => ?_⟩
  have hboth : Sound p ∧ p.failed = [] :=
    hclean.invariant (I := fun q => Sound q ∧ q.failed = []) ⟨hsound₀, hfailed₀⟩
      fun _ _ _ ha h hstep =>
        ⟨sound_of_step ha.1.1 ha.1.2 h.1 (step_sound hstep),
          (failed_of_step ha.1.1 h.1 ha.2 (step_sound hstep)).trans h.2⟩
  exact hboth.2

/-- A flush over a rotation: the committer snapshots the first segment, an append rotates away from
it and a drop that spares it runs before the committer's fsync. -/
def flushAcrossRotation : List Action :=
  [.append ⟨0, 1, [], [7], 0, 0⟩, .write none, .flushBegin,
    .append ⟨0, 2, [], [8], 0, 0⟩, .rotateSync true, .rotateCreate true, .write none,
    .drop 0, .flushSync true, .flushEnd, .resume 0, .flushBegin, .flushSync true, .flushEnd,
    .resume 0]

/-- The theorem at a run in which both appends return success. -/
theorem committer_fails_only_for_fsync_flushAcrossRotation :
    ∃ p₀ p, openLog .batched 1 [] = .ok p₀ ∧
      exec step (fun p a => a.Syncs ∧ SparesTarget p a) p₀ flushAcrossRotation = some p ∧
      p.acked.length = 2 ∧
      (∀ snap target, p.flusher = .syncing snap target → p.isOpen target = true) ∧
      p.log.commitErr = false ∧
      (∀ a p', a.Syncs → step p a = some p' → ¬ OwnFault p a → p'.failed = p.failed) ∧
      (Run step (fun p a => (a.Syncs ∧ SparesTarget p a) ∧ ¬ OwnFault p a) p₀
        flushAcrossRotation p → p.failed = []) := by
  have hopen := openLog_nil .batched 1
  obtain ⟨p, hp, hacked⟩ : ∃ p, exec step (fun p a => a.Syncs ∧ SparesTarget p a)
      (.empty .batched 1) flushAcrossRotation = some p ∧ p.acked.length = 2 := by
    decide +kernel
  exact ⟨_, p, hopen, hp, hacked, committer_fails_only_for_fsync hopen (run_of_exec hp)⟩

/-- The same, but the drop takes the segment that the committer is about to sync. -/
def flushAcrossDrop : List Action :=
  [.append ⟨0, 1, [], [7], 0, 0⟩, .write none, .flushBegin,
    .append ⟨0, 2, [], [8], 0, 0⟩, .rotateSync true, .rotateCreate true, .write none,
    .drop 1, .remove true, .flushSync true, .flushEnd, .resume 0, .resume 0]

/-- A drop between the two halves of `flush`: every I/O operation on an open file succeeds, yet the
committer's fsync finds its descriptor closed, `commitErr` is set, and the second append fails with
its record in the log. -/
theorem closed_target :
    ∃ p₀ p, openLog .batched 1 [] = .ok p₀ ∧
      exec step (fun _ a => a.Succeeds) p₀ flushAcrossDrop = some p ∧
      p.log.commitErr = true ∧ p.acked.length = 1 ∧ p.failed.length = 1 ∧
      ∀ rec ∈ p.failed, rec ∈ p.appended := by
  exact ⟨_, exists_and_left.mpr ⟨openLog_nil .batched 1, by decide +kernel⟩⟩

end ToyMQ.Wal
