import ToyMQ.Wal.Invariant

/-!
# Durable before visible

Three places advance `committed`: the inline fsync of per-message mode, `rotate`, and the
committer's `flush`, whose fsync runs while other goroutines append and rotate. The argument is one
notion, `Covered w b s`: the part of segment `s` below the logical offset `b` is durable, unless all
of it was there before offset `w`, where the log was opened. `Durable` says that every segment is
covered up to `committed`, and that the committer's snapshot is covered by every segment but the one
it is about to sync.

`durable_before_visible` is the result for a log opened on an empty directory.
-/

namespace ToyMQ.Wal

open Lib List

/-! ## Coverage of a segment -/

/-- The part of the segment below `b` is durable, if it reaches above `w`. -/
def Covered (w b : ℕ) (s : Segment) : Prop :=
  w < min b s.endOffset → min b s.endOffset ≤ s.baseByteOffset + s.f.synced

variable {w b id₀ : ℕ} {s : Segment} {p : Proc}

/-- A durable segment is covered up to any offset. -/
theorem covered_of_synced (h : s.f.data.length ≤ s.f.synced) : Covered w b s := by
  intro _
  have := min_le_right b s.endOffset
  unfold Segment.endOffset at this ⊢
  omega

theorem Covered.of_endOffset_le {c : ℕ} (h : Covered w b s) (hle : s.endOffset ≤ b) :
    Covered w c s := by
  unfold Covered at h ⊢
  rw [min_eq_right hle] at h
  intro hlt
  have := min_le_right c s.endOffset
  have := h (hlt.trans_le this)
  omega

/-- Syncing a segment loses no coverage. -/
theorem Covered.syncAt (h : Covered w b s) (hclean : s.Clean) (t : ℕ) :
    Covered w b (syncAt t s) := by
  unfold Wal.syncAt
  split_ifs
  · intro hlt
    exact (h hlt).trans (Nat.add_le_add_left hclean.synced_le _)
  · exact h

/-- Syncing a segment covers it. -/
theorem covered_syncAt_self (s : Segment) : Covered w b (syncAt s.index s) := by
  rw [syncAt, if_pos rfl]
  exact covered_of_synced le_rfl

/-- A write above `b` changes nothing below it. -/
theorem Covered.withRecord (h : Covered w b s) (hle : b ≤ s.endOffset) (rec : Record) :
    Covered w b (s.withRecord rec) := by
  have hgrow : s.endOffset ≤ (s.withRecord rec).endOffset := by
    simp [Segment.endOffset, Segment.withRecord, File.append]
  unfold Covered at h ⊢
  rw [min_eq_left hle] at h
  rw [min_eq_left (hle.trans hgrow)]
  exact h

/-! ## Coverage of the log -/

/-- No sealed segment ends behind the start of the active one. -/
theorem Shape.endOffset_le (h : Shape id₀ p) (hs : s ∈ p.older) :
    s.endOffset ≤ p.log.active.baseByteOffset := by
  obtain ⟨pre, post, hsplit⟩ := append_of_mem hs
  have hlay := (layout_append.mp h.layout).1
  rw [hsplit] at hlay
  have hbase := (Layout.base hlay).2
  have hclean := hlay.clean s (by simp)
  rw [h.active.2.1, hsplit, Segment.endOffset, hclean.length_data, hbase]
  simp only [stream_append, stream_cons, codec.frames_append, length_append]
  omega

/-- What the committer knows of the offset it has snapshotted. -/
def FlusherDurable (w : ℕ) (p : Proc) : Flusher → Prop
  | .idle => True
  | .syncing snap target => ∀ s ∈ p.all, s.index ≠ target → Covered w snap s
  | .publish snap ok => ok = true → ∀ s ∈ p.all, Covered w snap s

/-- What has become visible since the offset `w` is durable. -/
structure Durable (w : ℕ) (p : Proc) : Prop where
  mode : p.log.syncMode ≠ .none
  committed : ∀ s ∈ p.all, Covered w p.log.committed s
  /-- The committer's snapshot is covered by what it does not sync itself. -/
  flusher : FlusherDurable w p p.flusher

/-- A step after which each segment is as well covered as before, or wholly durable. -/
def Carries (w : ℕ) (p p' : Proc) : Prop :=
  ∀ s' ∈ p'.all,
    (∃ s ∈ p.all, s'.index = s.index ∧
      ∀ b ≤ p.log.written, Covered w b s → Covered w b s') ∨ ∀ b, Covered w b s'

variable {p' : Proc} {a : Action} {mode : SyncMode}

theorem Carries.refl (h : p'.all = p.all) : Carries w p p' :=
  fun s' hs' => .inl ⟨s', h ▸ hs', rfl, fun _ _ hb => hb⟩

theorem carries_syncSegment (h : Shape id₀ p) (t : ℕ) : Carries w p (p.syncSegment t) := by
  intro s' hs'
  rw [all_syncSegment] at hs'
  rcases mem_append.mp hs' with hgone | hlinked
  · exact .inl ⟨s', p.all_eq_gone_append ▸ mem_append_left _ hgone, rfl, fun _ _ hb => hb⟩
  · obtain ⟨s, hs, rfl⟩ := List.mem_map.mp hlinked
    have hmem : s ∈ p.all := p.all_eq_gone_append ▸ mem_append_right _ hs
    exact .inl ⟨s, hmem, index_syncAt t s, fun b _ hb => hb.syncAt (h.layout.clean s hmem) t⟩

theorem carries_wrote (h : Shape id₀ p) (rec : Record) : Carries w p (p.wrote rec) := by
  intro s' hs'
  rcases mem_append.mp hs' with holder | hactive
  · exact .inl ⟨s', mem_append_left _ holder, rfl, fun _ _ hb => hb⟩
  · rw [mem_singleton.mp hactive]
    refine .inl ⟨p.log.active, mem_append_right _ (mem_singleton_self _), rfl,
      fun b hle hb => hb.withRecord (h.written_eq_endOffset ▸ hle) rec⟩

theorem carries_rotated (h : Shape id₀ p) : Carries w p p.rotated := by
  intro s' hs'
  have hall : p.rotated.all = p.all ++ [p.nextSegment] := by
    simp [Proc.rotated, Proc.all, Proc.older]
  rw [hall] at hs'
  rcases mem_append.mp hs' with hold | hnew
  · exact .inl ⟨s', hold, rfl, fun _ _ hb => hb⟩
  · rw [mem_singleton.mp hnew]
    refine .inr fun b => covered_of_synced ?_
    rw [Proc.nextSegment, h.fresh _ (Nat.lt_succ_self _)]
    exact le_rfl

namespace Durable

variable {id₀ w : ℕ} {p p' : Proc}

/-- A step that leaves `committed` and the committer alone. -/
theorem carry (hd : Durable w p) (hi : Inv id₀ p) (hc : Carries w p p')
    (hmode : p'.log.syncMode = p.log.syncMode) (hcommitted : p'.log.committed = p.log.committed)
    (hflusher : p'.flusher = p.flusher) : Durable w p' := by
  have hsnap := hi.calls.flusher
  have hf := hd.flusher
  refine ⟨hmode ▸ hd.mode, fun s' hs' => ?_, ?_⟩
  · rw [hcommitted]
    rcases hc s' hs' with ⟨s, hs, -, hcov⟩ | hcov
    · exact hcov _ hi.shape.committed_le (hd.committed s hs)
    · exact hcov _
  · rw [hflusher]
    cases hp : p.flusher with
    | idle => trivial
    | syncing snap =>
      rw [hp] at hsnap hf
      intro s' hs' hne
      rcases hc s' hs' with ⟨s, hs, hidx, hcov⟩ | hcov
      · exact hcov snap hsnap.1 (hf s hs (hidx ▸ hne))
      · exact hcov snap
    | publish snap =>
      rw [hp] at hsnap hf
      intro hok s' hs'
      rcases hc s' hs' with ⟨s, hs, -, hcov⟩ | hcov
      · exact hcov snap hsnap.1 (hf hok s hs)
      · exact hcov snap

/-- Publishing an offset up to which every segment is covered. -/
theorem commit (hd : Durable w p) {n : ℕ} (hn : ∀ s ∈ p.all, Covered w n s) :
    Durable w (p.commit n) :=
  ⟨hd.mode, hn, by have hf := hd.flusher; cases hp : p.flusher <;> rw [hp] at hf <;> exact hp ▸ hf⟩

/-- The older segments are covered up to any offset. -/
theorem older (hd : Durable w p) (hi : Inv id₀ p) {s : Segment} (hs : s ∈ p.older) (b : ℕ) :
    Covered w b s :=
  (hd.committed s (mem_append_left _ hs)).of_endOffset_le
    ((hi.shape.endOffset_le hs).trans hi.shape.base_le)

/-- After an fsync everything written may be published. -/
theorem covered_of_syncActive (hd : Durable w p) (hi : Inv id₀ p) (b : ℕ) :
    ∀ s ∈ (p.syncSegment p.log.active.index).all, Covered w b s := by
  intro s' hs'
  rcases mem_append.mp hs' with holder | hactive
  · have holder' :
        s' ∈ p.gone ∨ s' ∈ (p.toDrop ++ p.log.sealed).map (syncAt p.log.active.index) := by
      simpa [Proc.older, Proc.syncSegment, mem_append] using holder
    rcases holder' with hgone | hmap
    · exact hd.older hi (mem_append_left _ hgone) b
    · obtain ⟨s, hs, rfl⟩ := List.mem_map.mp hmap
      have hs : s ∈ p.older := mem_append_right _ hs
      exact (hd.older hi hs b).syncAt (hi.shape.layout.clean s (mem_append_left _ hs)) _
  · rw [mem_singleton.mp hactive]
    exact covered_syncAt_self p.log.active

end Durable

/-! ## Every step keeps the log durable -/

/-- The fence of a mode that syncs leaves `committed` alone. -/
theorem Durable.fence (hd : Durable w p) (hi : Inv id₀ { p with holder := .free }) (rec : Record) :
    Durable w (p.fence rec) := by
  have hd' : Durable w { p with holder := .free } := ⟨hd.mode, hd.committed, hd.flusher⟩
  rcases fence_cases p rec with ⟨-, heq⟩ | heq | heq | ⟨hnone, -⟩ | heq
  · exact heq ▸ hd'.carry hi (.refl rfl) rfl rfl rfl
  · exact heq ▸ hd'.carry hi (.refl rfl) rfl rfl rfl
  · exact heq ▸ hd'.carry hi (.refl rfl) rfl rfl rfl
  · exact absurd hnone hd.mode
  · exact heq ▸ hd'.carry hi (.refl rfl) rfl rfl rfl

/-- Every step with whole writes keeps what is visible durable. -/
theorem durable_of_step (ha : a.Intact) (hi : Inv id₀ p) (hd : Durable w p) (hstep : Step p a p') :
    Durable w p' := by
  have hf := hd.flusher
  cases hstep with
  -- These neither touch a file nor publish an offset.
  | appendTooLarge | appendRotateSync | appendRotateCreate | appendWrite | rotateSyncFail
  | rotateCreateFail | fsyncFail | resume | resumeFail =>
    exact hd.carry hi (.refl rfl) rfl rfl rfl
  | rotateSync hh =>
    have hsync := hd.carry hi (carries_syncSegment hi.shape p.log.active.index) rfl rfl rfl
    have hcommit := hsync.commit (hd.covered_of_syncActive hi p.log.written)
    exact ⟨hcommit.mode, hcommit.committed, hcommit.flusher⟩
  | rotateCreate hh => exact hd.carry hi (carries_rotated hi.shape) rfl rfl rfl
  | @write rec hh =>
    have hholder := hi.calls.holder
    rw [hh] at hholder
    have hwrote := hd.carry hi (carries_wrote hi.shape rec) rfl rfl rfl
    exact hwrote.fence (hi.wrote hholder.1 hholder.2) rec
  | writeTorn hh hk => cases ha _ rfl
  | @fsync rec stop hh =>
    rw [hi.shape.syncFn_eq]
    have hsync := hd.carry hi (carries_syncSegment hi.shape p.log.active.index) rfl rfl rfl
    have hcommit := hsync.commit (hd.covered_of_syncActive hi stop)
    exact ⟨hcommit.mode, hcommit.committed, hcommit.flusher⟩
  | flushBegin hfree hidle hmode hlt =>
    -- The snapshot is covered once the active file is synced: rotation synced all others.
    refine ⟨hd.mode, hd.committed, fun s hs hne => ?_⟩
    rcases mem_append.mp hs with holder | hactive
    · exact hd.older hi holder _
    · exact absurd (mem_singleton.mp hactive ▸ hi.shape.syncFn_eq.symm) hne
  | @flushSync snap target hf' hopen =>
    rw [hf'] at hf
    have hsync := hd.carry hi (carries_syncSegment hi.shape target) rfl rfl rfl
    refine ⟨hsync.mode, hsync.committed, fun _ s' hs' => ?_⟩
    obtain ⟨t, ht, htarget⟩ := List.any_eq_true.mp hopen
    have hasc := hi.shape.ascending
    have hsnap : ∀ s ∈ p.all, s.index ≠ target → Covered w snap s := hf
    rw [Proc.all_eq_gone_append] at hasc hsnap
    replace hs' : s' ∈ p.gone ++ p.linked.map (syncAt target) := all_syncSegment p target ▸ hs'
    rcases mem_append.mp hs' with hgone | hlinked
    · -- A closed segment is older than the one that was synced.
      have hlt := (pairwise_append.mp hasc).2.2 s' hgone t ht
      exact hsnap s' (mem_append_left _ hgone) (hlt.trans_eq (beq_iff_eq.mp htarget)).ne
    · obtain ⟨s, hs, rfl⟩ := List.mem_map.mp hlinked
      by_cases hidx : s.index = target
      · rw [← hidx]
        exact covered_syncAt_self s
      · rw [syncAt, if_neg hidx]
        exact hsnap s (mem_append_right _ hs) hidx
  | flushSyncFail hf' hfail => exact ⟨hd.mode, hd.committed, fun hok => absurd hok (by decide)⟩
  | @flushEnd snap hfree hf' =>
    rw [hf'] at hf
    split_ifs with hlt
    · exact ⟨hd.mode, hf rfl, trivial⟩
    · exact ⟨hd.mode, hd.committed, trivial⟩
  | flushEndFail hfree hf' => exact ⟨hd.mode, hd.committed, trivial⟩
  | dropNone hfree => exact hd
  | @drop keepIndex hfree hne =>
    have hdrop := hi.calls.holder
    rw [hfree] at hdrop
    refine hd.carry hi (.refl ?_) rfl rfl rfl
    rw [Proc.all, Proc.all, older_of_drop hdrop keepIndex]
    rfl
  | remove hh hdrop =>
    refine hd.carry hi (.refl ?_) rfl rfl rfl
    rw [Proc.all, Proc.all, older_of_remove hdrop]
    rfl

/-- No step takes back what was appended or committed. -/
theorem extends_of_step (hi : Inv id₀ p) (hstep : Step p a p') : Extends p p' := by
  cases hstep with
  | rotateSync => exact ⟨prefix_rfl, hi.shape.committed_le, le_rfl⟩
  | @write rec =>
    have hle : p.log.written ≤ (p.wrote rec).log.written := Nat.le_add_right _ _
    have hcommitted := hi.shape.committed_le.trans hle
    rcases fence_cases (p.wrote rec) rec with ⟨-, heq⟩ | heq | heq | ⟨-, heq⟩ | heq <;> rw [heq]
    · exact ⟨prefix_append _ _, le_rfl, hle⟩
    · exact ⟨prefix_append _ _, le_rfl, hle⟩
    · exact ⟨prefix_append _ _, le_rfl, hle⟩
    · exact ⟨prefix_append _ _, hcommitted, hle⟩
    · exact ⟨prefix_append _ _, le_rfl, hle⟩
  | fsync hh =>
    have hholder := hi.calls.holder
    rw [hh] at hholder
    exact ⟨prefix_rfl, hi.shape.committed_le.trans hholder.2.2.ge, le_rfl⟩
  | flushEnd =>
    refine ⟨prefix_rfl, ?_, le_rfl⟩
    split_ifs with hlt
    · exact hlt.le
    · exact le_rfl
  | _ => exact .of_eq rfl rfl rfl

/-- A log that was just opened is durable from its end on. -/
theorem durable_start (hmode : mode ≠ .none) (segmentBytes : ℕ) (strays : Dir)
    (sealed : List Segment) (active : Segment) (acc : Scan) :
    Durable acc.globalPos (Proc.start mode segmentBytes strays sealed active acc) :=
  ⟨hmode, fun _ _ hlt => absurd (hlt.trans_le (min_le_left _ _)) (lt_irrefl _), trivial⟩

/-- A run with whole writes keeps what is visible durable. -/
theorem durable_of_run {ok : Proc → Action → Prop} (hok : ∀ p a, ok p a → a.Intact)
    {as : List Action} (hi : Inv id₀ p) (hd : Durable w p) (hrun : Run step ok p as p') :
    Inv id₀ p' ∧ Durable w p' :=
  hrun.invariant (I := fun q => Inv id₀ q ∧ Durable w q) ⟨hi, hd⟩ fun _ _ _ ha h hstep =>
    ⟨inv_of_step (hok _ _ ha) h.1 (step_sound hstep),
      durable_of_step (hok _ _ ha) h.1 h.2 (step_sound hstep)⟩

/-- Every byte from `w` to `committed` is durable. -/
theorem Durable.exists_synced (hd : Durable w p) (hi : Inv id₀ p) (hw : w ≤ b)
    (hb : b < p.log.committed) :
    ∃ s ∈ p.all, s.baseByteOffset ≤ b ∧ b < s.baseByteOffset + s.f.synced := by
  have hwritten : b < 0 + (codec.frames (stream p.all)).length := by
    rw [Nat.zero_add, ← hi.shape.appended_eq, ← hi.shape.written_eq]
    exact hb.trans_le hi.shape.committed_le
  obtain ⟨s, hs, hbase, hend⟩ := hi.shape.layout.exists_segment (Nat.zero_le b) hwritten
  have hmin : b < min p.log.committed s.endOffset := lt_min hb hend
  exact ⟨s, hs, hbase, hmin.trans_le (hd.committed s hs (hw.trans_lt hmin))⟩

/-! ## The log from an empty directory on -/

/-- The log of an empty directory. -/
def Proc.empty (mode : SyncMode) (segmentBytes : ℕ) : Proc :=
  .start mode segmentBytes [] [] (Segment.found 0 File.empty) ⟨0, []⟩

/-- What `Open` makes of an empty directory. -/
theorem openLog_nil (mode : SyncMode) (segmentBytes : ℕ) :
    openLog mode segmentBytes [] = .ok (.empty mode segmentBytes) := rfl

variable {segmentBytes : ℕ}

theorem eq_of_openLog_nil (h : openLog mode segmentBytes [] = .ok p) :
    p = .empty mode segmentBytes :=
  (Except.ok.inj h).symm

theorem durable_empty (hmode : mode ≠ .none) (segmentBytes : ℕ) :
    Durable 0 (.empty mode segmentBytes) :=
  durable_start hmode segmentBytes [] [] _ ⟨0, []⟩

/-- The invariant holds of a log opened on an empty directory. -/
theorem inv_of_openLog_nil (h : openLog mode segmentBytes [] = .ok p) : Inv 0 p := by
  obtain rfl := eq_of_openLog_nil h
  have hclean : (Segment.found 0 File.empty).Clean :=
    Segment.clean_of_data_eq [] rfl (by simp) trivial le_rfl
  exact inv_start [] 0 ⟨rfl, rfl, hclean, trivial⟩
    (pairwise_singleton _ _) rfl trivial (by decide) (fun _ _ => rfl) (by simp)

/-- Durable before visible: in every state that a log opened on an empty directory reaches, with
any interleaving of its goroutines and any outcome of the fsyncs, every byte below `committed` has
been covered by a successful fsync of its segment, every append that returned success ends at or
below `committed`, and `committed` does not decrease from that state on. -/
theorem durable_before_visible {mode : SyncMode} (hmode : mode ≠ .none) {segmentBytes : ℕ}
    {p₀ p : Proc} {as : List Action} (hopen : openLog mode segmentBytes [] = .ok p₀)
    (hrun : Run step (fun _ a => a.Intact) p₀ as p) :
    (∀ b < p.log.committed, ∃ s ∈ p.all,
      s.baseByteOffset ≤ b ∧ b < s.baseByteOffset + s.f.synced) ∧
    (∀ w ∈ p.acked, w.2 ≤ p.log.committed) ∧
    ∀ as' p', Run step (fun _ a => a.Intact) p as' p' → p.log.committed ≤ p'.log.committed := by
  obtain ⟨hi, hd⟩ := durable_of_run (fun _ _ ha => ha) (inv_of_openLog_nil hopen)
    (eq_of_openLog_nil hopen ▸ durable_empty hmode segmentBytes) hrun
  refine ⟨fun b hb => hd.exists_synced hi (Nat.zero_le b) hb,
    fun w hw => (hi.calls.acked w hw).2, fun as' p' hrun' => ?_⟩
  -- Along the rest of the run the invariant goes with the bound.
  have hrest : Inv 0 p' ∧ p.log.committed ≤ p'.log.committed :=
    hrun'.invariant (I := fun q => Inv 0 q ∧ p.log.committed ≤ q.log.committed) ⟨hi, le_rfl⟩
      fun _ _ _ ha h hstep => ⟨inv_of_step ha h.1 (step_sound hstep),
        h.2.trans (extends_of_step h.1 (step_sound hstep)).committed⟩
  exact hrest.2

/-- Two appends under group commit with a segment cap of one byte: the committer's fsync of the
first segment fails, the second append rotates and commits the first record itself. -/
def rotationRun : List Action :=
  [.append ⟨0, 1, [], [7], 0, 0⟩, .write none, .flushBegin, .flushSync false,
    .append ⟨0, 2, [], [8], 0, 0⟩, .rotateSync true, .rotateCreate true, .write none, .flushEnd,
    .resume 0, .resume 0]

/-- The theorem at a run in which one append returns success and one fails. -/
theorem durable_before_visible_rotationRun :
    ∃ p₀ p, openLog .batched 1 [] = .ok p₀ ∧
      exec step (fun _ a => a.Intact) p₀ rotationRun = some p ∧
      (p.acked.length = 1 ∧ p.failed.length = 1) ∧
      (∀ b < p.log.committed, ∃ s ∈ p.all,
        s.baseByteOffset ≤ b ∧ b < s.baseByteOffset + s.f.synced) ∧
      (∀ w ∈ p.acked, w.2 ≤ p.log.committed) ∧
      ∀ as' p', Run step (fun _ a => a.Intact) p as' p' →
        p.log.committed ≤ p'.log.committed := by
  have hopen := openLog_nil .batched 1
  obtain ⟨p, hp, hcounts⟩ :
      ∃ p, exec step (fun _ a => a.Intact) (.empty .batched 1) rotationRun = some p ∧
        p.acked.length = 1 ∧ p.failed.length = 1 := by
    decide +kernel
  exact ⟨_, p, hopen, hp, hcounts, durable_before_visible (by decide) hopen (run_of_exec hp)⟩

end ToyMQ.Wal
