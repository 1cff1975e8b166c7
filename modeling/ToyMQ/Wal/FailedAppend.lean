import ToyMQ.Wal.FailedWrite

/-!
# What a failed append leaves behind

An `Append` can return an error after its record was written: when the inline fsync of per-message
mode fails, or when the committer's fsync does. The record stays in the file, and the next append
that succeeds makes it visible. In `failed_visible` the producer tries again, and both records are
read and recovered.

`failed_traceless` says when an append that fails leaves no trace: no fsync after a write fails, no
write fails with all of its frame in the file, and the log keeps tidy. Every record that a reader
returns or that a later `Open` visits is then the record of an append that has not failed
(`Proc.entries`).
-/

namespace ToyMQ.Wal

open Lib List

/-! ## Steps that fail cleanly -/

/-- A write that fails leaves less than its frame, and no fsync of a record that was written
fails. The committer's fsync also fails when its segment was dropped in the meantime. -/
def Smooth (p : Proc) : Action → Prop
  | .write (some k) =>
    match p.holder with
    | .write rec => k < (codec.frame rec).length
    | _ => True
  | .fsync ok => ok = true
  | .flushSync ok =>
    match p.flusher with
    | .syncing _ target => ok = true ∧ p.isOpen target = true
    | _ => True
  | _ => True

instance (p : Proc) (a : Action) : Decidable (Smooth p a) := by
  unfold Smooth
  repeat' split
  all_goals infer_instance

/-- The condition on a step: it fails cleanly if it fails, and the log keeps tidy. -/
def CleanStep (p : Proc) (a : Action) : Prop := TidyStep p a ∧ Smooth p a

instance (p : Proc) (a : Action) : Decidable (CleanStep p a) :=
  inferInstanceAs (Decidable (_ ∧ _))

/-- A torn write leaves less than a frame. -/
def Short (rec : Record) (k : ℕ) : Prop := k < (codec.frame rec).length

variable {p : Proc}

theorem CleanStep.short {a : Action} (h : CleanStep p a) {rec : Record} {k : ℕ}
    (hh : p.holder = .write rec) (ha : a = .write (some k)) : Short rec k := by
  have hsmooth := h.2
  subst ha
  simp only [Smooth, hh] at hsmooth
  exact hsmooth

/-! ## Every record belongs to an append that has not failed -/

/-- Each record of the log is one of an earlier life or that of an append of this one which has not
failed; and the committer has not failed. -/
structure Traceless (kept : List Record) (p : Proc) : Prop where
  commitErr : p.log.commitErr = false
  flusher : ∀ snap ok, p.flusher = .publish snap ok → ok = true
  appended : ∀ r ∈ p.appended, r ∈ kept ∨ ∃ e ∈ p.entries, e.1 = r

section Traceless

variable {kept : List Record} {p p' : Proc} {a : Action}

theorem Traceless.mono (h : Traceless kept p) (herr : p'.log.commitErr = p.log.commitErr)
    (hflusher : ∀ snap ok, p'.flusher = .publish snap ok → ok = true)
    (happended : p'.appended = p.appended) (hentries : p.entries ⊆ p'.entries) :
    Traceless kept p' := by
  refine ⟨herr.trans h.commitErr, hflusher, fun r hr => ?_⟩
  rw [happended] at hr
  refine (h.appended r hr).imp_right ?_
  rintro ⟨e, he, hr⟩
  exact ⟨e, hentries he, hr⟩

theorem Traceless.fail (h : Traceless kept p) (rec : Record) (hh : p.holder.entries = []) :
    Traceless kept (p.fail rec) := by
  refine h.mono rfl h.flusher rfl fun e he => ?_
  rwa [Proc.entries, hh] at he

/-- While the committer has not failed, the fence of an append that has written keeps the append:
it returns success, waits, or goes on to its fsync. -/
theorem Traceless.fence (h : Traceless kept p) (hh : p.holder.entries = []) {rec : Record} :
    Traceless kept ((p.wrote rec).fence rec) := by
  have hold : p.entries = p.acked ++ p.waiting := by
    rw [Proc.entries, hh, append_nil]
  -- What is to show, for each of the ways on.
  have hdone : ∀ (q : Proc) (stop : ℕ), q.log.commitErr = p.log.commitErr →
      q.flusher = p.flusher → q.appended = p.appended ++ [rec] →
      p.acked ++ p.waiting ⊆ q.entries → (rec, stop) ∈ q.entries → Traceless kept q := by
    intro q stop herr hflusher happended hsub hnew
    refine ⟨herr.trans h.commitErr, hflusher ▸ h.flusher, fun r hr => ?_⟩
    rw [happended] at hr
    rcases mem_append.mp hr with hr | hr
    · refine (h.appended r hr).imp_right ?_
      rintro ⟨e, he, heq⟩
      exact ⟨e, hsub (hold ▸ he), heq⟩
    · exact .inr ⟨_, hnew, (mem_singleton.mp hr).symm⟩
  have herr : (p.wrote rec).log.commitErr = false := h.commitErr
  obtain ⟨stop, hstop⟩ : ∃ stop, stop = (p.wrote rec).log.written := ⟨_, rfl⟩
  unfold Proc.fence
  rw [herr, if_neg Bool.false_ne_true, ← hstop]
  split
  · split_ifs with hle
    · refine hdone _ stop rfl rfl rfl (fun e he => ?_) ?_
      · simp only [Proc.entries, Proc.succeed, Proc.wrote, Holder.entries, mem_append] at he ⊢
        tauto
      · simp only [Proc.entries, Proc.succeed, mem_append, mem_singleton]
        exact .inl (.inr trivial)
    · refine hdone _ stop rfl rfl rfl (fun e he => ?_) ?_
      · simp only [Proc.entries, Proc.wrote, Holder.entries, mem_append] at he ⊢
        tauto
      · simp only [Proc.entries, mem_append, mem_singleton]
        exact .inr (.inl (.inr trivial))
  · refine hdone _ stop rfl rfl rfl (fun e he => ?_) ?_
    · simp only [Proc.entries, Proc.succeed, Proc.commit, Proc.wrote, Holder.entries,
        mem_append] at he ⊢
      tauto
    · simp only [Proc.entries, Proc.succeed, mem_append, mem_singleton]
      exact .inl (.inr trivial)
  · refine hdone _ stop rfl rfl rfl (fun e he => ?_) ?_
    · simp only [Proc.entries, Proc.wrote, Holder.entries, mem_append] at he ⊢
      tauto
    · simp only [Proc.entries, Holder.entries, mem_append, mem_singleton]
      exact .inr (.inr trivial)

theorem Traceless.of_step (h : Traceless kept p) (ha : Smooth p a) (hstep : Step p a p') :
    Traceless kept p' := by
  -- A step under the mutex before the write has no append of its own yet.
  have hsame : ∀ q : Proc, q.log.commitErr = p.log.commitErr → q.flusher = p.flusher →
      q.appended = p.appended → q.acked = p.acked → q.waiting = p.waiting →
      q.holder.entries = p.holder.entries → Traceless kept q := by
    intro q herr hflusher happended hacked hwaiting hholder
    refine h.mono herr (hflusher ▸ h.flusher) happended fun e he => ?_
    rwa [Proc.entries, hacked, hwaiting, hholder]
  cases hstep with
  | appendTooLarge hfree => exact h.fail _ (by rw [hfree]; rfl)
  | rotateSyncFail hh | rotateCreateFail hh => exact h.fail _ (by rw [hh]; rfl)
  | @writeTorn rec k hh =>
    exact (hsame (p.torn rec k) rfl rfl rfl rfl rfl rfl).fail _ (congrArg Holder.entries hh)
  | fsyncFail => cases ha
  | appendRotateSync hfree | appendRotateCreate hfree | appendWrite hfree | drop hfree =>
    exact hsame _ rfl rfl rfl rfl rfl (by rw [hfree]; rfl)
  | rotateSync hh | rotateCreate hh => exact hsame _ rfl rfl rfl rfl rfl (by rw [hh]; rfl)
  | write hh => exact h.fence (by rw [hh]; rfl)
  | @fsync rec stop hh =>
    refine h.mono rfl h.flusher rfl fun e he => ?_
    simp only [Proc.entries, Proc.succeed, Proc.commit, Proc.syncSegment, Holder.entries, hh,
      mem_append] at he ⊢
    tauto
  | @resume i rec stop hfree hi =>
    refine h.mono rfl h.flusher rfl fun e he => ?_
    have hperm := perm_of_getElem? hi
    simp only [Proc.entries, Proc.succeed, Holder.entries, hfree, mem_append,
      append_nil] at he ⊢
    rcases he with hacked | hwaiting
    · exact .inl (.inl hacked)
    · rcases mem_append.mp (hperm.symm.subset hwaiting) with hnew | hrest
      · exact .inl (.inr hnew)
      · exact .inr hrest
  | resumeFail hfree hi herr => exact absurd (herr.symm.trans h.commitErr) (by decide)
  | flushBegin | flushEnd =>
    refine h.mono rfl (fun snap ok heq => ?_) rfl (List.Subset.refl _)
    cases heq
  | flushSync =>
    refine h.mono rfl (fun snap ok heq => ?_) rfl (List.Subset.refl _)
    cases heq
    rfl
  | @flushSyncFail ok snap target hf hfail =>
    simp only [Smooth, hf] at ha
    rcases hfail with hbad | hclosed
    · exact absurd (hbad.symm.trans ha.1) (by decide)
    · exact absurd (hclosed.symm.trans ha.2) (by decide)
  | flushEndFail hfree hf => exact absurd (h.flusher _ _ hf) (by decide)
  | dropNone => exact h
  | @remove ok s rest hh =>
    refine hsame _ rfl rfl rfl rfl rfl ?_
    by_cases hrest : rest = [] <;> simp [hrest, hh, Holder.entries]

end Traceless

/-! ## What a reader can return -/

/-- Where a reader is, whatever was dropped: between two records of a segment, which may be
gone. -/
def Sits (id₀ : ℕ) (p : Proc) : Phase → Prop
  | .start | .refused _ | .failed _ => True
  | .openStart index base => ∃ k m, At id₀ p ⟨index, base, 0⟩ k m
  | .openNext _ index base => ∃ k m, At id₀ p ⟨index, base, 0⟩ k m
  | .scan h | .scanDecode h | .idle h | .loop h | .decode h => ∃ k m, At id₀ p h k m

section Sits

variable {id₀ w : ℕ} {p p' : Proc} {phase : Phase} {a : Action} {t t' : Reading}

theorem Sits.of_log (hi : Inv id₀ p) (ha : a.Intact) (hstep : Step p a p')
    (h : Sits id₀ p phase) : Sits id₀ p' phase := by
  cases phase with
  | start | refused | failed => trivial
  | openStart index base | openNext h' index base | scan h' | scanDecode h' | idle h' | loop h'
  | decode =>
    obtain ⟨k, m, hat⟩ := h
    obtain ⟨m', -, hat'⟩ := hat.of_step hi ha hstep
    exact ⟨k, m', hat'⟩

theorem Sits.fail (h : Sits id₀ p phase) (rec : Record) : Sits id₀ (p.fail rec) phase := by
  cases phase with
  | start | refused | failed => trivial
  | openStart index base | openNext h' index base | scan h' | scanDecode h' | idle h' | loop h'
  | decode =>
    obtain ⟨k, m, hat⟩ := h
    exact ⟨k, m, hat.fail rec⟩

variable {k : ℕ} {h : Handle}

theorem Torn.decodeAt_end {s : Segment} {front : List Record} (ht : Torn Short id₀ w p)
    (hon : On id₀ p.whole h k s front []) : ∃ e, p.decodeAt h = .error e := by
  obtain ⟨rest, hcontent, hrest⟩ := content_whole p h.index
  have hdecode : p.decodeAt h = codec.decode rest := by
    rw [Proc.decodeAt, hcontent, hon.content_eq ht.inv.shape, hon.pos_eq, codec.frames_nil,
      append_nil, drop_left]
  rw [hdecode]
  -- The bytes that nobody accounts for are less than a frame.
  have hshort : rest = [] ∨ ∃ rec j, Short rec j ∧ Fits rec ∧ rest = (codec.frame rec).take j := by
    rcases hrest with hnil | hdrop
    · exact .inl hnil
    · rcases ht.rest with htidy | ⟨rec, j, hj, hpend, hdata⟩
      · exact .inl (hdrop.trans (drop_eq_nil_of_le htidy))
      · refine .inr ⟨rec, j, hj, hpend.fits, hdrop.trans ?_⟩
        have hsplit := (take_append_drop p.counted p.log.active.f.data).trans hdata
        exact append_cancel_left hsplit
  rcases hshort with rfl | ⟨rec, j, hj, hfits, rfl⟩
  · exact ⟨_, codec.decode_nil⟩
  · rcases Nat.eq_zero_or_pos j with rfl | hpos
    · exact ⟨_, by rw [take_zero]; exact codec.decode_nil⟩
    · exact ⟨_, codec.decode_torn rec j hfits hpos hj⟩

theorem Torn.decodeAt_cases {m : ℕ} (ht : Torn Short id₀ w p) (hat : At id₀ p.whole h k m) :
    (∃ e, p.decodeAt h = .error e) ∨
      ∃ r ∈ p.appended, p.decodeAt h = .ok (r, (codec.frame r).length) ∧
        At id₀ p.whole (h.advance (codec.frame r).length) (k + 1) m := by
  obtain ⟨s, front, back, hon, rfl⟩ := hat
  cases back with
  | nil => exact .inl (ht.decodeAt_end hon)
  | cons r back =>
    refine .inr ⟨r, mem_of_getElem? (hon.getElem ht.inv.shape),
      hon.decodeAt_torn ht.inv.shape, s, front ++ [r], back, hon.advance, ?_⟩
    rw [length_cons]
    omega

/-- A step of the reader leaves it between two records, and returns none but records of the log. -/
theorem Sits.of_read (ht : Torn Short id₀ w t.proc) (h : Sits id₀ t.proc.whole t.phase)
    (hstep : t.read = some t') : Sits id₀ t.proc.whole t'.phase ∧
      (t'.out = t.out ∨ ∃ r ∈ t.proc.appended, t'.out = t.out ++ [r]) := by
  obtain ⟨p, fromMsgID, phase, out⟩ := t
  -- The head of a segment of the slice is a position.
  have hhead : ∀ s ∈ p.whole.log.segments,
      ∃ k m, At id₀ p.whole ⟨s.index, s.baseByteOffset, 0⟩ k m := fun s hs =>
    ⟨_, _, s, [], _, On.head ht.inv.shape (by
      rw [Proc.all_eq_dropped_append]
      exact mem_append_right _ hs), rfl⟩
  cases phase with
  | start =>
    dsimp only [Reading.read] at hstep
    split_ifs at hstep
    · cases hstep
      exact ⟨trivial, .inl rfl⟩
    · cases hstep
      refine ⟨?_, .inl rfl⟩
      have hlay := ht.inv.shape.layout
      rw [Proc.all_eq_dropped_append] at hlay
      have hmem := (startSegment_spec fromMsgID (layout_append.mp hlay).2).1
      obtain ⟨hindex, hbase⟩ := startSegment_whole p fromMsgID
      have hsits := hhead _ hmem
      rw [← Log.segments, hindex, hbase] at hsits
      exact hsits
  | openStart | openNext =>
    dsimp only [Reading.read] at hstep
    split_ifs at hstep
    · cases hstep
      exact ⟨h, .inl rfl⟩
    · cases hstep
      exact ⟨trivial, .inl rfl⟩
  | scan =>
    dsimp only [Reading.read] at hstep
    split_ifs at hstep
    · cases hstep
      exact ⟨h, .inl rfl⟩
    · cases hstep
      exact ⟨h, .inl rfl⟩
  | scanDecode =>
    obtain ⟨k, m, hat⟩ := h
    rcases ht.decodeAt_cases hat with ⟨e, herr⟩ | ⟨r, hr, hok, hat'⟩
    · simp only [Reading.read, herr] at hstep
      cases hstep
      exact ⟨trivial, .inl rfl⟩
    · simp only [Reading.read, hok] at hstep
      split_ifs at hstep
      · cases hstep
        exact ⟨⟨k, m, hat⟩, .inl rfl⟩
      · cases hstep
        exact ⟨⟨_, _, hat'⟩, .inl rfl⟩
  | idle =>
    cases hstep
    exact ⟨h, .inl rfl⟩
  | loop h' =>
    dsimp only [Reading.read] at hstep
    split_ifs at hstep
    · cases hstep
      exact ⟨h, .inl rfl⟩
    · rcases segmentAfter_whole p h'.index with ⟨-, hnone⟩ | ⟨s, s', hs, hs', hindex, hbase⟩
      · rw [hnone] at hstep
        cases hstep
      · rw [hs'] at hstep
        cases hstep
        have hsits := hhead s (mem_of_find?_eq_some hs)
        rw [hindex, hbase] at hsits
        exact ⟨hsits, .inl rfl⟩
  | decode =>
    obtain ⟨k, m, hat⟩ := h
    rcases ht.decodeAt_cases hat with ⟨e, herr⟩ | ⟨r, hr, hok, hat'⟩
    · simp only [Reading.read, herr] at hstep
      cases hstep
      exact ⟨trivial, .inl rfl⟩
    · simp only [Reading.read, hok] at hstep
      cases hstep
      exact ⟨⟨_, _, hat'⟩, .inr ⟨r, hr, rfl⟩⟩
  | refused | failed => cases hstep

end Sits

/-! ## What a later life finds -/

variable {id₀ w segmentBytes : ℕ} {q : Proc} {mode : SyncMode}

/-- `Open` visits none but records of the life before: what a torn write left is less than a
frame. -/
theorem Torn.visited_subset {cut : ℕ → ℕ × ℕ} (h : Torn Short id₀ w p) (hmay : p.MayCut cut)
    (hkeep : p.KeepsSealed cut)
    (hopen : Wal.openLog mode segmentBytes (p.crashDir (Segment.cutBy cut)) = .ok q) :
    q.appended ⊆ p.appended := by
  obtain ⟨q', more, hopen', happended, hmore, -⟩ := h.openLog hmay hkeep mode segmentBytes
  obtain rfl : q = q' := Except.ok.inj (hopen.symm.trans hopen')
  obtain ⟨rs, hrs⟩ : ∃ rs, rs = p.whole.log.active.records := ⟨_, rfl⟩
  obtain ⟨c, hc⟩ : ∃ c, c = (cut p.log.active.index).1 := ⟨_, rfl⟩
  rw [← hrs, ← hc] at happended
  -- The cut lies before the end of a frame that was not written in full.
  have htake : (rs ++ more).take (codec.whole c (rs ++ more)) ⊆ rs := by
    rcases hmore with rfl | ⟨rec, k, hk, rfl, hdata⟩
    · rw [append_nil]
      exact take_subset _ _
    · have hclen : c ≤ p.log.active.f.data.length := by
        rw [hc]
        exact (hmay p.log.active (by rw [p.linked_eq]; simp)).2.2
      have hlen : p.log.active.f.data.length < (codec.frames (rs ++ [rec])).length := by
        have hwhole := h.inv.shape.active.2.2.length_data
        have hk' : min k (codec.frame rec).length < (codec.frame rec).length :=
          (min_le_left _ _).trans_lt hk
        rw [hdata, length_append, length_take, hwhole, ← hrs, codec.frames_append,
          length_append, codec.frames_cons, codec.frames_nil, append_nil]
        omega
      have hcount : codec.whole c (rs ++ [rec]) ≤ rs.length := by
        by_contra hnot
        have hbound := codec.length_frames_take_whole_le c (rs ++ [rec])
        rw [take_of_length_le (by rw [length_append, length_singleton]; omega)]
          at hbound
        omega
      rw [take_append_of_le_length hcount]
      exact take_subset _ _
  have happ := h.inv.shape.appended_linked
  rw [Proc.linked_eq, stream_append, stream_cons, stream_nil, append_nil, ← hrs] at happ
  intro r hr
  rw [happended] at hr
  show r ∈ p.whole.appended
  rw [happ]
  refine mem_append_right _ ?_
  rcases mem_append.mp hr with hretired | hactive
  · exact mem_append_left _ hretired
  · exact mem_append_right _ (htake hactive)

theorem fresh_of_openLog {d : Dir} (hopen : openLog mode segmentBytes d = .ok q) :
    q.log.commitErr = false ∧ q.flusher = .idle := by
  obtain ⟨strays, sealed, active, acc, rfl⟩ := start_of_openLog hopen
  exact ⟨rfl, rfl⟩

theorem Lives.traceless {kept : List Record} (h : Lives CleanStep kept p) :
    (∃ id₀ w, Torn Short id₀ w p) ∧ Traceless kept p := by
  have htorn : ∀ {kept' p'}, Lives CleanStep kept' p' → ∃ id₀ w, Torn Short id₀ w p' := fun h' =>
    h'.torn fun _ _ ha => ⟨ha.1, fun _ _ hh heq => CleanStep.short ha hh heq⟩
  refine ⟨htorn h, ?_⟩
  induction h with
  | @opened mode segmentBytes p hopen =>
    obtain ⟨herr, hidle⟩ := fresh_of_openLog hopen
    obtain rfl := eq_of_openLog_nil hopen
    exact ⟨herr, fun snap ok heq => (nomatch heq), by simp [Proc.empty, Proc.start]⟩
  | step _ ha hstep ih => exact ih.of_step ha.2 (step_sound hstep)
  | @reopened mode segmentBytes kept p q cut hlives hmay hkeep hopen ih =>
    obtain ⟨herr, hidle⟩ := fresh_of_openLog hopen
    obtain ⟨id₀, w, ht⟩ := htorn hlives
    refine ⟨herr, fun snap ok heq => (by rw [hidle] at heq; cases heq), fun r hr => .inl ?_⟩
    rcases ih.appended r (ht.visited_subset hmay hkeep hopen hr) with hkept | ⟨e, he, rfl⟩
    · exact mem_append_left _ hkept
    · exact mem_append_right _ (List.mem_map_of_mem he)

/-! ## Failed appends leave no trace -/

/-- The condition on a step of a log with a reader. -/
def CleanRead (t : Reading) : ReadAction → Prop
  | .log a => CleanStep t.proc a
  | _ => True

instance (t : Reading) : DecidablePred (CleanRead t)
  | .log a => inferInstanceAs (Decidable (CleanStep t.proc a))
  | .read | .cancel => isTrue trivial

/-- The invariant of a log with a reader: the reader has returned none but records of the log. -/
structure CleanReading (kept : List Record) (id₀ w : ℕ) (t : Reading) : Prop where
  torn : Torn Short id₀ w t.proc
  traceless : Traceless kept t.proc
  sits : Sits id₀ t.proc.whole t.phase
  out : t.out ⊆ t.proc.appended

theorem CleanReading.of_step {kept : List Record} {t t' : Reading} {a : ReadAction}
    (h : CleanReading kept id₀ w t) (ha : CleanRead t a) (hstep : t.step a = some t') :
    CleanReading kept id₀ w t' := by
  cases a with
  | log a =>
    obtain ⟨p', hp', rfl⟩ := Option.map_eq_some_iff.mp hstep
    have hstep' := step_sound hp'
    have hclean : CleanStep t.proc a := ha
    obtain ⟨⟨htidy, hrm, hname⟩, hsmooth⟩ := ha
    -- The reader stands in the process without the torn bytes, which takes a step of its own.
    have hwhole := wholeStep_of_step h.torn.inv h.torn.synced_le htidy hstep'
    refine ⟨h.torn.of_step htidy hrm hname (fun _ _ hh heq => hclean.short hh heq) hstep',
      h.traceless.of_step hsmooth hstep', ?_, ?_⟩
    · cases hwhole with
      | quiet hintact hst | tidy hintact hst => exact h.sits.of_log h.torn.inv hintact hst
      | torn _ _ _ _ _ hw =>
        rw [hw]
        exact h.sits.fail _
    · have hmore : t.proc.appended <+: p'.appended := by
        cases hwhole with
        | quiet _ hst | tidy _ hst => exact (extends_of_step h.torn.inv hst).appended
        | torn _ _ _ _ heq =>
          rw [heq]
          exact prefix_rfl
      exact List.Subset.trans h.out hmore.subset
  | read =>
    obtain ⟨hproc, -, -⟩ := proc_of_read hstep
    obtain ⟨hsits, hout⟩ := h.sits.of_read h.torn hstep
    rw [← hproc] at hsits hout
    refine ⟨hproc.symm ▸ h.torn, hproc.symm ▸ h.traceless, hsits, ?_⟩
    have hold : t.out ⊆ t'.proc.appended := hproc.symm ▸ h.out
    rcases hout with heq | ⟨r, hr, heq⟩
    · exact heq ▸ hold
    · intro r' hr'
      rw [heq] at hr'
      rcases mem_append.mp hr' with hr' | hr'
      · exact hold hr'
      · exact mem_singleton.mp hr' ▸ hr
  | cancel =>
    obtain ⟨h', hphase, rfl⟩ := cancel_sound hstep
    have hsits := h.sits
    rw [hphase] at hsits
    exact ⟨h.torn, h.traceless, hsits, h.out⟩

/-- A failed append leaves no trace, as long as no fsync of a written record fails, a failed write
leaves less than its frame, and the log keeps tidy. Take any state that a log reaches over its lives
with such failures, and any run of it with a reader that starts anywhere. Then every record that the
reader returns, and every record that `Open` visits after any crash, is the record of an append that
has not failed: of one of an earlier life that had not failed when its process ended, or of one of
this life that returned success or is still under way. The records of the log, and these appends,
have distinct ids. -/
theorem failed_traceless {kept : List Record} {p₀ : Proc} {fromMsgID : ℕ} {as : List ReadAction}
    {t : Reading} (hlog : Lives CleanStep kept p₀)
    (hrun : Run Reading.step CleanRead ⟨p₀, fromMsgID, .start, []⟩ as t) :
    (∀ r ∈ t.out, r ∈ kept ∨ ∃ e ∈ t.proc.entries, e.1 = r) ∧
    (∀ cut mode segmentBytes q, t.proc.MayCut cut → t.proc.KeepsSealed cut →
      openLog mode segmentBytes (t.proc.crashDir (Segment.cutBy cut)) = .ok q →
      ∀ r ∈ q.appended, r ∈ kept ∨ ∃ e ∈ t.proc.entries, e.1 = r) ∧
    t.out ⊆ t.proc.appended ∧ (t.proc.appended.map fun r => r.msgID.toNat).Nodup ∧
    (entryIDs t.proc.entries).Nodup := by
  obtain ⟨⟨id₀, w, ht₀⟩, htr₀⟩ := hlog.traceless
  have hstart : CleanReading kept id₀ w ⟨p₀, fromMsgID, .start, []⟩ :=
    ⟨ht₀, htr₀, trivial, nil_subset _⟩
  have h : CleanReading kept id₀ w t :=
    hrun.invariant hstart fun _ _ _ ha hok hstep => hok.of_step ha hstep
  refine ⟨fun r hr => h.traceless.appended r (h.out hr),
    fun cut mode segmentBytes q hmay hkeep hopen r hr =>
      h.traceless.appended r (h.torn.visited_subset hmay hkeep hopen hr), h.out,
    ?_, by simpa using h.torn.entries.distinct⟩
  exact pairwise_map.mpr (h.torn.inv.shape.numbered.pairwise.imp fun hlt => hlt.ne)

/-- With a segment cap of one byte: an append succeeds, the next fails as its segment cannot be
created, is tried again and succeeds, and the write of a third stops after one byte. -/
def cleanFailures : List Action :=
  [.append emptyMessage, .write none, .fsync true,
    .append emptyMessage, .rotateCreate false,
    .append emptyMessage, .rotateCreate true, .write none, .fsync true,
    .append emptyMessage, .rotateCreate true, .write (some 1)]

/-- A reader that returns two records. -/
def readTwo : List ReadAction := List.replicate 12 .read

/-- The theorem at a run with two failed appends. -/
theorem failed_traceless_cleanFailures :
    ∃ p₀ t, Lives CleanStep [] p₀ ∧
      exec Reading.step CleanRead ⟨p₀, 0, .start, []⟩ readTwo = some t ∧
      (t.proc.failed.length = 2 ∧ t.out.length = 2) ∧
      (∀ r ∈ t.out, r ∈ ([] : List Record) ∨ ∃ e ∈ t.proc.entries, e.1 = r) ∧
      (∀ cut mode segmentBytes q, t.proc.MayCut cut → t.proc.KeepsSealed cut →
        openLog mode segmentBytes (t.proc.crashDir (Segment.cutBy cut)) = .ok q →
        ∀ r ∈ q.appended, r ∈ ([] : List Record) ∨ ∃ e ∈ t.proc.entries, e.1 = r) ∧
      t.out ⊆ t.proc.appended ∧ (t.proc.appended.map fun r => r.msgID.toNat).Nodup ∧
      (entryIDs t.proc.entries).Nodup := by
  have hopen := openLog_nil .perMessage 1
  obtain ⟨p₀, hp₀, t, ht, hcounts⟩ :
      ∃ p₀, Run Wal.step CleanStep (.empty .perMessage 1) cleanFailures p₀ ∧
        ∃ t, exec Reading.step CleanRead ⟨p₀, 0, .start, []⟩ readTwo = some t ∧
          t.proc.failed.length = 2 ∧ t.out.length = 2 := by
    decide +kernel
  have hlog : Lives CleanStep [] p₀ := (Lives.opened hopen).run hp₀
  exact ⟨p₀, t, hlog, ht, hcounts, failed_traceless hlog (run_of_exec ht)⟩

/-- In per-message mode: the fsync of an append fails, and the producer tries again. -/
def retryAfterSync : List Action :=
  [.append emptyMessage, .write none, .fsync false, .append emptyMessage, .write none, .fsync true]

/-- The record of a failed append becomes visible with the next one. After a failed fsync the
producer publishes again; the failed append has id 0 and the one that succeeded id 1, a reader
returns both, and `Open` visits both. -/
theorem failed_visible :
    ∃ p₀ p t q, openLog .perMessage 0 [] = .ok p₀ ∧
      Run step (fun _ _ => True) p₀ retryAfterSync p ∧
      p.failed.map (fun r => r.msgID.toNat) = [0] ∧ entryIDs p.entries = [1] ∧
      Run Reading.step (fun _ a => a = .read) ⟨p, 0, .start, []⟩ (List.replicate 10 .read) t ∧
      t.out.map (fun r => r.msgID.toNat) = [0, 1] ∧
      openLog .perMessage 0 p.dir = .ok q ∧
      q.appended.map (fun r => r.msgID.toNat) = [0, 1] := by
  obtain ⟨p, hp, hfailed, hentries, t, ht, hout, q, hq⟩ :
      ∃ p, Run step (fun _ _ => True) (.empty .perMessage 0) retryAfterSync p ∧
        p.failed.map (fun r => r.msgID.toNat) = [0] ∧ entryIDs p.entries = [1] ∧
        ∃ t, Run Reading.step (fun _ a => a = .read) ⟨p, 0, .start, []⟩
            (List.replicate 10 .read) t ∧
          t.out.map (fun r => r.msgID.toNat) = [0, 1] ∧
          ∃ q, openLog .perMessage 0 p.dir = .ok q ∧
            q.appended.map (fun r => r.msgID.toNat) = [0, 1] := by
    decide +kernel
  exact ⟨_, p, t, q, openLog_nil .perMessage 0, hp, hfailed, hentries, ht, hout, hq⟩

end ToyMQ.Wal
