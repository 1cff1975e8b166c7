import ToyMQ.Wal.Reopen

/-!
# Writes that stop in the middle

A write that fails may leave the first part of a frame in the file. No counter of the log accounts
for those bytes, and nothing removes them before the next `Open`. What is written after them cannot
be found again, and a segment that is sealed over them cannot be opened. `Tidies` asks that neither
happens: a write and a rotation come only while the active file holds what the counters account for.

`Proc.whole` is the process without those bytes. Until the next `Open` the process and its `whole`
take the same steps (`Step.whole`), so that the invariant of the log carries over (`Torn.of_step`).
`Open` finds in the torn file what it would find after a crash in the middle of a whole write
(`Torn.openLog`).
-/

namespace ToyMQ.Wal

open Lib List

/-! ## Bytes that nobody accounts for -/

/-- How many bytes of the active file the counters account for. -/
def Proc.counted (p : Proc) : ℕ := p.log.written - p.log.active.baseByteOffset

/-- The active file holds no more than the counters account for. -/
def Proc.Tidy (p : Proc) : Prop := p.log.active.f.data.length ≤ p.counted

instance (p : Proc) : Decidable p.Tidy := inferInstanceAs (Decidable (_ ≤ _))

/-- A write and a rotation come only while the active file is tidy. -/
def Tidies (p : Proc) : Action → Prop
  | .write _ => p.Tidy
  | .rotateCreate ok => ok = true → p.Tidy
  | _ => True

instance (p : Proc) : DecidablePred (Tidies p)
  | .write _ => inferInstanceAs (Decidable p.Tidy)
  | .rotateCreate _ => inferInstanceAs (Decidable (_ → _))
  | .append _ | .rotateSync _ | .fsync _ | .resume _ | .flushBegin | .flushSync _ | .flushEnd
  | .drop _ | .remove _ => isTrue trivial

/-- A segment without what its file holds beyond `n` bytes. -/
def Segment.trim (n : ℕ) (s : Segment) : Segment := { s with f := s.f.truncate n }

/-- The process without the bytes that the counters do not account for. -/
def Proc.whole (p : Proc) : Proc :=
  { p with log := { p.log with active := p.log.active.trim p.counted } }

theorem File.truncate_of_le {f : File} {n : ℕ} (hlen : f.data.length ≤ n)
    (hsynced : f.synced ≤ f.data.length) : f.truncate n = f := by
  rw [File.truncate, take_of_length_le hlen, min_eq_left (hsynced.trans hlen)]

theorem File.sync_truncate (f : File) (n : ℕ) : (f.truncate n).sync = f.sync.truncate n := by
  rw [File.sync, File.truncate, File.sync, File.truncate, length_take, min_comm n]

variable {p : Proc}

theorem Proc.whole_of_tidy (h : p.Tidy)
    (hsynced : p.log.active.f.synced ≤ p.log.active.f.data.length) : p.whole = p := by
  unfold Proc.whole Segment.trim
  rw [File.truncate_of_le h hsynced]

theorem syncAt_trim (t n : ℕ) (s : Segment) : syncAt t (s.trim n) = (syncAt t s).trim n := by
  unfold syncAt
  by_cases hindex : s.index = t
  · rw [if_pos hindex, if_pos (show (s.trim n).index = t from hindex), Segment.sync, Segment.trim,
      File.sync_truncate]
    rfl
  · rw [if_neg hindex, if_neg (show ¬ (s.trim n).index = t from hindex)]

theorem Proc.whole_syncSegment (p : Proc) (t : ℕ) :
    p.whole.syncSegment t = (p.syncSegment t).whole := by
  have hcounted : (p.syncSegment t).counted = p.counted := by
    show p.log.written - (syncAt t p.log.active).baseByteOffset = p.counted
    rw [baseByteOffset_syncAt]
    rfl
  unfold Proc.whole
  rw [hcounted]
  show { p.syncSegment t with log := { (p.syncSegment t).log with
    active := syncAt t (p.log.active.trim p.counted) } } = _
  rw [syncAt_trim]
  rfl

/-! ## Steps that write nothing -/

/-- The step writes no byte and opens no segment. -/
def Action.Quiet : Action → Prop
  | .write _ => False
  | .rotateCreate ok => ok = false
  | _ => True

/-- What such a step leaves as it is. -/
structure SameFile (p p' : Proc) : Prop where
  next_eq : p'.log.nextMsgID = p.log.nextMsgID
  counted_eq : p'.counted = p.counted
  data_eq : p'.log.active.f.data = p.log.active.f.data
  synced_le : p.log.active.f.synced ≤ p.log.active.f.data.length →
    p'.log.active.f.synced ≤ p'.log.active.f.data.length

variable {p' : Proc} {a : Action} {id₀ : ℕ}

theorem SameFile.of_active (hnext : p'.log.nextMsgID = p.log.nextMsgID)
    (hwritten : p'.log.written = p.log.written) (hactive : p'.log.active = p.log.active) :
    SameFile p p' := by
  refine ⟨hnext, ?_, by rw [hactive], fun h => hactive ▸ h⟩
  rw [Proc.counted, Proc.counted, hwritten, hactive]

theorem SameFile.syncSegment (p : Proc) (t : ℕ) : SameFile p (p.syncSegment t) := by
  have hdata : (syncAt t p.log.active).f.data = p.log.active.f.data := by
    unfold syncAt
    split_ifs <;> rfl
  refine ⟨rfl, ?_, hdata, fun h => ?_⟩
  · show p.log.written - (syncAt t p.log.active).baseByteOffset = p.counted
    rw [baseByteOffset_syncAt]
    rfl
  · show (syncAt t p.log.active).f.synced ≤ (syncAt t p.log.active).f.data.length
    rw [hdata]
    unfold syncAt
    split_ifs
    · exact le_rfl
    · exact h

theorem SameFile.trans {p'' : Proc} (h : SameFile p p') (h' : SameFile p' p'') : SameFile p p'' :=
  ⟨h'.next_eq.trans h.next_eq, h'.counted_eq.trans h.counted_eq, h'.data_eq.trans h.data_eq,
    fun hle => h'.synced_le (h.synced_le hle)⟩

/-- A step that writes nothing leaves the active file as it is, and is also a step of the process
without the bytes that nobody accounts for. -/
theorem Step.whole (ha : a.Quiet) (h : Step p a p') : Step p.whole a p'.whole ∧ SameFile p p' := by
  cases h with
  | appendTooLarge hfree hfit => exact ⟨.appendTooLarge hfree hfit, .of_active rfl rfl rfl⟩
  | appendRotateSync hfree hroom hfit hrot hlt =>
    exact ⟨.appendRotateSync hfree hroom hfit hrot hlt, .of_active rfl rfl rfl⟩
  | appendRotateCreate hfree hroom hfit hrot hle =>
    exact ⟨.appendRotateCreate hfree hroom hfit hrot hle, .of_active rfl rfl rfl⟩
  | appendWrite hfree hroom hfit => exact ⟨.appendWrite hfree hroom hfit, .of_active rfl rfl rfl⟩
  | @rotateSync rec hh =>
    -- An fsync covers the bytes that nobody accounts for as well, and cutting them off commutes.
    refine ⟨?_, (SameFile.syncSegment p p.log.active.index).trans (.of_active rfl rfl rfl)⟩
    have hstep : Step p.whole (.rotateSync true) _ := .rotateSync (p := p.whole) hh
    rw [show p.whole.log.active.index = p.log.active.index from rfl,
      Proc.whole_syncSegment] at hstep
    exact hstep
  | rotateSyncFail hh => exact ⟨.rotateSyncFail hh, .of_active rfl rfl rfl⟩
  | rotateCreate | write | writeTorn => cases ha
  | rotateCreateFail hh => exact ⟨.rotateCreateFail hh, .of_active rfl rfl rfl⟩
  | @fsync rec stop hh =>
    refine ⟨?_, (SameFile.syncSegment p p.log.syncFn).trans (.of_active rfl rfl rfl)⟩
    have hstep : Step p.whole (.fsync true) _ := .fsync (p := p.whole) hh
    rw [show p.whole.log.syncFn = p.log.syncFn from rfl, Proc.whole_syncSegment] at hstep
    exact hstep
  | fsyncFail hh => exact ⟨.fsyncFail hh, .of_active rfl rfl rfl⟩
  | resume hfree hi hle => exact ⟨.resume hfree hi hle, .of_active rfl rfl rfl⟩
  | resumeFail hfree hi herr => exact ⟨.resumeFail hfree hi herr, .of_active rfl rfl rfl⟩
  | flushBegin hfree hidle hmode hlt =>
    exact ⟨.flushBegin hfree hidle hmode hlt, .of_active rfl rfl rfl⟩
  | @flushSync snap target hf hopen =>
    refine ⟨?_, (SameFile.syncSegment p target).trans (.of_active rfl rfl rfl)⟩
    have hopen' : p.whole.isOpen target = true := by
      rw [← hopen]
      simp [Proc.isOpen, Proc.linked, Log.segments, Proc.whole, Segment.trim]
    have hstep : Step p.whole (.flushSync true) _ := .flushSync (p := p.whole) hf hopen'
    rw [Proc.whole_syncSegment] at hstep
    exact hstep
  | @flushSyncFail ok snap target hf hfail =>
    refine ⟨.flushSyncFail hf (hfail.imp_right fun hclosed => ?_), .of_active rfl rfl rfl⟩
    rw [← hclosed]
    simp [Proc.isOpen, Proc.linked, Log.segments, Proc.whole, Segment.trim]
  | flushEnd hfree hf => exact ⟨.flushEnd hfree hf, .of_active rfl rfl rfl⟩
  | flushEndFail hfree hf => exact ⟨.flushEndFail hfree hf, .of_active rfl rfl rfl⟩
  | dropNone hfree => exact ⟨.dropNone hfree, .of_active rfl rfl rfl⟩
  | drop hfree hne => exact ⟨.drop hfree hne, .of_active rfl rfl rfl⟩
  | remove hh hdrop => exact ⟨.remove hh hdrop, .of_active rfl rfl rfl⟩

/-- A step that writes nothing is not cut short. -/
theorem Action.Quiet.intact (h : a.Quiet) : a.Intact := by
  rintro cut rfl
  cases h

/-! ## Every step, as a step of the whole process -/

theorem Shape.tidy (h : Shape id₀ p) : p.Tidy :=
  h.localSize_eq.ge

theorem Shape.whole_eq (h : Shape id₀ p) : p.whole = p :=
  Proc.whole_of_tidy h.tidy h.active.2.2.synced_le

/-- A torn write of a tidy log leaves the first part of a frame in the file, and is a call that
fails without a write for the process without it. -/
theorem whole_torn {k : ℕ} {rec : Record} (h : Shape id₀ p) :
    ((p.torn rec k).fail rec).whole = p.fail rec := by
  have hcounted : p.counted = p.log.active.f.data.length := h.localSize_eq
  have hfile : (p.log.active.f.append ((codec.frame rec).take k)).truncate p.counted
      = p.log.active.f := by
    rw [File.truncate, File.append, hcounted, take_left,
      min_eq_left h.active.2.2.synced_le]
  show { p.fail rec with log := { p.log with active := { p.log.active with
    f := (p.log.active.f.append ((codec.frame rec).take k)).truncate p.counted } } } = _
  rw [hfile]
  rfl

/-- What a step of a log that keeps tidy does: it writes nothing, or the active file was tidy and
the step keeps it so, or it is a torn write. -/
inductive WholeStep (p : Proc) (a : Action) (p' : Proc) : Prop where
  | quiet (ha : a.Intact) (hstep : Step p.whole a p'.whole) (hfile : SameFile p p')
  | tidy (ha : a.Intact) (hstep : Step p.whole a p'.whole) (hshape : p'.whole = p')
  | torn {rec : Record} {k : ℕ} (ha : a = .write (some k)) (hh : p.holder = .write rec)
      (hk : k ≤ (codec.frame rec).length) (htidy : p.whole = p)
      (heq : p' = (p.torn rec k).fail rec) (hwhole : p'.whole = p.whole.fail rec)

theorem wholeStep_of_step (hi : Inv id₀ p.whole)
    (hsynced : p.log.active.f.synced ≤ p.log.active.f.data.length) (ha : Tidies p a)
    (hstep : Step p a p') : WholeStep p a p' := by
  by_cases hquiet : a.Quiet
  · obtain ⟨hstep', hfile⟩ := hstep.whole hquiet
    exact .quiet hquiet.intact hstep' hfile
  -- A write or a rotation: the file is tidy, so that the process is whole.
  have htidy : p.Tidy := by
    cases a with
    | write => exact ha
    | rotateCreate ok =>
      cases ok with
      | true => exact ha rfl
      | false => exact absurd rfl hquiet
    | _ => exact absurd trivial hquiet
  have hwhole := Proc.whole_of_tidy htidy hsynced
  have hi' : Inv id₀ p := hwhole ▸ hi
  by_cases hintact : a.Intact
  · have hinv := inv_of_step hintact hi' hstep
    refine .tidy hintact ?_ hinv.shape.whole_eq
    rwa [hwhole, hinv.shape.whole_eq]
  · cases hstep with
    | @writeTorn rec k hh hk =>
      refine .torn rfl hh hk hwhole rfl ?_
      rw [hwhole]
      exact whole_torn hi'.shape
    | write => exact absurd (by rintro cut ⟨⟩; rfl) hintact
    | _ => exact absurd (by rintro cut ⟨⟩) hintact

/-! ## The invariant of a log with torn writes -/

/-- The mode of a log does not change. -/
theorem syncMode_of_step (hstep : Step p a p') : p'.log.syncMode = p.log.syncMode := by
  cases hstep with
  | @write rec =>
    rcases fence_cases (p.wrote rec) rec with ⟨-, heq⟩ | heq | heq | ⟨-, heq⟩ | heq <;>
      rw [heq] <;> rfl
  | _ => rfl

/-- The invariant of a log that was opened at offset `w`, in which a write of `rec` may stop after
`k` bytes when `Cut rec k`. -/
structure Torn (Cut : Record → ℕ → Prop) (id₀ w : ℕ) (p : Proc) : Prop where
  inv : Inv id₀ p.whole
  named : Named p
  synced_le : p.log.active.f.synced ≤ p.log.active.f.data.length
  /-- Behind the bytes that are accounted for there is at most the first part of one frame, with
  the id that is next. -/
  rest : p.Tidy ∨ ∃ rec k, Cut rec k ∧ Pending p.log.nextMsgID rec ∧
    p.log.active.f.data = p.whole.log.active.f.data ++ (codec.frame rec).take k
  durable : p.log.syncMode ≠ .none → Durable w p.whole
  /-- The log was opened at offset `w`, and its appends end above. -/
  opened : w ≤ p.log.written
  entries : EntriesOk w [] p.log.nextMsgID p.entries

section Torn

variable {Cut : Record → ℕ → Prop} {id₀ w : ℕ} {p p' : Proc} {a : Action}

theorem Torn.rest_of_step (h : Torn Cut id₀ w p) (hstep : WholeStep p a p')
    (hcut : ∀ rec k, p.holder = .write rec → a = .write (some k) → Cut rec k)
    (hi' : Inv id₀ p'.whole) :
    p'.log.active.f.synced ≤ p'.log.active.f.data.length ∧
      (p'.Tidy ∨ ∃ rec k, Cut rec k ∧ Pending p'.log.nextMsgID rec ∧
        p'.log.active.f.data = p'.whole.log.active.f.data ++ (codec.frame rec).take k) := by
  cases hstep with
  | quiet ha hstep hfile =>
    refine ⟨hfile.synced_le h.synced_le, h.rest.imp (fun htidy => ?_) ?_⟩
    · rw [Proc.Tidy, hfile.data_eq, hfile.counted_eq]
      exact htidy
    · rintro ⟨rec, k, hk, hpend, hdata⟩
      refine ⟨rec, k, hk, by rwa [hfile.next_eq], ?_⟩
      show _ = p'.log.active.f.data.take p'.counted ++ _
      rw [hfile.data_eq, hfile.counted_eq]
      exact hdata
  | tidy ha hstep hshape =>
    rw [hshape] at hi'
    exact ⟨hi'.shape.active.2.2.synced_le, .inl hi'.shape.tidy⟩
  | @torn rec k ha hh hk htidy heq hwhole =>
    have hholder := h.inv.calls.holder
    rw [show p.whole.holder = p.holder from rfl, hh] at hholder
    have hdata : p'.log.active.f.data = p.log.active.f.data ++ (codec.frame rec).take k := by
      rw [heq]
      rfl
    refine ⟨?_, .inr ⟨rec, k, hcut rec k hh ha, ?_, ?_⟩⟩
    · rw [hdata, length_append, show p'.log.active.f.synced = p.log.active.f.synced by
        rw [heq]; rfl]
      exact h.synced_le.trans (Nat.le_add_right _ _)
    · rw [show p'.log.nextMsgID = p.log.nextMsgID by rw [heq]; rfl]
      exact hholder.2
    · rw [hdata, hwhole, htidy]
      rfl

/-- A step of a log that keeps tidy keeps the invariant. -/
theorem Torn.of_step (h : Torn Cut id₀ w p) (ha : Tidies p a) (hrm : a ≠ .remove false)
    (hname : NameFits p a)
    (hcut : ∀ rec k, p.holder = .write rec → a = .write (some k) → Cut rec k)
    (hstep : Step p a p') : Torn Cut id₀ w p' := by
  have hwhole := wholeStep_of_step h.inv h.synced_le ha hstep
  have hmode := syncMode_of_step hstep
  -- What the step does to the process without the bytes that nobody accounts for.
  have hlog : Inv id₀ p'.whole ∧ (p.log.syncMode ≠ .none → Durable w p'.whole) ∧
      w ≤ p'.log.written ∧ EntriesOk w [] p'.log.nextMsgID p'.entries := by
    have hintact : a.Intact → Step p.whole a p'.whole → Inv id₀ p'.whole ∧
        (p.log.syncMode ≠ .none → Durable w p'.whole) ∧
        w ≤ p'.log.written ∧ EntriesOk w [] p'.log.nextMsgID p'.entries := fun hia hst =>
      ⟨inv_of_step hia h.inv hst, fun hm => durable_of_step hia h.inv (h.durable hm) hst,
        h.opened.trans (extends_of_step h.inv hst).written,
        show EntriesOk w [] p'.whole.log.nextMsgID p'.whole.entries from
          entriesOk_of_step h.inv h.opened hia hst h.entries⟩
    cases hwhole with
    | quiet hia hst | tidy hia hst => exact hintact hia hst
    | @torn rec k _ hh _ htidy heq hw =>
      have hholder := h.inv.calls.holder
      rw [show p.whole.holder = p.holder from rfl, hh] at hholder
      rw [hw]
      refine ⟨h.inv.fail rec hholder.1,
        fun hm => (h.durable hm).carry h.inv (.refl rfl) rfl rfl rfl, ?_, ?_⟩
      · rw [heq]
        exact h.opened
      · rw [heq]
        refine h.entries.of_perm (l := p.holder.entries) ?_ le_rfl
        simp [Proc.entries, Proc.fail, Proc.torn, Holder.entries]
  obtain ⟨hsynced, hrest⟩ := h.rest_of_step hwhole hcut hlog.1
  exact ⟨hlog.1, named_of_step hrm hname h.named hstep, hsynced, hrest,
    fun hm => hlog.2.1 (hmode ▸ hm), hlog.2.2.1, hlog.2.2.2⟩

/-- A log that was just opened. -/
theorem torn_start {mode : SyncMode} {segmentBytes : ℕ} {strays : Dir} {sealed : List Segment}
    {active : Segment} {acc : Scan}
    (hi : Inv id₀ (Proc.start mode segmentBytes strays sealed active acc))
    (hn : Named (Proc.start mode segmentBytes strays sealed active acc)) :
    Torn Cut id₀ acc.globalPos (Proc.start mode segmentBytes strays sealed active acc) := by
  have hwhole := hi.shape.whole_eq
  refine ⟨hwhole.symm ▸ hi, hn, hi.shape.active.2.2.synced_le, .inl hi.shape.tidy, fun hmode => ?_,
    le_rfl, ?_⟩
  · rw [hwhole]
    exact durable_start hmode segmentBytes strays sealed active acc
  · exact ⟨by simp [Proc.entries, Proc.start, Holder.entries],
      by simp [Proc.entries, Proc.start, Holder.entries, entryIDs],
      by simp [Proc.entries, Proc.start, Holder.entries, entryIDs]⟩

/-! ## Opening a torn log -/

/-- `q` is the process `p` with the torn write, if there was one, completed: `more` holds the record
of that write. -/
structure Completes (p q : Proc) (more : List Record) : Prop where
  strays : q.strays = p.strays
  retired : q.retired = p.retired
  index_eq : q.log.active.index = p.log.active.index
  records_eq : q.log.active.records = p.whole.log.active.records ++ more
  /-- The file of `p` is a first part of the completed one. -/
  data : p.log.active.f.data <+: q.log.active.f.data
  synced_le : q.log.active.f.synced ≤ p.log.active.f.synced

theorem Torn.exists_completes (h : Torn Cut id₀ w p) :
    ∃ q more, Shape id₀ q ∧ Named q ∧ Completes p q more ∧
      (more = [] ∨ ∃ rec k, Cut rec k ∧ more = [rec] ∧
        p.log.active.f.data = p.whole.log.active.f.data ++ (codec.frame rec).take k) := by
  rcases h.rest with htidy | ⟨rec, k, hcut, hpend, hdata⟩
  · have hwhole := Proc.whole_of_tidy htidy h.synced_le
    have hi := h.inv
    rw [hwhole] at hi
    exact ⟨p, [], hi.shape, h.named, ⟨rfl, rfl, rfl, by rw [hwhole, append_nil],
      prefix_rfl, le_rfl⟩, .inl rfl⟩
  · refine ⟨p.whole.wrote rec, [rec],
      h.inv.shape.wrote hpend.fits hpend.msgID_eq hpend.room, ⟨h.named.strays, h.named.active⟩,
      ⟨rfl, rfl, rfl, h.inv.shape.active.2.2.records_withRecord hpend.fits, ?_,
        min_le_left _ _⟩, .inr ⟨rec, k, hcut, rfl, hdata⟩⟩
    rw [hdata]
    exact (prefix_append_right_inj _).mpr (List.take_prefix _ _)

section Completes

variable {q : Proc} {more : List Record} {cut : ℕ → ℕ × ℕ}

theorem Completes.crashDir_eq (hc : Completes p q more) (hmay : p.MayCut cut) :
    q.crashDir (Segment.cutBy cut) = p.crashDir (Segment.cutBy cut) := by
  obtain ⟨-, -, hle⟩ := hmay p.log.active (by rw [p.linked_eq]; simp)
  have hfile : q.log.active.cutBy cut = p.log.active.cutBy cut := by
    obtain ⟨rest, hrest⟩ := hc.data
    rw [Segment.cutBy, Segment.cutBy, hc.index_eq, ← hrest, take_append_of_le_length hle]
  rw [Proc.crashDir, Proc.crashDir, Proc.linked_eq, Proc.linked_eq, hc.strays, hc.retired,
    map_append, map_append, map_singleton, map_singleton, hc.index_eq, hfile]

theorem Completes.mayCut (hc : Completes p q more) (hmay : p.MayCut cut) : q.MayCut cut := by
  intro s hs
  rw [q.linked_eq, hc.retired] at hs
  rcases mem_append.mp hs with hretired | hactive
  · exact hmay s (by rw [p.linked_eq]; exact mem_append_left _ hretired)
  · obtain ⟨hsynced, hle, hlen⟩ := hmay p.log.active (by rw [p.linked_eq]; simp)
    rw [mem_singleton.mp hactive, hc.index_eq]
    exact ⟨hc.synced_le.trans hsynced, hle, hlen.trans hc.data.length_le⟩

/-- `Open` on what a crash leaves of a torn log: it finds the records of the sealed segments, then
those of the active one, up to the cut. The new process meets the invariant. -/
theorem Torn.openLog (h : Torn Cut id₀ w p) (hmay : p.MayCut cut) (hkeep : p.KeepsSealed cut)
    (mode : SyncMode) (segmentBytes : ℕ) :
    ∃ q more, Wal.openLog mode segmentBytes (p.crashDir (Segment.cutBy cut)) = .ok q ∧
      q.appended = stream p.retired ++ (p.whole.log.active.records ++ more).take
        (codec.whole (cut p.log.active.index).1 (p.whole.log.active.records ++ more)) ∧
      (more = [] ∨ ∃ rec k, Cut rec k ∧ more = [rec] ∧
        p.log.active.f.data = p.whole.log.active.f.data ++ (codec.frame rec).take k) ∧
      Torn Cut (firstID q.appended) q.log.written q := by
  obtain ⟨p', more, hshape, hnamed, hc, hmore⟩ := h.exists_completes
  have hkeep' : p'.KeepsSealed cut := by
    intro s hs
    exact hkeep s (hc.retired ▸ hs)
  obtain ⟨q, hopen, hr⟩ := openLog_of_tail hshape hnamed (tailCut_cutBy (hc.mayCut hmay) hkeep')
    mode segmentBytes
  rw [hc.crashDir_eq hmay] at hopen
  refine ⟨q, more, hopen, ?_, hmore, ?_⟩
  · rw [hr.appended_eq, hc.retired, hc.records_eq, hc.index_eq]
  · have hinv := hr.inv
    have hnamed' := hr.named hnamed
    rw [hr.start_eq] at hinv hnamed' ⊢
    exact torn_start hinv hnamed'

end Completes

end Torn

/-! ## The lives of a log -/

/-- The states that a log reaches over the lives of its directory, when every step meets `ok` and
crashes keep the sealed files. The list holds the records of the appends of earlier lives that had
not returned an error when their process ended. -/
inductive Lives (ok : Proc → Action → Prop) : List Record → Proc → Prop where
  | opened {mode : SyncMode} {segmentBytes : ℕ} {p : Proc}
      (hopen : openLog mode segmentBytes [] = .ok p) : Lives ok [] p
  | step {kept : List Record} {p p' : Proc} {a : Action} (h : Lives ok kept p) (ha : ok p a)
      (hstep : Wal.step p a = some p') : Lives ok kept p'
  | reopened {mode : SyncMode} {segmentBytes : ℕ} {kept : List Record} {p q : Proc}
      {cut : ℕ → ℕ × ℕ} (h : Lives ok kept p) (hmay : p.MayCut cut) (hkeep : p.KeepsSealed cut)
      (hopen : openLog mode segmentBytes (p.crashDir (Segment.cutBy cut)) = .ok q) :
      Lives ok (kept ++ p.entries.map Prod.fst) q

variable {ok : Proc → Action → Prop}

/-- A run from a state that a log reaches. -/
theorem Lives.run {kept : List Record} {as : List Action} (h : Lives ok kept p)
    (hrun : Run Wal.step ok p as p') : Lives ok kept p' :=
  hrun.invariant (I := Lives ok kept) h fun _ _ _ ha h hstep => h.step ha hstep

/-- A step that keeps the log tidy and its directory readable: besides, no removal fails, and
segment names keep to six digits. -/
def TidyStep (p : Proc) (a : Action) : Prop :=
  Tidies p a ∧ a ≠ .remove false ∧ NameFits p a

instance (p : Proc) (a : Action) : Decidable (TidyStep p a) :=
  inferInstanceAs (Decidable (_ ∧ _ ∧ _))

theorem Lives.torn {Cut : Record → ℕ → Prop} (hok : ∀ p a, ok p a → TidyStep p a ∧
      ∀ rec k, p.holder = .write rec → a = .write (some k) → Cut rec k) {kept : List Record}
    (h : Lives ok kept p) : ∃ id₀ w, Torn Cut id₀ w p := by
  induction h with
  | @opened mode segmentBytes p hopen =>
    have hi := inv_of_openLog_nil hopen
    obtain rfl := eq_of_openLog_nil hopen
    exact ⟨0, _, torn_start hi (named_empty mode segmentBytes)⟩
  | step _ ha hstep ih =>
    obtain ⟨id₀, w, ht⟩ := ih
    obtain ⟨⟨htidy, hrm, hname⟩, hcut⟩ := hok _ _ ha
    exact ⟨id₀, w, ht.of_step htidy hrm hname hcut (step_sound hstep)⟩
  | @reopened mode segmentBytes kept p q cut _ hmay hkeep hopen ih =>
    obtain ⟨id₀, w, ht⟩ := ih
    obtain ⟨q', -, hopen', -, -, ht'⟩ := ht.openLog hmay hkeep mode segmentBytes
    obtain rfl : q = q' := Except.ok.inj (hopen.symm.trans hopen')
    exact ⟨_, _, ht'⟩

end ToyMQ.Wal
