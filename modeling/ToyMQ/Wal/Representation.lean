import ToyMQ.Wal.PowerLoss
import ToyMQ.Wal.Reader

/-!
# The representation invariant of the log, over all of its lives

`Log.Rep` says what the fields of the log mean at every moment, in terms of the slice and the
counters alone. Most of it is read off `Shape`. The rest is `Measured`: the sizes depend on what
`Append` has decided and not yet done, so that it speaks about the holder of the mutex as well.

`rep_of_lives` is the result for a log that starts on an empty directory and is run, killed, cut at
the end of its active file and opened again any number of times, with one segment cap. All of it but
the lengths of the sealed segments holds when the cap changes from life to life
(`consistent_of_lives`). Segment names have to keep to six digits: `Open` passes over a file with a
longer name, and a later rotation writes behind what it holds (`duplicate_id_past_name_limit`).
-/

namespace ToyMQ.Wal

open Lib List Option

/-! ## The maxima of a segment -/

/-- A running maximum over the records of a segment, as `Append` and recovery compute it. -/
def maxOver (field : Record → UInt64) (rs : List Record) : UInt64 :=
  rs.foldl (fun m rec => if m < field rec then field rec else m) 0

theorem maxOver_append_singleton (field : Record → UInt64) (rs : List Record) (rec : Record) :
    maxOver field (rs ++ [rec])
      = if maxOver field rs < field rec then field rec else maxOver field rs := by
  rw [maxOver, foldl_append]
  rfl

variable {rs : List Record}

/-- Nothing is above the running maximum. -/
theorem le_maxOver (field : Record → UInt64) {r : Record} (hr : r ∈ rs) :
    field r ≤ maxOver field rs := by
  induction rs using List.reverseRecOn with
  | nil => simp at hr
  | append_singleton rs rec ih =>
    rw [maxOver_append_singleton]
    split_ifs with hlt
    · rcases mem_append.mp hr with hold | hnew
      · exact UInt64.le_trans (ih hold) (UInt64.le_of_lt hlt)
      · rw [mem_singleton.mp hnew]
        exact UInt64.le_refl _
    · rcases mem_append.mp hr with hold | hnew
      · exact ih hold
      · rw [mem_singleton.mp hnew]
        exact UInt64.not_lt.mp hlt

/-- The running maximum is one of the values, or 0. -/
theorem maxOver_attained (field : Record → UInt64) (rs : List Record) :
    maxOver field rs = 0 ∨ ∃ r ∈ rs, field r = maxOver field rs := by
  induction rs using List.reverseRecOn with
  | nil => exact .inl rfl
  | append_singleton rs rec ih =>
    rw [maxOver_append_singleton]
    split_ifs with hlt
    · exact .inr ⟨rec, by simp, rfl⟩
    · refine ih.imp_right fun ⟨r, hr, heq⟩ => ⟨r, mem_append_left _ hr, heq⟩

structure Segment.Maximal (s : Segment) : Prop where
  maxTsNs : s.maxTsNs = maxOver Record.tsNs s.records
  maxVisibleAtNs : s.maxVisibleAtNs = maxOver Record.visibleAtNs s.records

variable {s : Segment} {rec : Record} {segs : List Segment} {k segmentBytes : ℕ} {mode : SyncMode}
  {q : Proc}

theorem Segment.Maximal.syncAt (h : s.Maximal) (t : ℕ) : (syncAt t s).Maximal := by
  unfold Wal.syncAt
  split_ifs
  · exact ⟨h.maxTsNs, h.maxVisibleAtNs⟩
  · exact h

/-- A write keeps the maxima up to date. -/
theorem Segment.Maximal.withRecord (h : s.Maximal) (hclean : s.Clean) (hfit : Fits rec) :
    (s.withRecord rec).Maximal := by
  refine ⟨?_, ?_⟩
  · rw [hclean.records_withRecord hfit, maxOver_append_singleton, ← h.maxTsNs]
    rfl
  · rw [hclean.records_withRecord hfit, maxOver_append_singleton, ← h.maxVisibleAtNs]
    rfl

theorem Segment.maximal_placed (acc : Scan) (hts : s.maxTsNs = 0) (hvisible : s.maxVisibleAtNs = 0)
    (hrec : s.records = rs) : (s.placed acc rs).Maximal := by
  subst hrec
  refine ⟨?_, ?_⟩
  · show s.records.foldl _ s.maxTsNs = _
    rw [hts]
    rfl
  · show s.records.foldl _ s.maxVisibleAtNs = _
    rw [hvisible]
    rfl

/-- The maxima of the sealed segments after recovery. -/
theorem maximal_of_recoverSealed {segs' : List Segment} {acc acc' : Scan}
    (h : recoverSealed acc segs = .ok (segs', acc'))
    (hzero : ∀ s ∈ segs, s.maxTsNs = 0 ∧ s.maxVisibleAtNs = 0) : ∀ s ∈ segs', s.Maximal := by
  induction segs generalizing acc segs' acc' with
  | nil =>
    obtain ⟨rfl, -⟩ := Prod.mk.inj (Except.ok.inj h)
    exact nofun
  | cons s segs ih =>
    obtain ⟨⟨hts, hvisible⟩, hrest⟩ := forall_mem_cons.mp hzero
    simp only [recoverSealed, recoverSegment, Bool.false_eq_true, if_false] at h
    split at h
    · cases h
    · next seg acc₁ hseg =>
      split at h
      · cases h
      · next rest acc₂ hsealed =>
        obtain ⟨rfl, -⟩ := Prod.mk.inj (Except.ok.inj h)
        split_ifs at hseg with heof
        obtain ⟨rfl, -⟩ := Prod.mk.inj (Except.ok.inj hseg)
        exact forall_mem_cons.mpr
          ⟨Segment.maximal_placed acc hts hvisible rfl, ih hsealed hrest⟩

theorem maximal_of_openLog {d : Dir} {sealed : List Segment} {active : Segment}
    (hfound : discoverSegments d = sealed ++ [active])
    (hzero : ∀ s ∈ sealed ++ [active], s.maxTsNs = 0 ∧ s.maxVisibleAtNs = 0)
    (hdata : active.f.data = (codec.frames rs).take k) (hfit : ∀ r ∈ rs, Fits r)
    (hsynced : active.f.synced ≤ active.f.data.length)
    (hopen : openLog mode segmentBytes d = .ok q) : ∀ s ∈ q.log.segments, s.Maximal := by
  simp only [openLog, hfound, dropLast_concat, getLast?_concat, getD_some]
    at hopen
  split at hopen
  · cases hopen
  · next sealed' acc hsealed =>
    rw [recoverSegment_of_take acc hdata hfit hsynced] at hopen
    obtain rfl := Except.ok.inj hopen
    intro s hs
    rcases mem_append.mp hs with hold | hlast
    · exact maximal_of_recoverSealed hsealed
        (fun s hs => hzero s (mem_append_left _ hs)) s hold
    · rw [mem_singleton.mp hlast]
      obtain ⟨hts, hvisible⟩ := hzero active (by simp)
      exact Segment.maximal_placed acc hts hvisible (Segment.records_of_data_eq
        (data_truncate_of_take hdata) fun r hr => hfit r (mem_of_mem_take hr))

/-! ## The sizes of the segments -/

/-- A segment that `rotate` may seal: within the cap, or with a single record. -/
def Segment.Sealable (segmentBytes : ℕ) (s : Segment) : Prop :=
  s.f.data.length ≤ segmentBytes ∨ s.records.length = 1

/-- What the holder of the mutex has decided about the active segment. -/
def HolderMeasured (segmentBytes : ℕ) (active : Segment) : Holder → Prop
  | .rotateSync _ | .rotateCreate _ => 0 < segmentBytes
  | .write rec =>
    segmentBytes = 0 ∨ active.f.data.length + (codec.frame rec).length ≤ segmentBytes ∨
      active.records = []
  | _ => True

/-- The sizes of the segments when all lives have one cap, and the maxima in any case. -/
structure Measured (cap : Option ℕ) (p : Proc) : Prop where
  cap_eq : ∀ c ∈ cap, p.log.segmentBytes = c
  /-- Every segment before the active one could be sealed. -/
  older : ∀ c ∈ cap, ∀ s ∈ p.older, s.Sealable c
  /-- The active segment can be sealed as soon as it holds a record. -/
  active : ∀ c ∈ cap, c = 0 ∨ p.log.active.f.data.length ≤ c ∨ p.log.active.records.length ≤ 1
  /-- The decision that the holder of the mutex has made. -/
  holder : ∀ c ∈ cap, HolderMeasured c p.log.active p.holder
  maximal : ∀ s ∈ p.all, s.Maximal

namespace Measured

variable {cap : Option ℕ} {p p' : Proc}

/-- A step that moves no segment. -/
theorem congr (h : Measured cap p) (hcap : p'.log.segmentBytes = p.log.segmentBytes)
    (holder : p'.older = p.older) (hactive : p'.log.active = p.log.active)
    (hholder : ∀ c ∈ cap, HolderMeasured c p.log.active p'.holder) : Measured cap p' := by
  refine ⟨fun c hc => hcap.trans (h.cap_eq c hc), ?_, ?_, ?_, ?_⟩
  · rw [holder]
    exact h.older
  · rw [hactive]
    exact h.active
  · rw [hactive]
    exact hholder
  · rw [Proc.all, holder, hactive]
    exact h.maximal

/-- A call that returns with an error. -/
theorem fail (h : Measured cap p) (rec : Record) : Measured cap (p.fail rec) :=
  h.congr rfl rfl rfl fun _ _ => trivial

/-- An fsync changes neither sizes nor maxima. -/
theorem syncSegment (h : Measured cap p) (t : ℕ) : Measured cap (p.syncSegment t) := by
  have hactive : (p.syncSegment t).log.active = syncAt t p.log.active := rfl
  have hsealable : ∀ (c : ℕ) (s : Segment), s.Sealable c → (syncAt t s).Sealable c := by
    intro c s hs
    rwa [Segment.Sealable, data_syncAt, records_syncAt]
  refine ⟨h.cap_eq, fun c hc s hs => ?_, ?_, fun c hc => ?_, fun s hs => ?_⟩
  · have hs' : s ∈ p.gone ∨ s ∈ (p.toDrop ++ p.log.sealed).map (syncAt t) := by
      simpa [Proc.older, Proc.syncSegment, mem_append] using hs
    rcases hs' with hgone | hmap
    · exact h.older c hc s (mem_append_left _ hgone)
    · obtain ⟨s', hs', rfl⟩ := List.mem_map.mp hmap
      exact hsealable c s' (h.older c hc s' (mem_append_right _ hs'))
  · rw [hactive, data_syncAt, records_syncAt]
    exact h.active
  · have hholder := h.holder c hc
    show HolderMeasured c (syncAt t p.log.active) p.holder
    cases hp : p.holder <;> rw [hp] at hholder
    case write rec =>
      rw [HolderMeasured, data_syncAt, records_syncAt]
      exact hholder
    all_goals exact hholder
  · rw [all_syncSegment] at hs
    rcases mem_append.mp hs with hgone | hlinked
    · exact h.maximal s (p.all_eq_gone_append ▸ mem_append_left _ hgone)
    · obtain ⟨s', hs', rfl⟩ := List.mem_map.mp hlinked
      exact (h.maximal s' (p.all_eq_gone_append ▸ mem_append_right _ hs')).syncAt t

variable {id₀ : ℕ}

theorem rotated (h : Measured cap p) (hsh : Shape id₀ p) (hcap : ∀ c ∈ cap, 0 < c)
    (hne : p.log.active.records ≠ []) (rec : Record) :
    Measured cap { p.rotated with holder := .write rec } := by
  have hfile : p.nextSegment.f = File.empty := by
    rw [Proc.nextSegment, hsh.fresh _ (Nat.lt_succ_self _)]
    rfl
  have hrec : p.nextSegment.records = [] := by
    rw [Segment.records, hfile]
    exact codec.records_frames [] (by simp)
  have hsealable : ∀ c ∈ cap, p.log.active.Sealable c := by
    intro c hc
    have hpos := length_pos_iff.mpr hne
    rcases h.active c hc with hzero | hle | hone
    · have := hcap c hc
      omega
    · exact .inl hle
    · exact .inr (by omega)
  have holder : p.rotated.older = p.older ++ [p.log.active] := by
    simp [Proc.rotated, Proc.older]
  refine ⟨h.cap_eq, fun c hc s hs => ?_, fun c hc => .inr (.inr ?_),
    fun c hc => .inr (.inr hrec), fun s hs => ?_⟩
  · replace hs : s ∈ p.older ++ [p.log.active] := holder ▸ hs
    rcases mem_append.mp hs with hold | hlast
    · exact h.older c hc s hold
    · rw [mem_singleton.mp hlast]
      exact hsealable c hc
  · show p.nextSegment.records.length ≤ 1
    rw [hrec]
    exact Nat.zero_le 1
  · replace hs : s ∈ (p.older ++ [p.log.active]) ++ [p.nextSegment] := holder ▸ hs
    rcases mem_append.mp hs with hold | hlast
    · exact h.maximal s hold
    · rw [mem_singleton.mp hlast]
      refine ⟨?_, ?_⟩
      · rw [hrec]
        rfl
      · rw [hrec]
        rfl

/-- The write that `Append` has decided on. -/
theorem wrote (h : Measured cap p) (hsh : Shape id₀ p) {rec : Record} (hfit : Fits rec)
    (hholder : p.holder = .write rec) : Measured cap { p.wrote rec with holder := .free } := by
  have hclean : p.log.active.Clean := hsh.active.2.2
  have hsize : (p.log.active.withRecord rec).f.data.length
      = p.log.active.f.data.length + (codec.frame rec).length :=
    length_append
  have hrec := hclean.records_withRecord hfit
  refine ⟨h.cap_eq, h.older, fun c hc => ?_, fun _ _ => trivial, fun s hs => ?_⟩
  · have hdecided := h.holder c hc
    rw [hholder] at hdecided
    show c = 0 ∨ (p.log.active.withRecord rec).f.data.length ≤ c ∨
      (p.log.active.withRecord rec).records.length ≤ 1
    rw [hsize, hrec]
    rcases hdecided with hzero | hle | hnil
    · exact .inl hzero
    · exact .inr (.inl hle)
    · exact .inr (.inr (by rw [hnil]; exact le_rfl))
  · rcases mem_append.mp hs with hold | hlast
    · exact h.maximal s (mem_append_left _ hold)
    · rw [mem_singleton.mp hlast]
      exact (h.maximal p.log.active (mem_append_right _ (by simp))).withRecord hclean hfit

end Measured

variable {p p' : Proc} {id₀ : ℕ} {cap : Option ℕ}

theorem shouldRotate_of_append {rec' : Record} (h : p.append rec = some p')
    (hholder : p'.holder = .write rec') : p.log.shouldRotate rec' = false := by
  unfold Proc.append at h
  split_ifs at h with hguard hfit hrot hlt
  all_goals obtain rfl := Option.some.inj h
  · cases hholder
  · cases hholder
  · obtain rfl := Holder.write.inj hholder
    exact Bool.eq_false_iff.mpr hrot
  · cases hholder

theorem measured_of_not_shouldRotate (h : Shape id₀ p) (hrot : p.log.shouldRotate rec = false) :
    HolderMeasured p.log.segmentBytes p.log.active (.write rec) := by
  simp only [Log.shouldRotate, h.localSize_eq, Bool.and_eq_false_iff, decide_eq_false_iff_not]
    at hrot
  rcases hrot with hzero | hempty | hle
  · exact .inl (by omega)
  · refine .inr (.inr ?_)
    have hlen := codec.length_le_length_frames p.log.active.records
    rw [← h.active.2.2.length_data] at hlen
    exact length_eq_zero_iff.mp (by omega)
  · exact .inr (.inl (by omega))

theorem measured_of_step {a : Action} (ha : a.Intact) (hi : Inv id₀ p) (h : Measured cap p)
    (hstep : step p a = some p') : Measured cap p' := by
  have hholder := hi.calls.holder
  have hdecided := h.holder
  have hcap : ∀ rec, p.log.shouldRotate rec = true → ∀ c ∈ cap, 0 < c := by
    intro rec hrot c hc
    simp only [Log.shouldRotate, Bool.and_eq_true, decide_eq_true_eq] at hrot
    exact h.cap_eq c hc ▸ hrot.1
  have hdone : ∀ c ∈ cap, HolderMeasured c p.log.active .free := fun _ _ => trivial
  cases step_sound hstep with
  | appendTooLarge | rotateSyncFail | rotateCreateFail | fsyncFail => exact h.fail _
  | appendRotateSync hfree hroom hfit hrot | appendRotateCreate hfree hroom hfit hrot =>
    exact h.congr rfl rfl rfl (hcap _ hrot)
  | appendWrite =>
    refine h.congr rfl rfl rfl fun c hc => ?_
    rw [← h.cap_eq c hc]
    exact measured_of_not_shouldRotate hi.shape (shouldRotate_of_append hstep rfl)
  | rotateSync hh =>
    rw [hh] at hdecided
    exact (h.syncSegment p.log.active.index).congr rfl rfl rfl hdecided
  | rotateCreate hh =>
    rw [hh] at hholder hdecided
    exact h.rotated hi.shape hdecided hholder.2.2.1 _
  | @write rec hh =>
    rw [hh] at hholder
    have hwrote := h.wrote hi.shape hholder.2.fits hh
    rcases fence_cases (p.wrote rec) rec with ⟨-, heq⟩ | heq | heq | ⟨-, heq⟩ | heq <;> rw [heq] <;>
      exact hwrote.congr rfl rfl rfl fun _ _ => trivial
  | writeTorn => cases ha _ rfl
  | fsync => exact (h.syncSegment p.log.syncFn).congr rfl rfl rfl hdone
  | resume | resumeFail => exact h.congr rfl rfl rfl hdone
  | flushBegin | flushSyncFail | flushEnd | flushEndFail => exact h.congr rfl rfl rfl hdecided
  | flushSync =>
    have hsync := h.syncSegment (p := p)
    exact (hsync _).congr rfl rfl rfl (hsync _).holder
  | dropNone => exact h
  | @drop keepIndex hfree =>
    rw [hfree] at hholder
    exact h.congr rfl (older_of_drop hholder keepIndex).symm rfl fun _ _ => trivial
  | @remove ok s rest hh hdrop =>
    refine h.congr rfl (older_of_remove hdrop).symm rfl fun c hc => ?_
    by_cases hrest : rest = [] <;> simp [hrest, HolderMeasured]

theorem measured_of_reopened {keep : Segment → File} (h : Measured cap p) (hsh : Shape id₀ p)
    (hn : Named p) (hcap : ∀ c ∈ cap, segmentBytes = c) (hcut : TailCut p keep k)
    (hr : Reopened mode segmentBytes p keep k q)
    (hopen : openLog mode segmentBytes (p.crashDir keep) = .ok q) : Measured cap q := by
  have hclean : p.log.active.Clean := hsh.active.2.2
  have holder : q.older = q.log.sealed := by
    rw [hr.start_eq]
    rfl
  refine ⟨fun c hc => ?_, fun c hc s hs => ?_, fun c hc => ?_, fun c hc => ?_, ?_⟩
  · rw [hr.start_eq, ← hcap c hc]
    rfl
  · rw [holder] at hs
    have hmem : (s.index, s.f) ∈ q.log.sealed.map fun s => (s.index, s.f) := List.mem_map_of_mem hs
    rw [hr.sealed_eq] at hmem
    obtain ⟨s₀, hs₀, heq⟩ := List.mem_map.mp hmem
    have hdata : s.f.data = s₀.f.data := by
      rw [← (hcut.whole s₀ hs₀).1]
      exact congrArg (fun e => e.2.data) heq.symm
    have hrec : s.records = s₀.records := by rw [Segment.records, hdata, Segment.records]
    rw [Segment.Sealable, hdata, hrec]
    exact h.older c hc s₀ (mem_append_right _ hs₀)
  · have hlen : q.log.active.f.data.length ≤ p.log.active.f.data.length := by
      rw [hr.active_file, data_truncate_of_take (hcut.data_eq hsh), hclean.length_data]
      conv_rhs => rw [← take_length (l := p.log.active.records)]
      exact codec.length_frames_take_mono _ (codec.whole_le_length _ _)
    have hcount : q.log.active.records.length ≤ p.log.active.records.length := by
      rw [hr.active_records]
      exact length_take_le' _ _
    rcases h.active c hc with hzero | hle | hone
    · exact .inl hzero
    · exact .inr (.inl (hlen.trans hle))
    · exact .inr (.inr (hcount.trans hone))
  · rw [hr.start_eq]
    trivial
  · rw [Proc.all, holder]
    refine maximal_of_openLog
      (discoverSegments_crashDir hn.strays hsh.ascending_linked (hn.linked hsh)) ?_
      (hcut.data_eq hsh) hclean.fits hcut.synced_le hopen
    intro s hs
    rcases mem_append.mp hs with hold | hlast
    · obtain ⟨s', -, rfl⟩ := List.mem_map.mp hold
      exact ⟨rfl, rfl⟩
    · rw [mem_singleton.mp hlast]
      exact ⟨rfl, rfl⟩

/-! ## The invariant -/

/-- The representation invariant of the log, apart from the cap. -/
structure Log.Consistent (l : Log) : Prop where
  ascending : Ascending l.segments
  nonempty : ∀ s ∈ l.sealed, s.records ≠ []
  /-- Each segment starts where the one before it ends, in bytes and in ids. -/
  chained : l.segments.IsChain fun s s' =>
    s'.baseByteOffset = s.baseByteOffset + s.f.data.length ∧
      s'.baseMsgID = s.baseMsgID + s.records.length
  /-- The retained records have consecutive ids from `RetainedFloor` on. -/
  numbered : Numbered l.retainedFloor (stream l.segments)
  next_eq : l.nextMsgID = l.retainedFloor + (stream l.segments).length
  base_le : l.active.baseByteOffset ≤ l.committed
  committed_le : l.committed ≤ l.written
  /-- `committed` lies between two records of the active segment. -/
  boundary : ∃ k ≤ l.active.records.length,
    l.committed = l.active.baseByteOffset + (codec.frames (l.active.records.take k)).length
  /-- Neither difference of `readableLenLocked`, which `SegmentInfos` uses too, wraps around. -/
  no_wrap : ∀ s ∈ l.segments, s.baseByteOffset ≤ l.committed ∧
    ∀ next, l.segmentAfter s.index = some next → s.baseByteOffset ≤ next.baseByteOffset
  /-- The maxima are upper bounds of the records. -/
  max_ge : ∀ s ∈ l.segments, ∀ r ∈ s.records,
    r.tsNs ≤ s.maxTsNs ∧ r.visibleAtNs ≤ s.maxVisibleAtNs
  /-- The maxima are attained, unless they are 0. -/
  max_attained : ∀ s ∈ l.segments,
    (s.maxTsNs = 0 ∨ ∃ r ∈ s.records, r.tsNs = s.maxTsNs) ∧
      (s.maxVisibleAtNs = 0 ∨ ∃ r ∈ s.records, r.visibleAtNs = s.maxVisibleAtNs)

/-- The representation invariant of the log. -/
structure Log.Rep (l : Log) : Prop extends Log.Consistent l where
  /-- A sealed segment is within the cap, or holds a single record. -/
  capped : ∀ s ∈ l.sealed, s.f.data.length ≤ l.segmentBytes ∨ s.records.length = 1

variable {off : ℕ}

/-- A layout is a chain. -/
theorem Layout.isChain {id : ℕ} (h : Layout id off segs) :
    segs.IsChain fun s s' =>
      s'.baseByteOffset = s.baseByteOffset + s.f.data.length ∧
        s'.baseMsgID = s.baseMsgID + s.records.length := by
  induction segs generalizing id off with
  | nil => exact .nil
  | cons s segs ih =>
    obtain ⟨hid, hoff, -, hrest⟩ := h
    cases segs with
    | nil => exact .singleton s
    | cons =>
      refine .cons_cons ⟨?_, ?_⟩ (ih hrest)
      · rw [hoff]
        exact hrest.2.1
      · rw [hid]
        exact hrest.1

/-- The base offsets of a layout increase along it. -/
theorem Layout.base_le_of_append {id : ℕ} {pre mid post : List Segment} {s' : Segment}
    (h : Layout id off (pre ++ s :: (mid ++ s' :: post))) :
    s.baseByteOffset ≤ s'.baseByteOffset := by
  have hs := (Layout.base h).2
  have hsplit : pre ++ s :: (mid ++ s' :: post) = (pre ++ s :: mid) ++ s' :: post := by simp
  rw [hsplit] at h
  have hs' := (Layout.base h).2
  rw [hs, hs', stream_append, codec.frames_append, length_append]
  omega

/-- The slice of a log is laid out from its floor on. -/
theorem Shape.layout_segments (h : Shape id₀ p) :
    ∃ off, Layout p.log.retainedFloor off p.log.segments ∧
      p.log.nextMsgID = p.log.retainedFloor + (stream p.log.segments).length := by
  have hall : p.all = (p.gone ++ p.toDrop) ++ p.log.segments := by
    simp [Proc.all, Proc.older, Log.segments]
  have hlay := h.layout
  rw [hall] at hlay
  obtain ⟨-, hslice⟩ := layout_append.mp hlay
  have hfloor : p.log.retainedFloor = id₀ + (stream (p.gone ++ p.toDrop)).length := by
    rw [Log.segments] at hslice
    rw [Log.retainedFloor]
    cases hsealed : p.log.sealed with
    | nil =>
      rw [hsealed] at hslice
      exact hslice.1
    | cons =>
      rw [hsealed] at hslice
      exact hslice.1
  refine ⟨_, hfloor ▸ hslice, ?_⟩
  rw [h.next_eq, h.appended_eq, hall, stream_append, length_append, hfloor, Nat.add_assoc]

theorem Shape.boundary_active (h : Shape id₀ p) :
    ∃ k ≤ p.log.active.records.length, p.log.committed
      = p.log.active.baseByteOffset + (codec.frames (p.log.active.records.take k)).length := by
  obtain ⟨k, hk, hcommitted⟩ := h.boundary
  have hbase := h.active.2.1
  have hsplit := h.appended_split
  have hlow : (stream p.older).length ≤ k := by
    -- A boundary below the active segment would lie below its first byte.
    by_contra hlt
    have hle := h.base_le
    have hless := codec.length_frames_take_lt p.appended (Nat.lt_of_not_le hlt)
      (by rw [hsplit, length_append]; omega)
    rw [← hcommitted, hsplit, take_left, ← hbase] at hless
    omega
  refine ⟨k - (stream p.older).length, ?_, ?_⟩
  · rw [hsplit, length_append] at hk
    omega
  · rw [hcommitted, hsplit, take_append, take_of_length_le hlow, codec.frames_append,
      length_append, hbase]

theorem consistent_of_inv (hi : Inv id₀ p) (hm : Measured cap p) : p.log.Consistent := by
  have hsh := hi.shape
  have hslice : ∀ s ∈ p.log.segments, s ∈ p.all := by
    intro s hs
    rw [Proc.all_eq_gone_append]
    exact mem_append_right _ (mem_append_right _ hs)
  have holder : ∀ s ∈ p.log.sealed, s ∈ p.older := fun s hs =>
    mem_append_right _ (mem_append_right _ hs)
  obtain ⟨off, hlay, hnext⟩ := hsh.layout_segments
  have hasc : Ascending p.log.segments :=
    (pairwise_append.mp hsh.ascending_linked).2.1
  exact
    { ascending := hasc
      nonempty := fun s hs => hsh.nonempty s (holder s hs)
      chained := hlay.isChain
      numbered := hlay.numbered
      next_eq := hnext
      base_le := hsh.base_le
      committed_le := hsh.committed_le
      boundary := hsh.boundary_active
      no_wrap := by
        intro s hs
        obtain ⟨pre, post, hsplit⟩ := append_of_mem hs
        refine ⟨?_, fun next hnext => ?_⟩
        · rcases mem_append.mp hs with hsealed | hlast
          · have hend := hsh.endOffset_le (holder s hsealed)
            have hbase := hsh.base_le
            rw [Segment.endOffset] at hend
            omega
          · rw [mem_singleton.mp hlast]
            exact hsh.base_le
        · -- The successor has a higher index, so that it comes later in the slice.
          have hlt : s.index < next.index := by simpa using find?_some hnext
          have hmem := mem_of_find?_eq_some hnext
          rw [hsplit] at hmem hasc hlay
          obtain ⟨-, -, hbelow⟩ := pairwise_append.mp hasc
          rcases mem_append.mp hmem with hpre | hpost
          · have := hbelow next hpre s mem_cons_self
            omega
          · rcases mem_cons.mp hpost with rfl | hlater
            · exact absurd hlt (lt_irrefl _)
            · obtain ⟨mid, tail, rfl⟩ := append_of_mem hlater
              exact hlay.base_le_of_append
      max_ge := fun s hs r hr => by
        have hmax := hm.maximal s (hslice s hs)
        rw [hmax.maxTsNs, hmax.maxVisibleAtNs]
        exact ⟨le_maxOver _ hr, le_maxOver _ hr⟩
      max_attained := fun s hs => by
        have hmax := hm.maximal s (hslice s hs)
        rw [hmax.maxTsNs, hmax.maxVisibleAtNs]
        exact ⟨maxOver_attained _ _, maxOver_attained _ _⟩ }

/-- The states that a log reaches over the lives of its directory, when every step meets `ok` and
what ends a life cuts the active file only. All lives have the segment cap `cap`, when it is given;
otherwise each has its own. -/
inductive Lifetimes (ok : Proc → Action → Prop) (cap : Option ℕ) : Proc → Prop where
  | opened {mode : SyncMode} {segmentBytes : ℕ} {p : Proc} (hcap : ∀ c ∈ cap, segmentBytes = c)
      (hopen : openLog mode segmentBytes [] = .ok p) : Lifetimes ok cap p
  | step {p p' : Proc} {a : Action} (h : Lifetimes ok cap p) (ha : ok p a)
      (hstep : Wal.step p a = some p') : Lifetimes ok cap p'
  | reopened {mode : SyncMode} {segmentBytes : ℕ} {p q : Proc} {keep : Segment → File} {k : ℕ}
      (h : Lifetimes ok cap p) (hcap : ∀ c ∈ cap, segmentBytes = c) (hcut : TailCut p keep k)
      (hopen : openLog mode segmentBytes (p.crashDir keep) = .ok q) : Lifetimes ok cap q

/-- A run from a state that a log reaches. -/
theorem Lifetimes.run {ok : Proc → Action → Prop} {as : List Action} (h : Lifetimes ok cap p)
    (hrun : Run Wal.step ok p as p') : Lifetimes ok cap p' :=
  hrun.invariant h fun _ _ _ ha h hstep => h.step ha hstep

/-- Every state that a log reaches by orderly steps meets the invariants of its goroutines. -/
theorem Lifetimes.inv (h : Lifetimes Orderly cap p) :
    ∃ id₀, Inv id₀ p ∧ Named p ∧ Measured cap p := by
  induction h with
  | @opened mode segmentBytes p hcap hopen =>
    have hi := inv_of_openLog_nil hopen
    obtain rfl := eq_of_openLog_nil hopen
    refine ⟨0, hi, named_empty mode segmentBytes, hcap, nofun,
      fun _ _ => .inr (.inl (Nat.zero_le _)), fun _ _ => trivial, fun s hs => ?_⟩
    obtain rfl : s = Segment.found 0 File.empty := mem_singleton.mp hs
    exact ⟨rfl, rfl⟩
  | step _ ha hstep ih =>
    obtain ⟨id₀, hi, hn, hm⟩ := ih
    have hstep' := step_sound hstep
    exact ⟨id₀, inv_of_step ha.1 hi hstep', named_of_step ha.2.1 ha.2.2 hn hstep',
      measured_of_step ha.1 hi hm hstep⟩
  | @reopened mode segmentBytes p q keep k _ hcap hcut hopen ih =>
    obtain ⟨id₀, hi, hn, hm⟩ := ih
    obtain ⟨q', hopen', hr⟩ := openLog_of_tail hi.shape hn hcut mode segmentBytes
    obtain rfl : q = q' := Except.ok.inj (hopen.symm.trans hopen')
    exact ⟨_, hr.inv, hr.named hn, measured_of_reopened hm hi.shape hn hcap hcut hr hopen⟩

/-- All of the representation invariant but the cap holds in every state that a log reaches by
orderly steps, whatever cap each life has. -/
theorem consistent_of_lives (h : Lifetimes Orderly cap p) : p.log.Consistent := by
  obtain ⟨id₀, hi, -, hm⟩ := h.inv
  exact consistent_of_inv hi hm

/-- The representation invariant holds in every state that a log reaches from an empty directory
on, over any interleaving of its goroutines and any number of lives, each ended by a clean stop or
by a crash that cuts the active file, with one segment cap, whole writes, successful removals and
segment names of six digits. The cap is the configured one throughout. -/
theorem rep_of_lives {segmentBytes : ℕ} {p : Proc} (h : Lifetimes Orderly (some segmentBytes) p) :
    p.log.Rep ∧ p.log.segmentBytes = segmentBytes := by
  obtain ⟨id₀, hi, -, hm⟩ := h.inv
  have hcap := hm.cap_eq segmentBytes rfl
  refine ⟨⟨consistent_of_inv hi hm, fun s hs => ?_⟩, hcap⟩
  rw [hcap]
  exact hm.older segmentBytes rfl s (mem_append_right _ (mem_append_right _ hs))

/-- Two appends in per-message mode; the second has rotated and is not synced yet. -/
def unsyncedLife : List Action :=
  [.append emptyMessage, .write none, .fsync true, .append emptyMessage, .rotateCreate true,
    .write none]

/-- Two more appends, after the first life was cut in the frame of its second record. -/
def secondLife : List Action :=
  [.append emptyMessage, .write none, .fsync true, .append emptyMessage, .rotateCreate true,
    .write none, .fsync true]

/-- The theorem after a crash in the middle of a frame, with three segments in the end. -/
theorem rep_of_lives_secondLife :
    ∃ p, Lifetimes Orderly (some 1) p ∧
      (p.log.sealed.length = 2 ∧ (stream p.log.segments).length = 3) ∧
      p.log.Rep ∧ p.log.segmentBytes = 1 := by
  let keep : Segment → File := fun s => ⟨s.f.data.take (if s.index = 1 then 5 else 38), s.f.synced⟩
  have hopen := openLog_nil .perMessage 1
  obtain ⟨p, hp, hwhole, hcut, hsynced, q, hq, q', hq', hcounts⟩ :
      ∃ p, Run step Orderly (.empty .perMessage 1) unsyncedLife p ∧
        (∀ s ∈ p.retired, (keep s).data = s.f.data ∧ (keep s).synced ≤ (keep s).data.length) ∧
        (keep p.log.active).data = p.log.active.f.data.take 5 ∧
        (keep p.log.active).synced ≤ (keep p.log.active).data.length ∧
        ∃ q, openLog .perMessage 1 (p.crashDir keep) = .ok q ∧
          ∃ q', Run step Orderly q secondLife q' ∧
            q'.log.sealed.length = 2 ∧ (stream q'.log.segments).length = 3 := by
    decide +kernel
  have hcap : ∀ c ∈ some 1, 1 = c := fun c hc => Option.some.inj hc
  have hlife : Lifetimes Orderly (some 1) q' :=
    (Lifetimes.reopened ((Lifetimes.opened hcap hopen).run hp) hcap ⟨hwhole, hcut, hsynced⟩
      hq).run hq'
  exact ⟨q', hlife, hcounts, rep_of_lives hlife⟩

/-! ## Past the last name of six digits -/

def delayedMessage : Record := ⟨0, 0, [], [], 5, 0⟩

theorem bare_delayedMessage : Bare delayedMessage := ⟨rfl, rfl, rfl⟩

/-- A log that has come to the first index of seven digits for the second time: the file it opened
held a delayed record already, and the next record was written behind that with the same id. The
segment knows nothing of the first one. -/
structure PastLimit (p : Proc) : Prop where
  full : Full p
  index : p.log.active.index = nameLimit
  below : ∀ s ∈ p.log.segments, s.index ≤ nameLimit
  records : ∃ r r', p.log.active.records = [r, r'] ∧ r.msgID = r'.msgID ∧ r.visibleAtNs = 5
  maximal : ∀ s ∈ p.log.segments, s.maxVisibleAtNs = 0

/-- Records of which none is delayed have maximum 0. -/
theorem maxOver_visibleAtNs_eq_zero (h : ∀ r ∈ rs, r.visibleAtNs = 0) :
    maxOver Record.visibleAtNs rs = 0 := by
  rcases maxOver_attained Record.visibleAtNs rs with hzero | ⟨r, hr, heq⟩
  · exact hzero
  · rw [← heq, h r hr]

theorem segments_rolled (p : Proc) (rec : Record) :
    (p.rolled rec).log.segments = p.log.segments.map (syncAt p.nextSegment.index)
      ++ [syncAt p.nextSegment.index (p.nextSegment.withRecord rec)] := rfl

theorem maxVisibleAtNs_rolled (hrec : rec.visibleAtNs = 0)
    (h : ∀ s ∈ p.log.segments, s.maxVisibleAtNs = 0) :
    ∀ s ∈ (p.rolled rec).log.segments, s.maxVisibleAtNs = 0 := by
  have hsync : ∀ s : Segment, s.maxVisibleAtNs = 0 →
      (syncAt p.nextSegment.index s).maxVisibleAtNs = 0 := by
    intro s hs
    unfold syncAt
    split_ifs <;> exact hs
  intro s hs
  rw [segments_rolled] at hs
  rcases mem_append.mp hs with hold | hlast
  · obtain ⟨s', hs', rfl⟩ := List.mem_map.mp hold
    exact hsync s' (h s' hs')
  · rw [mem_singleton.mp hlast]
    refine hsync _ ?_
    show (if (0 : UInt64) < rec.visibleAtNs then rec.visibleAtNs else 0) = 0
    rw [hrec]
    rfl

theorem index_lt_of_mem_rolled {n : ℕ} (h : ∀ s ∈ p.log.segments, s.index < n) :
    ∀ s ∈ (p.rolled rec).log.sealed, s.index < n := by
  intro s hs
  obtain ⟨s', hs', rfl⟩ := List.mem_map.mp hs
  rw [index_syncAt]
  exact h s' hs'

/-- The log that was opened over a directory with a file past the name limit, at the last name of
six digits: the next append rotates to the name of that file. -/
structure AtLimit (q : Proc) : Prop where
  full : Full q
  index : q.log.active.index + 1 = nameLimit
  nextMsgID : q.log.nextMsgID = nameLimit
  written : q.log.written = 38 * nameLimit
  below : ∀ s ∈ q.log.segments, s.index < nameLimit
  maximal : ∀ s ∈ q.log.segments, s.maxVisibleAtNs = 0
  /-- The file that was passed over holds one record. -/
  stray : ∃ r, (q.strays.find (segmentName nameLimit)).map File.data = some (codec.frame r) ∧
    Fits r ∧ r.msgID = UInt64.ofNat nameLimit ∧ r.visibleAtNs = 5

theorem AtLimit.next (h : AtLimit q) : PastLimit (q.rolled (q.log.stamp emptyMessage)) := by
  have hmax : nameLimit = 1000000 := rfl
  obtain ⟨r, hstray, hfit, hid, hvisible⟩ := h.stray
  have hfit' := fits_bare q.log bare_emptyMessage
  have hlen := length_frame_bare q.log bare_emptyMessage
  have hid' : (q.log.stamp emptyMessage).msgID = UInt64.ofNat nameLimit := by
    rw [← h.nextMsgID]
    rfl
  have hvisible' : (q.log.stamp emptyMessage).visibleAtNs = 0 := rfl
  obtain ⟨rec, hrec⟩ : ∃ rec, rec = q.log.stamp emptyMessage := ⟨_, rfl⟩
  rw [← hrec] at hfit' hlen hid' hvisible' ⊢
  have hnext : q.nextSegment.f.data = codec.frame r := by
    obtain ⟨f, hf, hdata⟩ := map_eq_some_iff.mp hstray
    rw [Proc.nextSegment, h.index, hf]
    exact hdata
  have hactive : (q.rolled rec).log.active = syncAt q.nextSegment.index
      (q.nextSegment.withRecord rec) := rfl
  have hdata : (q.nextSegment.withRecord rec).f.data = codec.frames [r, rec] := by
    show q.nextSegment.f.data ++ codec.frame rec = _
    rw [hnext, codec.frames_cons, codec.frames_cons, codec.frames_nil, append_nil]
  have hwritten : (q.rolled rec).log.written = q.log.written + 38 := by
    show q.log.written + (codec.frame rec).length = _
    rw [hlen]
  refine
    { full := ?_
      index := (index_syncAt _ _).trans h.index
      below := fun s hs => ?_
      records := ⟨r, rec, ?_, hid.trans hid'.symm, hvisible⟩
      maximal := maxVisibleAtNs_rolled hvisible' h.maximal }
  · refine ⟨rfl, h.full.mode, h.full.segmentBytes, ?_, rfl, ⟨?_, ?_⟩, ?_⟩
    · rw [hwritten]
      exact (baseByteOffset_syncAt _ _).trans_lt (Nat.lt_add_of_pos_right (by decide))
    · show q.log.nextMsgID + 1 + 1 < 2 ^ 64
      rw [h.nextMsgID]
      decide
    · rw [hwritten, h.written]
      decide
    · show q.toDrop.map _ = []
      rw [h.full.toDrop]
      rfl
  · rcases mem_append.mp hs with hold | hlast
    · exact (index_lt_of_mem_rolled h.below s hold).le
    · rw [mem_singleton.mp hlast, hactive, index_syncAt]
      exact h.index.le
  · rw [hactive, records_syncAt]
    exact Segment.records_of_data_eq hdata (by simp [hfit, hfit'])

theorem sealed_rolled (p : Proc) (rec : Record) :
    (p.rolled rec).log.sealed = p.log.sealed.map (syncAt p.nextSegment.index)
      ++ [syncAt p.nextSegment.index p.log.active] := by
  show (p.log.sealed ++ [p.log.active]).map (syncAt p.nextSegment.index) = _
  rw [map_append, map_singleton]

namespace Filled

variable {n : ℕ} {p : Proc}

/-- Nothing that was appended has been removed. -/
theorem appended_eq (h : Filled n p) (hi : Inv 0 p) :
    p.appended = stream p.log.sealed ++ p.log.active.records := by
  rw [hi.shape.appended_split, Proc.older, h.gone, h.toDrop, nil_append, nil_append]

theorem stream_rolled (h : Filled n p) (hi : Inv 0 p) (rec : Record) :
    stream (p.rolled rec).log.sealed = p.appended := by
  rw [h.appended_eq hi, sealed_rolled, stream_append, stream_map_syncAt, stream_cons, stream_nil,
    append_nil, records_syncAt]

theorem data_rolled (h : Filled n p) (rec : Record) :
    (p.rolled rec).log.active.f.data = codec.frame rec := by
  have hempty : p.nextSegment.f = File.empty := by
    rw [Proc.nextSegment, h.strays]
    rfl
  show (syncAt p.nextSegment.index (p.nextSegment.withRecord rec)).f.data = _
  rw [data_syncAt]
  show p.nextSegment.f.data ++ codec.frame rec = _
  rw [hempty]
  rfl

theorem nextIDAfter_eq (h : Filled n p) (hi : Inv 0 p) (hn : n < nameLimit) :
    nextIDAfter p.appended = n + 1 := by
  have hmax : nameLimit = 1000000 := rfl
  have hcount := hi.shape.next_eq
  rw [h.nextMsgID] at hcount
  have hne : p.appended ≠ [] := ne_nil_of_length_pos (by omega)
  rw [nextIDAfter_of_numbered hi.shape.numbered (by omega),
    firstID_of_numbered hi.shape.numbered hne]
  omega

end Filled

/-- Opening after a million appends, one to a segment, and a delayed message in the segment with
the first index of seven digits. -/
theorem atLimit_of_openLog (hi : Inv 0 p) (hfilled : Filled (nameLimit - 1) p)
    (hvisible : ∀ r ∈ p.appended, r.visibleAtNs = 0) (hi' : Inv 0 (p.rolled rec))
    (hfilled' : Filled nameLimit (p.rolled rec)) (hfit : Fits rec)
    (hid : rec.msgID = UInt64.ofNat nameLimit) (hlate : rec.visibleAtNs = 5) :
    ∃ q, openLog .perMessage 1 (p.rolled rec).dir = .ok q ∧ AtLimit q := by
  have hmax : nameLimit = 1000000 := rfl
  have hsealed := sealed_rolled p rec
  have hsplit := hfilled.appended_eq hi
  obtain ⟨sealed, active, hq, hlay, hindices, hstream, hidx, hrecords⟩ :=
    openLog_without_active hi'.shape hfilled'.strays hfilled'.toDrop hfilled'.index hsealed
      .perMessage 1
  -- What the sealed segments hold is what was appended before the delayed message.
  rw [hfilled.stream_rolled hi] at hq hlay
  rw [stream_map_syncAt] at hstream
  rw [records_syncAt] at hrecords
  have hfound := discoverSegments_without_active hi'.shape hfilled'.strays hfilled'.toDrop
    hfilled'.index
  rw [hsealed, map_append, map_singleton] at hfound
  have hclean : (syncAt p.nextSegment.index p.log.active).Clean :=
    hi'.shape.layout.clean _ (mem_append_left _ (mem_append_right _
      (mem_append_right _ (by rw [hsealed]; simp))))
  have hdata : (syncAt p.nextSegment.index p.log.active).f.data
      = (codec.frames (syncAt p.nextSegment.index p.log.active).records).take
        (syncAt p.nextSegment.index p.log.active).f.data.length := by
    rw [← hclean.data_eq, take_length]
  have hwritten : (codec.frames p.appended).length = 38 * nameLimit := by
    rw [← hi.shape.written_eq, hfilled.written, hmax]
  have hnext : nextIDAfter p.appended = nameLimit := by
    rw [hfilled.nextIDAfter_eq hi (by omega), hmax]
  refine ⟨_, hq, ?_⟩
  refine
    { full := ⟨rfl, rfl, rfl, ?_, rfl, ⟨?_, ?_⟩, rfl⟩
      index := ?_
      nextMsgID := hnext
      written := hwritten
      below := fun s hs => ?_
      maximal := fun s hs => ?_
      stray := ⟨rec, ?_, hfit, hid, hlate⟩ }
  · show active.baseByteOffset < (codec.frames p.appended).length
    have hsize := hi.shape.localSize_eq
    rw [hfilled.written, hfilled.baseByteOffset, hi.shape.active.2.2.length_data] at hsize
    rw [(Layout.base hlay).2, hstream, hsplit, codec.frames_append, length_append]
    omega
  · show nextIDAfter p.appended + 1 < 2 ^ 64
    rw [hnext]
    decide
  · show (codec.frames p.appended).length + 38 < 2 ^ 64
    rw [hwritten]
    decide
  · show active.index + 1 = nameLimit
    rw [hidx, index_syncAt, hfilled.index, hmax]
  · have hmem : s.index ∈ (p.rolled rec).log.sealed.map Segment.index := by
      have hs' : s.index ∈ (sealed ++ [active]).map Segment.index := List.mem_map_of_mem hs
      rwa [map_append, hindices, map_singleton, hidx, ← map_singleton,
        ← map_append, ← hsealed] at hs'
    obtain ⟨s', hs', heq⟩ := List.mem_map.mp hmem
    have holder : s' ∈ (p.rolled rec).older :=
      mem_append_right _ (mem_append_right _ hs')
    rw [← heq]
    exact hfilled'.index ▸ hi'.shape.index_lt holder
  · have hmaximal := maximal_of_openLog hfound (by simp [or_imp, forall_and, Segment.found])
      hdata hclean.fits hclean.synced_le hq s hs
    rw [hmaximal.maxVisibleAtNs]
    refine maxOver_visibleAtNs_eq_zero fun r hr => hvisible r ?_
    have hmem : r ∈ stream (sealed ++ [active]) := mem_flatMap.mpr ⟨s, hs, hr⟩
    rwa [stream_append, hstream, stream_cons, stream_nil, append_nil, hrecords,
      ← hsplit] at hmem
  · have hname : (p.rolled rec).log.active.index = nameLimit := hfilled'.index
    show (Dir.find [(segmentName (p.rolled rec).log.active.index, (p.rolled rec).log.active.f)]
      (segmentName nameLimit)).map File.data = some (codec.frame rec)
    rw [hname, Dir.find, lookup_cons_self, map_some, hfilled.data_rolled]

theorem exists_atLimit : ∃ q, Lifetimes (fun _ a => a.Succeeds) (some 1) q ∧ AtLimit q := by
  have hmax : nameLimit = 1000000 := rfl
  obtain ⟨as, p, hrun, hfilled, hvisible⟩ := exists_filled (n := nameLimit - 1) (by omega)
  have hn : nameLimit - 1 ≤ nameLimit := by omega
  have hopen := openLog_nil .perMessage 1
  have hi := inv_of_run (fun _ _ ha => Action.Succeeds.intact ha) (inv_of_openLog_nil hopen) hrun
  have hroll := (hfilled.full hn).roll bare_delayedMessage
  have hi' := inv_of_run (fun _ _ ha => Action.Succeeds.intact ha) hi hroll
  have hid : (p.log.stamp delayedMessage).msgID = UInt64.ofNat nameLimit := by
    show UInt64.ofNat p.log.nextMsgID = _
    rw [hfilled.nextMsgID, hmax]
  obtain ⟨q, hq, hlimit⟩ := atLimit_of_openLog hi hfilled hvisible hi'
    (hfilled.next hn bare_delayedMessage) (fits_bare p.log bare_delayedMessage) hid rfl
  have hcap : ∀ c ∈ some 1, 1 = c := fun c hc => Option.some.inj hc
  exact ⟨q, .reopened (((Lifetimes.opened hcap hopen).run hrun).run hroll) hcap hi'.shape.tailCut
    hq, hlimit⟩

/-- The representation invariant fails past the name limit: without any I/O error, over one clean
stop, a log comes to a state in which two records of the active segment have the same id. -/
theorem duplicate_id_past_name_limit :
    ∃ p, Lifetimes (fun _ a => a.Succeeds) (some 1) p ∧
      (∃ r r', p.log.active.records = [r, r'] ∧ r.msgID = r'.msgID) ∧ ¬ p.log.Rep := by
  obtain ⟨q, hq, hlimit⟩ := exists_atLimit
  obtain ⟨r, r', hrecords, hid, -⟩ := hlimit.next.records
  refine ⟨_, hq.run (hlimit.full.roll bare_emptyMessage), ⟨r, r', hrecords, hid⟩, fun hrep => ?_⟩
  have hincreasing := hrep.numbered.pairwise
  rw [Log.segments, stream_append, stream_cons, stream_nil, append_nil, hrecords]
    at hincreasing
  have hlt := rel_of_pairwise_cons (pairwise_append.mp hincreasing).2.1
    (mem_singleton_self r')
  rw [hid] at hlt
  exact lt_irrefl _ hlt

end ToyMQ.Wal
