import Mathlib.Data.List.Perm.Basic
import ToyMQ.Wal.Crash

/-!
# A log directory over many lives

A `History` is one log directory over any number of process runs, crashes and reopenings. A crash
keeps the durable bytes of every file and any part of the others. The history remembers the ids of
all appends that returned success, and every value that `RetainedFloor` returned.

`Open` takes the next id from the last record it finds, so an id can be assigned twice only if
retention and a crash together leave no record at all (`floor_and_ids_reset`). `ids_never_reused`
shows what keeps it from happening: each `DropSegmentsBefore` that removes something leaves a sealed
segment or a durable record, crashes keep the sealed files and segment names have six digits.

The argument follows the *anchors* of a process: the records that a crash cannot take away. Every
id that was ever acknowledged is at most that of an anchor, and recovery continues after it.
-/

namespace ToyMQ.Wal

open Lib List

/-! ## Histories -/

/-- `RetainedFloor`: the base of the oldest segment of the slice. -/
def Log.retainedFloor (l : Log) : ℕ :=
  match l.sealed with
  | [] => l.active.baseMsgID
  | s :: _ => s.baseMsgID

/-- A directory with a process on it, or without one. -/
inductive Life where
  | up (p : Proc)
  | down (d : Dir)
deriving DecidableEq, Repr

/-- A log directory over its lives. -/
structure History where
  life : Life
  /-- The id of every append that returned success, in order. -/
  ackedIDs : List ℕ
  /-- Every value that `RetainedFloor` returned, in order. -/
  floors : List ℕ
deriving DecidableEq, Repr

/-- What can happen to a log directory. -/
inductive Event where
  /-- A step of the running process. -/
  | run (a : Action)
  /-- A call of `RetainedFloor`. -/
  | retainedFloor
  /-- A crash that keeps `(cut i).1` bytes of segment `i`, `(cut i).2` of them durable from then
  on. -/
  | crash (cut : ℕ → ℕ × ℕ)
  /-- `Open`, with a configuration of its own. -/
  | reopen (mode : SyncMode) (segmentBytes : ℕ)

/-- What a crash leaves of the file of a segment. -/
def Segment.cutBy (cut : ℕ → ℕ × ℕ) (s : Segment) : File :=
  ⟨s.f.data.take (cut s.index).1, (cut s.index).2⟩

/-- The crash keeps what is durable of every file, and no file grows. -/
def Proc.MayCut (p : Proc) (cut : ℕ → ℕ × ℕ) : Prop :=
  ∀ s ∈ p.linked, s.f.synced ≤ (cut s.index).2 ∧ (cut s.index).2 ≤ (cut s.index).1 ∧
    (cut s.index).1 ≤ s.f.data.length

instance (p : Proc) (cut : ℕ → ℕ × ℕ) : Decidable (p.MayCut cut) :=
  inferInstanceAs (Decidable (∀ s ∈ p.linked, _))

def History.step (h : History) : Event → Option History
  | .run a =>
    match h.life with
    | .up p =>
      (Wal.step p a).map fun p' =>
        { h with
          life := .up p'
          ackedIDs := h.ackedIDs
            ++ (p'.acked.drop p.acked.length).map fun w => w.1.msgID.toNat }
    | .down _ => none
  | .retainedFloor =>
    match h.life with
    | .up p =>
      -- The call takes the mutex.
      if p.holder = .free then some { h with floors := h.floors ++ [p.log.retainedFloor] }
      else none
    | .down _ => none
  | .crash cut =>
    match h.life with
    | .up p =>
      if p.MayCut cut then some { h with life := .down (p.crashDir (Segment.cutBy cut)) }
      else none
    | .down _ => none
  | .reopen mode segmentBytes =>
    match h.life with
    | .up _ => none
    | .down d =>
      match openLog mode segmentBytes d with
      | .error _ => none
      | .ok q => some { h with life := .up q }

/-- The records of a segment whose frames are durable. -/
def Segment.durableRecords (s : Segment) : List Record :=
  codec.records (s.f.data.take s.f.synced)

/-- A call of `DropSegmentsBefore`, if the step is one, removes nothing, or keeps a sealed segment,
or keeps an active segment that holds a durable record. -/
def DropSafe (l : Log) : Action → Prop
  | .drop keepIndex =>
    l.dropped keepIndex = [] ∨ l.kept keepIndex ≠ [] ∨ l.active.durableRecords ≠ []
  | _ => True

instance (l : Log) : DecidablePred (DropSafe l)
  | .drop _ => inferInstanceAs (Decidable (_ ∨ _ ∨ _))
  | .append _ | .rotateSync _ | .rotateCreate _ | .write _ | .fsync _ | .resume _ | .flushBegin
  | .flushSync _ | .flushEnd | .remove _ => isTrue trivial

/-- The crash keeps the files of the sealed segments as they are. -/
def Proc.KeepsSealed (p : Proc) (cut : ℕ → ℕ × ℕ) : Prop :=
  ∀ s ∈ p.retired, s.f.data.length ≤ (cut s.index).1

instance (p : Proc) (cut : ℕ → ℕ × ℕ) : Decidable (p.KeepsSealed cut) :=
  inferInstanceAs (Decidable (∀ s ∈ p.retired, _))

/-- The condition on a step of the process: no write stops in the middle and no removal fails,
segment names keep to six digits, and `DropSegmentsBefore` leaves an anchor. -/
def StepSafe (p : Proc) (a : Action) : Prop :=
  a.Intact ∧ a ≠ .remove false ∧ NameFits p a ∧ DropSafe p.log a

instance (p : Proc) (a : Action) : Decidable (StepSafe p a) :=
  inferInstanceAs (Decidable (_ ∧ _ ∧ _ ∧ _))

/-- The condition on an event: steps meet theirs, crashes keep the sealed files, and the log is
opened in a mode that syncs. -/
def Event.Safe (h : History) (e : Event) : Prop :=
  match h.life, e with
  | .up p, .run a => StepSafe p a
  | .up p, .crash cut => p.KeepsSealed cut
  | .down _, .reopen mode _ => mode ≠ .none
  | _, _ => True

instance (h : History) (e : Event) : Decidable (e.Safe h) := by
  unfold Event.Safe
  split <;> infer_instance

/-! ## The states of a log -/

/-- The states that a log reaches over the lives of its directory, with whole writes, successful
removals, names of six digits, and crashes that keep the sealed files. -/
inductive Reached : Proc → Prop where
  | opened {mode : SyncMode} {segmentBytes : ℕ} {p : Proc}
      (hopen : openLog mode segmentBytes [] = .ok p) : Reached p
  | step {p p' : Proc} {a : Action} (h : Reached p) (ha : a.Intact) (hrm : a ≠ .remove false)
      (hname : NameFits p a) (hstep : Wal.step p a = some p') : Reached p'
  | reopened {mode : SyncMode} {segmentBytes : ℕ} {p q : Proc} {cut : ℕ → ℕ × ℕ}
      (h : Reached p) (hmay : p.MayCut cut) (hkeep : p.KeepsSealed cut)
      (hopen : openLog mode segmentBytes (p.crashDir (Segment.cutBy cut)) = .ok q) : Reached q

variable {p p' : Proc}

/-- A run from a state that a log reaches. -/
theorem Reached.run {as : List Action} (h : Reached p)
    (hrun : Run Wal.step (fun p a => a.Intact ∧ a ≠ .remove false ∧ NameFits p a) p as p') :
    Reached p' :=
  hrun.invariant h fun _ _ _ ha h hstep => h.step ha.1 ha.2.1 ha.2.2 hstep

theorem tailCut_cutBy {cut : ℕ → ℕ × ℕ} (hmay : p.MayCut cut) (hkeep : p.KeepsSealed cut) :
    TailCut p (Segment.cutBy cut) (cut p.log.active.index).1 := by
  have hlen : ∀ s ∈ p.linked,
      (s.cutBy cut).synced ≤ (s.cutBy cut).data.length := by
    intro s hs
    obtain ⟨-, hsynced, hle⟩ := hmay s hs
    simpa [Segment.cutBy, hle] using hsynced
  have hlinked := p.linked_eq
  refine ⟨fun s hs => ⟨take_of_length_le (hkeep s hs), hlen s ?_⟩, rfl, hlen _ ?_⟩
  · rw [hlinked]
    exact mem_append_left _ hs
  · rw [hlinked]
    exact mem_append_right _ (mem_singleton_self _)

theorem Reached.inv (h : Reached p) : ∃ id₀, Inv id₀ p ∧ Named p := by
  induction h with
  | @opened mode segmentBytes p hopen =>
    exact ⟨0, inv_of_openLog_nil hopen, eq_of_openLog_nil hopen ▸ named_empty mode segmentBytes⟩
  | step _ ha hrm hname hstep ih =>
    obtain ⟨id₀, hi, hn⟩ := ih
    have hstep' := step_sound hstep
    exact ⟨id₀, inv_of_step ha hi hstep', named_of_step hrm hname hn hstep'⟩
  | @reopened mode segmentBytes p q cut _ hmay hkeep hopen ih =>
    obtain ⟨id₀, hi, hn⟩ := ih
    obtain ⟨q', hopen', hr⟩ := openLog_of_tail hi.shape hn (tailCut_cutBy hmay hkeep) mode
      segmentBytes
    obtain rfl : q = q' := Except.ok.inj (hopen.symm.trans hopen')
    exact ⟨_, hr.inv, hr.named hn⟩

/-! ## Anchors -/

/-- The records that no crash takes away: those of the sealed segments, whose files are kept, and
the durable ones of the active segment. -/
def Proc.anchors (p : Proc) : List Record :=
  stream p.log.sealed ++ p.log.active.durableRecords

variable {s : Segment} {id₀ w : ℕ} {a : Action} {r : Record}

theorem Segment.Clean.durableRecords_eq (h : s.Clean) :
    s.durableRecords = s.records.take (codec.whole s.f.synced s.records) := by
  unfold Segment.durableRecords
  conv_lhs => rw [h.data_eq]
  exact codec.records_take_frames s.f.synced s.records h.fits

/-- An fsync of a segment keeps its durable records. -/
theorem durableRecords_subset_syncAt (h : s.Clean) (t : ℕ) :
    s.durableRecords ⊆ (syncAt t s).durableRecords := by
  unfold syncAt
  split_ifs
  · rw [h.durableRecords_eq, h.sync.durableRecords_eq]
    exact take_subset_take_left _ (codec.whole_mono _ h.synced_le)
  · exact List.Subset.refl _

theorem durableRecords_withRecord (h : s.Clean) (rec : Record) :
    (s.withRecord rec).durableRecords = s.durableRecords := by
  show codec.records ((s.f.data ++ codec.frame rec).take s.f.synced) = _
  rw [take_append_of_le_length h.synced_le]
  rfl

theorem anchors_subset_of_step (hi : Inv id₀ p) (ha : a.Intact)
    (hdrop : ∀ keepIndex, a ≠ .drop keepIndex) (hstep : Step p a p') : p.anchors ⊆ p'.anchors := by
  have hclean : p.log.active.Clean := hi.shape.active.2.2
  have hsync : ∀ t, p.anchors ⊆ (p.syncSegment t).anchors := fun t r hr => by
    show r ∈ stream (p.log.sealed.map (syncAt t)) ++ (syncAt t p.log.active).durableRecords
    rw [stream_map_syncAt]
    rcases mem_append.mp hr with hsealed | hactive
    · exact mem_append_left _ hsealed
    · exact mem_append_right _ (durableRecords_subset_syncAt hclean t hactive)
  cases hstep with
  | rotateSync | fsync | flushSync => exact hsync _
  | rotateCreate =>
    -- The active segment becomes a sealed one, which keeps all of its records.
    intro r hr
    show r ∈ stream (p.log.sealed ++ [p.log.active]) ++ p.nextSegment.durableRecords
    rw [stream_append, stream_cons, stream_nil, append_nil]
    refine mem_append_left _ ?_
    rcases mem_append.mp hr with hsealed | hactive
    · exact mem_append_left _ hsealed
    · rw [hclean.durableRecords_eq] at hactive
      exact mem_append_right _ (mem_of_mem_take hactive)
  | @write rec =>
    have hwrote : (p.wrote rec).anchors = p.anchors := by
      exact congrArg (stream p.log.sealed ++ ·) (durableRecords_withRecord hclean rec)
    rcases fence_cases (p.wrote rec) rec with ⟨-, heq⟩ | heq | heq | ⟨-, heq⟩ | heq <;>
      rw [heq] <;> exact fun r hr => hwrote.symm ▸ hr
  | writeTorn => cases ha _ rfl
  | drop => exact absurd rfl (hdrop _)
  | _ => exact List.Subset.refl _

/-- Ids increase along a numbered run. -/
theorem Numbered.lt_of_append {n : ℕ} {rs rs' : List Record} (h : Numbered n (rs ++ rs'))
    {r' : Record} (hr : r ∈ rs) (hr' : r' ∈ rs') : r.msgID.toNat < r'.msgID.toNat := by
  obtain ⟨hfront, hback⟩ := numbered_append.mp h
  exact (hfront.bounds hr).2.trans_le (hback.bounds hr').1

/-- The anchors are records of the slice. -/
theorem anchors_subset (h : Shape id₀ p) :
    p.anchors ⊆ stream p.log.sealed ++ p.log.active.records := by
  intro r hr
  rcases mem_append.mp hr with hsealed | hactive
  · exact mem_append_left _ hsealed
  · rw [h.active.2.2.durableRecords_eq] at hactive
    exact mem_append_right _ (mem_of_mem_take hactive)

theorem Shape.appended_slice (h : Shape id₀ p) :
    p.appended
      = stream (p.gone ++ p.toDrop) ++ (stream p.log.sealed ++ p.log.active.records) := by
  rw [h.appended_split, Proc.older, stream_append, stream_append, stream_append]
  simp only [append_assoc]

/-- The id of an append that returned success is at most that of an anchor, provided that there is
an anchor whenever a segment has been dropped. -/
theorem exists_anchor_of_acked {x : Record × ℕ} (hi : Inv id₀ p) (hd : Durable w p)
    (hdropped : p.gone ++ p.toDrop ≠ [] → p.anchors ≠ []) (hx : x ∈ p.acked) (hlate : w < x.2) :
    ∃ r ∈ p.anchors, x.1.msgID.toNat ≤ r.msgID.toNat := by
  obtain ⟨hloc, hle⟩ := hi.calls.acked x hx
  have hnum := hi.shape.numbered
  rw [hi.shape.appended_slice] at hnum
  -- A record of a dropped segment comes before every record of the slice.
  have hgone : x.1 ∈ stream (p.gone ++ p.toDrop) →
      ∃ r ∈ p.anchors, x.1.msgID.toNat ≤ r.msgID.toNat := by
    intro hmem
    obtain ⟨r, hr⟩ := exists_mem_of_ne_nil _ (hdropped fun hnil => by
      rw [hnil] at hmem
      simp at hmem)
    exact ⟨r, hr, (hnum.lt_of_append hmem (anchors_subset hi.shape hr)).le⟩
  have hmem : x.1 ∈ stream (p.gone ++ p.toDrop)
      ∨ x.1 ∈ stream p.log.sealed ++ p.log.active.records := by
    obtain ⟨pre, post, hsplit, -⟩ := hloc
    rw [← mem_append, ← hi.shape.appended_slice, hsplit]
    simp
  rcases hmem with hdrop | hslice
  · exact hgone hdrop
  · have hlinked : x.1 ∈ stream p.linked := by
      rw [Proc.linked, Log.segments, stream_append, stream_append, stream_cons, stream_nil,
        append_nil]
      exact mem_append_right _ hslice
    have hkept := mem_of_located hi hd le_rfl hloc hlate hle hlinked
    rw [Proc.retired, stream_append, append_assoc] at hkept
    rcases mem_append.mp hkept with hdrop | hanchor
    · exact hgone (by rw [stream_append]; exact mem_append_right _ hdrop)
    · refine ⟨x.1, ?_, le_rfl⟩
      rw [Proc.anchors, hi.shape.active.2.2.durableRecords_eq]
      exact hanchor

/-! ## The appends of a run -/

/-- The append that the holder of the mutex is about to sync. -/
def Holder.entries : Holder → List (Record × ℕ)
  | .fsync rec stop => [(rec, stop)]
  | _ => []

/-- The appends of a run that have written their record: those that returned success, those that
wait, and the one that holds the mutex. -/
def Proc.entries (p : Proc) : List (Record × ℕ) := p.acked ++ (p.waiting ++ p.holder.entries)

/-- The ids of some appends. -/
def entryIDs (es : List (Record × ℕ)) : List ℕ := es.map fun e => e.1.msgID.toNat

/-- What holds of the appends of a run that opened the log at offset `w`, when the ids `prior` were
acknowledged before. -/
structure EntriesOk (w : ℕ) (prior : List ℕ) (next : ℕ) (es : List (Record × ℕ)) : Prop where
  late : ∀ e ∈ es, w < e.2
  distinct : (prior ++ entryIDs es).Nodup
  lt : ∀ a ∈ prior ++ entryIDs es, a < next

variable {prior : List ℕ} {es : List (Record × ℕ)}

/-- Appends that move on or fail. -/
theorem EntriesOk.of_perm {next next' : ℕ} {es' l : List (Record × ℕ)}
    (h : EntriesOk w prior next es) (hperm : (es' ++ l).Perm es) (hnext : next ≤ next') :
    EntriesOk w prior next' es' := by
  have hids : (entryIDs es' ++ entryIDs l).Perm (entryIDs es) := by
    have := hperm.map fun e => e.1.msgID.toNat
    rwa [map_append] at this
  have hsub : ∀ a ∈ prior ++ entryIDs es', a ∈ prior ++ entryIDs es := by
    intro a ha
    rcases mem_append.mp ha with hprior | hes
    · exact mem_append_left _ hprior
    · exact mem_append_right _ (hids.subset (mem_append_left _ hes))
  refine ⟨fun e he => h.late e (hperm.subset (mem_append_left _ he)), ?_,
    fun a ha => (h.lt a (hsub a ha)).trans_le hnext⟩
  have hnodup := (hids.append_left prior).nodup_iff.mpr h.distinct
  rw [← append_assoc] at hnodup
  exact hnodup.of_append_left

/-- A new append takes the next id. -/
theorem EntriesOk.push {next stop : ℕ} {rec : Record} (h : EntriesOk w prior next es)
    (hid : rec.msgID.toNat = next) (hstop : w < stop) :
    EntriesOk w prior (next + 1) (es ++ [(rec, stop)]) := by
  have hids : entryIDs (es ++ [(rec, stop)]) = entryIDs es ++ [next] := by
    simp [entryIDs, hid]
  refine ⟨fun e he => ?_, ?_, fun a ha => ?_⟩
  · rcases mem_append.mp he with hold | hnew
    · exact h.late e hold
    · rw [mem_singleton.mp hnew]
      exact hstop
  · rw [hids, ← append_assoc, nodup_append]
    refine ⟨h.distinct, nodup_singleton _, fun a ha b hb => ?_⟩
    rw [mem_singleton.mp hb]
    exact (h.lt a ha).ne
  · rw [hids, ← append_assoc] at ha
    rcases mem_append.mp ha with hold | hnew
    · exact (h.lt a hold).trans (Nat.lt_succ_self _)
    · rw [mem_singleton.mp hnew]
      exact Nat.lt_succ_self _

/-- An element and the rest of its list. -/
theorem perm_of_getElem? {α : Type} {l : List α} {i : ℕ} {x : α} (h : l[i]? = some x) :
    ([x] ++ l.eraseIdx i).Perm l := by
  obtain ⟨hlt, rfl⟩ := List.getElem?_eq_some_iff.mp h
  exact getElem_cons_eraseIdx_perm hlt

theorem entriesOk_of_step (hi : Inv id₀ p) (hw : w ≤ p.log.written) (ha : a.Intact)
    (hstep : Step p a p') (h : EntriesOk w prior p.log.nextMsgID p.entries) :
    EntriesOk w prior p'.log.nextMsgID p'.entries := by
  -- A call that returns an error is forgotten; one that moves on under the mutex stays.
  have hfail : ∀ rec, EntriesOk w prior p.log.nextMsgID (p.fail rec).entries := fun rec => by
    refine h.of_perm (l := p.holder.entries) ?_ le_rfl
    simp [Proc.entries, Proc.fail, Holder.entries]
  have hsame : ∀ q : Proc, q.entries = p.entries → q.log.nextMsgID = p.log.nextMsgID →
      EntriesOk w prior q.log.nextMsgID q.entries := fun q heq hnext => by
    rw [heq, hnext]
    exact h
  cases hstep with
  | appendTooLarge | rotateSyncFail | rotateCreateFail | fsyncFail => exact hfail _
  | appendRotateSync hfree | appendRotateCreate hfree | appendWrite hfree | drop hfree =>
    exact hsame _ (by simp [Proc.entries, Holder.entries, hfree]) rfl
  | rotateSync hh =>
    exact hsame _ (by simp [Proc.entries, Holder.entries, hh, Proc.commit, Proc.syncSegment]) rfl
  | rotateCreate hh =>
    exact hsame _ (by simp [Proc.entries, Holder.entries, hh, Proc.rotated]) rfl
  | @write rec hh =>
    have hholder := hi.calls.holder
    rw [hh] at hholder
    have hpush := h.push hholder.2.msgID_eq
      (hw.trans_lt (Nat.lt_add_of_pos_right (codec.length_frame_pos rec)))
    have hentries : p.entries = p.acked ++ p.waiting := by
      rw [Proc.entries, hh]
      simp [Holder.entries]
    rw [hentries, append_assoc] at hpush
    rcases fence_cases (p.wrote rec) rec with ⟨-, heq⟩ | heq | heq | ⟨-, heq⟩ | heq <;> rw [heq]
    · refine hpush.of_perm (l := []) ?_ le_rfl
      simp only [Proc.entries, Proc.succeed, Proc.wrote, Holder.entries, append_nil,
        append_assoc]
      exact List.Perm.append_left _ perm_append_comm
    · refine hpush.of_perm (l := [(rec, p.log.written + (codec.frame rec).length)]) ?_ le_rfl
      simp [Proc.entries, Proc.fail, Proc.wrote, Holder.entries]
    · refine hpush.of_perm (l := []) ?_ le_rfl
      simp [Proc.entries, Proc.wrote, Holder.entries]
    · refine hpush.of_perm (l := []) ?_ le_rfl
      simp only [Proc.entries, Proc.succeed, Proc.commit, Proc.wrote, Holder.entries,
        append_nil, append_assoc]
      exact List.Perm.append_left _ perm_append_comm
    · refine hpush.of_perm (l := []) ?_ le_rfl
      simp [Proc.entries, Proc.wrote, Holder.entries]
  | writeTorn => cases ha _ rfl
  | fsync hh =>
    refine h.of_perm (l := []) ?_ le_rfl
    simp only [Proc.entries, Proc.succeed, Proc.commit, Proc.syncSegment, Holder.entries, hh,
      append_nil, append_assoc]
    exact List.Perm.append_left _ perm_append_comm
  | @resume i rec stop hfree hi' =>
    refine h.of_perm (l := []) ?_ le_rfl
    simp only [Proc.entries, Proc.succeed, Holder.entries, hfree, append_nil,
      append_assoc]
    exact List.Perm.append_left _ (perm_of_getElem? hi')
  | @resumeFail i rec stop hfree hi' =>
    refine h.of_perm (l := [(rec, stop)]) ?_ le_rfl
    simp only [Proc.entries, Proc.fail, Holder.entries, hfree, append_nil,
      append_assoc]
    exact List.Perm.append_left _ (perm_append_comm.trans (perm_of_getElem? hi'))
  | flushBegin | flushSync | flushSyncFail | flushEnd | flushEndFail => exact hsame _ rfl rfl
  | dropNone => exact h
  | @remove ok s rest hh =>
    refine hsame _ ?_ rfl
    by_cases hrest : rest = [] <;> simp [Proc.entries, Holder.entries, hh, hrest]

/-! ## What stays true over the lives of a directory -/

/-- The invariant of a running process, for the ids that were acknowledged before it started and the
floors that were observed so far. -/
structure Secure (prior floors : List ℕ) (id₀ w : ℕ) (p : Proc) : Prop where
  inv : Inv id₀ p
  durable : Durable w p
  named : Named p
  opened : w ≤ p.log.written
  entries : EntriesOk w prior p.log.nextMsgID p.entries
  /-- Every id acknowledged before is at most that of an anchor. -/
  prior_anchored : ∀ a ∈ prior, ∃ r ∈ p.anchors, a ≤ r.msgID.toNat
  /-- There is an anchor as soon as the floor has left 0. -/
  anchored : id₀ ≠ 0 ∨ p.gone ++ p.toDrop ≠ [] → p.anchors ≠ []
  /-- The oldest file is at or above every floor observed. -/
  floors_le : ∀ f ∈ floors, f ≤ id₀ + (stream p.gone).length

/-- Removed segments stay removed. -/
theorem gone_prefix_of_step (hstep : Step p a p') : p.gone <+: p'.gone := by
  cases hstep with
  | @write rec =>
    rcases fence_cases (p.wrote rec) rec with ⟨-, heq⟩ | heq | heq | ⟨-, heq⟩ | heq <;>
      rw [heq] <;> exact prefix_rfl
  | remove => exact prefix_append _ _
  | _ => exact prefix_rfl

theorem dropped_of_step (hdrop : ∀ keepIndex, a ≠ .drop keepIndex) (hstep : Step p a p') :
    p'.gone ++ p'.toDrop ≠ [] → p.gone ++ p.toDrop ≠ [] := by
  cases hstep with
  | @write rec =>
    rcases fence_cases (p.wrote rec) rec with ⟨-, heq⟩ | heq | heq | ⟨-, heq⟩ | heq <;>
      rw [heq] <;> exact id
  | rotateSync => simp [Proc.syncSegment, Proc.commit]
  | fsync => simp [Proc.syncSegment, Proc.commit, Proc.succeed]
  | flushSync => simp [Proc.syncSegment]
  | drop => exact absurd rfl (hdrop _)
  | remove hh hdrop' => simp [hdrop']
  | _ => exact id

variable {floors : List ℕ} {mode : SyncMode}

theorem Secure.step (h : Secure prior floors id₀ w p) (ha : a.Intact) (hrm : a ≠ .remove false)
    (hname : NameFits p a) (hdrop : ∀ keepIndex, a ≠ .drop keepIndex) (hstep : Step p a p') :
    Secure prior floors id₀ w p' := by
  have hanchors := anchors_subset_of_step h.inv ha hdrop hstep
  refine
    { inv := inv_of_step ha h.inv hstep
      durable := durable_of_step ha h.inv h.durable hstep
      named := named_of_step hrm hname h.named hstep
      opened := h.opened.trans (extends_of_step h.inv hstep).written
      entries := entriesOk_of_step h.inv h.opened ha hstep h.entries
      prior_anchored := fun a ha' => ?_
      anchored := fun hcond => ?_
      floors_le := fun f hf => ?_ }
  · obtain ⟨r, hr, hle⟩ := h.prior_anchored a ha'
    exact ⟨r, hanchors hr, hle⟩
  · obtain ⟨r, hr⟩ := exists_mem_of_ne_nil _
      (h.anchored (hcond.imp_right (dropped_of_step hdrop hstep)))
    exact ne_nil_of_mem (hanchors hr)
  · obtain ⟨more, hmore⟩ := gone_prefix_of_step hstep
    have hle := h.floors_le f hf
    rw [← hmore, stream_append, length_append]
    omega

theorem Secure.drop {keepIndex : ℕ} (h : Secure prior floors id₀ w p)
    (hsafe : DropSafe p.log (.drop keepIndex)) (hstep : Step p (.drop keepIndex) p') :
    Secure prior floors id₀ w p' := by
  have hintact : (Action.drop keepIndex).Intact := by
    rintro cut ⟨⟩
  have hinv := inv_of_step hintact h.inv hstep
  have hdurable := durable_of_step hintact h.inv h.durable hstep
  have hnamed := named_of_step (by rintro ⟨⟩) (by rintro ⟨⟩) h.named hstep
  have hentries := entriesOk_of_step h.inv h.opened hintact hstep h.entries
  cases hstep with
  | dropNone => exact h
  | drop hfree hne =>
    rcases hsafe with hnone | hanchor
    · exact absurd hnone hne
    -- A sealed segment is never empty, so either side of the condition leaves an anchor.
    have hanchors : stream (p.log.kept keepIndex) ++ p.log.active.durableRecords ≠ [] := by
      intro hnil
      obtain ⟨hkept, hactive⟩ := append_eq_nil_iff.mp hnil
      rcases hanchor with hsealed | hdurable
      · obtain ⟨s, hs⟩ := exists_mem_of_ne_nil _ hsealed
        have hmem : s ∈ p.log.sealed := by
          rw [← p.log.dropped_append_kept keepIndex]
          exact mem_append_right _ hs
        exact h.inv.shape.nonempty s (mem_append_right _ (mem_append_right _ hmem))
          (flatMap_eq_nil_iff.mp hkept s hs)
      · exact hdurable hactive
    refine ⟨hinv, hdurable, hnamed, h.opened, hentries, fun a ha => ?_, fun _ => hanchors,
      h.floors_le⟩
    obtain ⟨r, hr, hle⟩ := h.prior_anchored a ha
    rw [Proc.anchors, ← p.log.dropped_append_kept keepIndex, stream_append, append_assoc] at hr
    rcases mem_append.mp hr with hdropped | hkept
    · -- An anchor that is dropped comes before each of those that stay.
      obtain ⟨r', hr'⟩ := exists_mem_of_ne_nil _ hanchors
      have hnum := hinv.shape.numbered
      rw [hinv.shape.appended_slice, stream_append] at hnum
      have hlt := hnum.lt_of_append (mem_append_right _ hdropped)
        (anchors_subset hinv.shape hr')
      exact ⟨r', hr', hle.trans hlt.le⟩
    · exact ⟨r, hkept, hle⟩

theorem Secure.exists_anchor {a : ℕ} (h : Secure prior floors id₀ w p)
    (ha : a ∈ prior ++ entryIDs p.acked) : ∃ r ∈ p.anchors, a ≤ r.msgID.toNat := by
  rcases mem_append.mp ha with hprior | hacked
  · exact h.prior_anchored a hprior
  · obtain ⟨x, hx, rfl⟩ := List.mem_map.mp hacked
    exact exists_anchor_of_acked h.inv h.durable (fun hne => h.anchored (.inr hne)) hx
      (h.entries.late x (mem_append_left _ hx))

theorem Secure.acked (h : Secure prior floors id₀ w p) :
    (prior ++ entryIDs p.acked).Nodup ∧ ∀ a ∈ prior ++ entryIDs p.acked, a < p.log.nextMsgID := by
  have hacked : EntriesOk w prior p.log.nextMsgID p.acked :=
    h.entries.of_perm (l := p.waiting ++ p.holder.entries) (List.Perm.refl _) le_rfl
  exact ⟨hacked.distinct, hacked.lt⟩

theorem anchors_subset_of_reopened {segmentBytes : ℕ} {q : Proc} {cut : ℕ → ℕ × ℕ} (h : Shape id₀ p)
    (hmay : p.MayCut cut)
    (hr : Reopened mode segmentBytes p (Segment.cutBy cut) (cut p.log.active.index).1 q) :
    p.anchors ⊆ q.anchors := by
  obtain ⟨hsynced, hle, -⟩ := hmay p.log.active (by rw [p.linked_eq]; simp)
  intro r hr'
  rcases mem_append.mp hr' with hsealed | hactive
  · refine mem_append_left _ ?_
    rw [hr.sealed_stream, Proc.retired, stream_append]
    exact mem_append_right _ hsealed
  · -- The durable records lie before the cut, and stay durable.
    refine mem_append_right _ ?_
    rw [h.active.2.2.durableRecords_eq] at hactive
    rw [hr.inv.shape.active.2.2.durableRecords_eq, hr.active_records, hr.active_file]
    obtain ⟨rs, hrs⟩ : ∃ rs, rs = p.log.active.records := ⟨_, rfl⟩
    rw [← hrs] at hactive ⊢
    obtain ⟨j, hj⟩ : ∃ j, j = codec.whole p.log.active.f.synced rs := ⟨_, rfl⟩
    obtain ⟨m, hm⟩ : ∃ m, m = codec.whole (cut p.log.active.index).1 rs := ⟨_, rfl⟩
    have hjm : j ≤ m := by
      rw [hj, hm]
      exact codec.whole_mono rs (hsynced.trans hle)
    have htake : (rs.take m).take j = rs.take j := by
      rw [take_take, min_eq_left hjm]
    have hfit : (codec.frames (rs.take j)).length ≤ p.log.active.f.synced := by
      rw [hj]
      exact codec.length_frames_take_whole_le _ rs
    rw [← hj, ← htake] at hactive
    rw [← hm]
    refine take_subset_take_left _ (codec.le_whole_of_length_le ?_ ?_) hactive
    · rw [length_take]
      exact le_min hjm (hj ▸ codec.whole_le_length _ rs)
    · rw [htake]
      exact le_min (hfit.trans hsynced) (codec.length_frames_take_mono rs hjm)

theorem Shape.id_lt (h : Shape id₀ p) (hr : r ∈ p.anchors) : r.msgID.toNat < p.log.nextMsgID := by
  have hmem : r ∈ p.appended := by
    rw [h.appended_slice]
    exact mem_append_right _ (anchors_subset h hr)
  rw [h.next_eq]
  exact (h.numbered.bounds hmem).2

theorem Secure.reopen {cut : ℕ → ℕ × ℕ} (h : Secure prior floors id₀ w p) (hmode : mode ≠ .none)
    (segmentBytes : ℕ) (hmay : p.MayCut cut) (hkeep : p.KeepsSealed cut) :
    ∃ q id₀' w', openLog mode segmentBytes (p.crashDir (Segment.cutBy cut)) = .ok q ∧
      q.acked = [] ∧ Secure (prior ++ entryIDs p.acked) floors id₀' w' q := by
  have hshape := h.inv.shape
  obtain ⟨q, hopen, hr⟩ := openLog_of_tail hshape h.named (tailCut_cutBy hmay hkeep)
    mode segmentBytes
  have hsub := anchors_subset_of_reopened hshape hmay hr
  obtain ⟨hnodup, -⟩ := h.acked
  have hacked : q.acked = [] := by rw [hr.start_eq]; rfl
  have hentries : q.entries = [] := by rw [hr.start_eq]; rfl
  have hgone : q.gone = [] := by rw [hr.start_eq]; rfl
  have htoDrop : q.toDrop = [] := by rw [hr.start_eq]; rfl
  -- The floor moves on with the first record found.
  have hfirst : q.appended ≠ [] → firstID q.appended = id₀ + (stream p.gone).length := by
    intro hne
    have hsplit := hshape.appended_linked
    rw [Proc.linked_eq, stream_append, stream_cons, stream_nil, append_nil,
      ← take_append_drop
        (codec.whole (cut p.log.active.index).1 p.log.active.records) p.log.active.records,
      ← append_assoc (stream p.retired), ← hr.appended_eq] at hsplit
    exact firstID_of_numbered (hshape.numbered_slice hsplit).1 hne
  have hfound : p.anchors ≠ [] → q.appended ≠ [] := by
    intro hne
    obtain ⟨r, hr'⟩ := exists_mem_of_ne_nil _ hne
    have hmem := anchors_subset hr.inv.shape (hsub hr')
    rw [hr.inv.shape.appended_slice]
    exact ne_nil_of_mem (mem_append_right _ hmem)
  have hfloor : id₀ + (stream p.gone).length ≤ firstID q.appended := by
    by_cases hne : q.appended = []
    · have hzero : ¬ (id₀ ≠ 0 ∨ p.gone ++ p.toDrop ≠ []) := fun hcond =>
        hfound (h.anchored hcond) hne
      simp only [not_or, not_not, append_eq_nil_iff] at hzero
      simp [hzero.1, hzero.2.1]
    · exact (hfirst hne).ge
  refine ⟨q, firstID q.appended, (codec.frames q.appended).length, hopen, hacked, ?_⟩
  refine
    { inv := hr.inv
      durable := ?_
      named := hr.named h.named
      opened := hr.inv.shape.written_eq.ge
      entries := ?_
      prior_anchored := fun a ha => ?_
      anchored := fun hcond => ?_
      floors_le := fun f hf => ?_ }
  · have hdurable := durable_start hmode segmentBytes p.strays q.log.sealed q.log.active
      ⟨(codec.frames q.appended).length, q.appended⟩
    rwa [← hr.start_eq] at hdurable
  · rw [hentries]
    refine ⟨by simp, by simpa [entryIDs] using hnodup, fun a ha => ?_⟩
    obtain ⟨r, hr', hle⟩ := h.exists_anchor (by simpa [entryIDs] using ha)
    exact hle.trans_lt (hr.inv.shape.id_lt (hsub hr'))
  · obtain ⟨r, hr', hle⟩ := h.exists_anchor ha
    exact ⟨r, hsub hr', hle⟩
  · have hne : firstID q.appended ≠ 0 := by
      rcases hcond with hne | hdropped
      · exact hne
      · exact absurd (by rw [hgone, htoDrop]; rfl) hdropped
    have heq := hfirst fun hnil => hne (by rw [hnil]; rfl)
    have hmoved : id₀ ≠ 0 ∨ p.gone ++ p.toDrop ≠ [] := by
      by_contra hnot
      simp only [not_or, not_not, append_eq_nil_iff] at hnot
      exact hne (by rw [heq, hnot.1, hnot.2.1]; rfl)
    obtain ⟨r, hr'⟩ := exists_mem_of_ne_nil _ (h.anchored hmoved)
    exact ne_nil_of_mem (hsub hr')
  · rw [hgone, stream_nil, length_nil, Nat.add_zero]
    exact (h.floors_le f hf).trans hfloor

/-! ## Ids over whole histories -/

/-- What is known of a directory, with a process on it or without one. Without one, it is what a
crash left of the last process. -/
def LifeOk (ackedIDs floors : List ℕ) : Life → Prop
  | .up p => ∃ prior id₀ w, ackedIDs = prior ++ entryIDs p.acked ∧ Secure prior floors id₀ w p
  | .down d => ∃ p prior id₀ w cut, ackedIDs = prior ++ entryIDs p.acked ∧
      Secure prior floors id₀ w p ∧ p.MayCut cut ∧ p.KeepsSealed cut ∧
      d = p.crashDir (Segment.cutBy cut)

/-- The invariant of a history. -/
structure HistoryOk (h : History) : Prop where
  life : LifeOk h.ackedIDs h.floors h.life
  sorted : h.floors.Pairwise (· ≤ ·)

/-- Appends that returned stay returned. -/
theorem acked_prefix_of_step (hstep : Step p a p') : p.acked <+: p'.acked := by
  cases hstep with
  | @write rec =>
    rcases fence_cases (p.wrote rec) rec with ⟨-, heq⟩ | heq | heq | ⟨-, heq⟩ | heq <;>
      rw [heq] <;> first | exact prefix_rfl | exact prefix_append _ _
  | fsync | resume => exact prefix_append _ _
  | _ => exact prefix_rfl

/-- A safe step of the process keeps it secure. -/
theorem Secure.of_stepSafe (h : Secure prior floors id₀ w p) (hsafe : StepSafe p a)
    (hstep : Step p a p') : Secure prior floors id₀ w p' := by
  obtain ⟨hintact, hrm, hname, hdrop⟩ := hsafe
  by_cases hisdrop : ∃ keepIndex, a = .drop keepIndex
  · obtain ⟨keepIndex, rfl⟩ := hisdrop
    exact h.drop hdrop hstep
  · exact h.step hintact hrm hname (fun keepIndex heq => hisdrop ⟨keepIndex, heq⟩) hstep

/-- The segments that are no longer in the slice. -/
def Proc.dropped (p : Proc) : List Segment := p.gone ++ p.toDrop

theorem Proc.all_eq_dropped_append (p : Proc) : p.all = p.dropped ++ p.log.segments := by
  simp [Proc.all, Proc.older, Proc.dropped, Log.segments]

theorem Shape.retainedFloor_eq (h : Shape id₀ p) :
    p.log.retainedFloor = id₀ + (stream p.dropped).length := by
  have hlay := h.layout
  rw [Proc.all_eq_dropped_append, Log.segments] at hlay
  unfold Log.retainedFloor
  cases hsealed : p.log.sealed with
  | nil =>
    rw [hsealed] at hlay
    exact hlay.base.1
  | cons =>
    rw [hsealed] at hlay
    exact hlay.base.1

theorem historyOk_of_step {h h' : History} {e : Event} (hsafe : e.Safe h) (hok : HistoryOk h)
    (hstep : h.step e = some h') : HistoryOk h' := by
  obtain ⟨life, ackedIDs, floors⟩ := h
  obtain ⟨hlife, hsorted⟩ := hok
  cases life with
  | up p =>
    obtain ⟨prior, id₀, w, hacked, hsec⟩ := hlife
    cases e with
    | run =>
      obtain ⟨p', hp', rfl⟩ := Option.map_eq_some_iff.mp hstep
      have hstep' := step_sound hp'
      refine ⟨⟨prior, id₀, w, ?_, hsec.of_stepSafe hsafe hstep'⟩, hsorted⟩
      obtain ⟨more, hmore⟩ := acked_prefix_of_step hstep'
      rw [hacked, ← hmore, drop_left, append_assoc, entryIDs, entryIDs, map_append]
    | retainedFloor =>
      -- The call takes the mutex, so that no drop is half done when it reads the base.
      have hfree : p.holder = .free := by
        by_contra hne
        simp [History.step, hne] at hstep
      obtain rfl : { life := .up p, ackedIDs, floors := floors ++ [p.log.retainedFloor] } = h' := by
        simpa [History.step, hfree] using hstep
      have hfloor : p.log.retainedFloor = id₀ + (stream p.gone).length := by
        have hholder := hsec.inv.calls.holder
        rw [hfree] at hholder
        rw [hsec.inv.shape.retainedFloor_eq, Proc.dropped, hholder, append_nil]
      refine ⟨⟨prior, id₀, w, hacked, { hsec with floors_le := fun f hf => ?_ }⟩, ?_⟩
      · rcases mem_append.mp hf with hold | hnew
        · exact hsec.floors_le f hold
        · rw [mem_singleton.mp hnew, hfloor]
      · refine pairwise_append.mpr ⟨hsorted, pairwise_singleton _ _, fun f hf g hg => ?_⟩
        rw [mem_singleton.mp hg, hfloor]
        exact hsec.floors_le f hf
    | crash cut =>
      have hmay : p.MayCut cut := by
        by_contra hnot
        simp [History.step, hnot] at hstep
      obtain rfl : { life := .down (p.crashDir (Segment.cutBy cut)), ackedIDs, floors } = h' := by
        simpa [History.step, hmay] using hstep
      exact ⟨⟨p, prior, id₀, w, cut, hacked, hsec, hmay, hsafe, rfl⟩, hsorted⟩
    | reopen => cases hstep
  | down =>
    obtain ⟨p, prior, id₀, w, cut, hacked, hsec, hmay, hkeep, rfl⟩ := hlife
    cases e with
    | reopen mode segmentBytes =>
      obtain ⟨q, id₀', w', hopen, hnew, hq⟩ := hsec.reopen hsafe segmentBytes hmay hkeep
      obtain rfl : { life := .up q, ackedIDs, floors } = h' := by
        simpa [History.step, hopen] using hstep
      -- What the last process acknowledged becomes prior to the new one.
      refine ⟨⟨prior ++ entryIDs p.acked, id₀', w', ?_, hq⟩, hsorted⟩
      rw [hnew]
      simpa [entryIDs] using hacked
    | run | retainedFloor | crash => cases hstep

/-- Ids are never reused. Take any history of a log directory that starts with `Open` on an empty
directory in a mode that syncs, with any number of steps, crashes and reopenings, in which every
event meets its condition. Then the id of every append that ever returned success is below the next
id of the running process, no two of them are equal, and the values that `RetainedFloor` returned
never decrease. -/
theorem ids_never_reused {mode : SyncMode} (hmode : mode ≠ .none) {segmentBytes : ℕ} {p₀ : Proc}
    {es : List Event} {h : History} (hopen : openLog mode segmentBytes [] = .ok p₀)
    (hrun : Run History.step (fun h e => e.Safe h) ⟨.up p₀, [], []⟩ es h) :
    (∀ p, h.life = .up p → ∀ a ∈ h.ackedIDs, a < p.log.nextMsgID) ∧
      h.ackedIDs.Nodup ∧ h.floors.Pairwise (· ≤ ·) := by
  have hstart : HistoryOk ⟨.up p₀, [], []⟩ := by
    have hi := inv_of_openLog_nil hopen
    obtain rfl := eq_of_openLog_nil hopen
    refine ⟨⟨[], 0, 0, rfl, ?_⟩, List.Pairwise.nil⟩
    refine ⟨hi, durable_empty hmode segmentBytes, named_empty mode segmentBytes, le_rfl,
      ?_, ?_, ?_, ?_⟩
    · have hentries : (Proc.empty mode segmentBytes).entries = [] := rfl
      exact ⟨by simp [hentries], by simp [hentries, entryIDs], by simp [hentries, entryIDs]⟩
    · simp
    · simp [Proc.empty, Proc.start]
    · simp
  have hok : HistoryOk h := hrun.invariant hstart fun _ _ _ hsafe hok hstep =>
    historyOk_of_step hsafe hok hstep
  obtain ⟨hlife, hsorted⟩ := hok
  refine ⟨fun p hp => ?_, ?_, hsorted⟩
  · rw [hp] at hlife
    obtain ⟨prior, id₀, w, hacked, hsec⟩ := hlife
    rw [hacked]
    exact hsec.acked.2
  · cases hl : h.life with
    | up =>
      rw [hl] at hlife
      obtain ⟨prior, id₀, w, hacked, hsec⟩ := hlife
      rw [hacked]
      exact hsec.acked.1
    | down =>
      rw [hl] at hlife
      obtain ⟨p, prior, id₀, w, cut, hacked, hsec, -⟩ := hlife
      rw [hacked]
      exact hsec.acked.1

/-- Two appends, a `DropSegmentsBefore` that leaves the second, a power loss in the middle of the
first record of a new segment, and an append under group commit after reopening. -/
def safeHistory : List Event :=
  [.run (.append emptyMessage), .run (.write none), .run (.fsync true),
    .run (.append emptyMessage), .run (.rotateCreate true), .run (.write none), .run (.fsync true),
    .run (.drop 1), .run (.remove true), .retainedFloor,
    .run (.append emptyMessage), .run (.rotateCreate true), .run (.write none),
    .crash fun i => if i = 1 then (38, 38) else (10, 0),
    .reopen .batched 1,
    .run (.append emptyMessage), .run (.write none), .run .flushBegin, .run (.flushSync true),
    .run .flushEnd, .run (.resume 0), .retainedFloor]

/-- The theorem at a history with a drop, a crash and a reopening: three ids are acknowledged and
the floor is 1 before and after. -/
theorem ids_never_reused_safeHistory :
    ∃ p₀ h, openLog .perMessage 1 [] = .ok p₀ ∧
      exec History.step (fun h e => e.Safe h) ⟨.up p₀, [], []⟩ safeHistory = some h ∧
      (h.ackedIDs = [0, 1, 2] ∧ h.floors = [1, 1]) ∧
      (∀ p, h.life = .up p → ∀ a ∈ h.ackedIDs, a < p.log.nextMsgID) ∧
      h.ackedIDs.Nodup ∧ h.floors.Pairwise (· ≤ ·) := by
  have hopen := openLog_nil .perMessage 1
  obtain ⟨h, hh, hvalues⟩ : ∃ h, exec History.step (fun h e => e.Safe h)
      ⟨.up (.empty .perMessage 1), [], []⟩ safeHistory = some h ∧
      h.ackedIDs = [0, 1, 2] ∧ h.floors = [1, 1] := by
    decide +kernel
  exact ⟨_, h, hopen, hh, hvalues, ids_never_reused (by decide) hopen (run_of_exec hh)⟩

/-- No I/O operation of the event fails. -/
def Event.Succeeds : Event → Prop
  | .run a => a.Succeeds
  | _ => True

instance : DecidablePred Event.Succeeds
  | .run a => inferInstanceAs (Decidable a.Succeeds)
  | .retainedFloor | .crash _ | .reopen _ _ => isTrue trivial

/-- A crash right after `rotate` created an empty segment; after reopening, `DropSegmentsBefore`
removes every other segment; another crash and reopening, and an append. -/
def resetHistory : List Event :=
  [.run (.append emptyMessage), .run (.write none), .run (.fsync true),
    .run (.append emptyMessage), .run (.rotateCreate true),
    .crash fun i => if i = 0 then (38, 38) else (0, 0),
    .reopen .perMessage 1, .run (.drop 1), .run (.remove true), .retainedFloor,
    .crash fun _ => (0, 0),
    .reopen .perMessage 1, .retainedFloor,
    .run (.append emptyMessage), .run (.write none), .run (.fsync true)]

/-- The last reopening finds no record: the floor falls from 1 to 0, and id 0 is assigned and
acknowledged a second time, without any I/O error. -/
theorem floor_and_ids_reset :
    ∃ p₀ h, openLog .perMessage 1 [] = .ok p₀ ∧
      Run History.step (fun _ e => e.Succeeds) ⟨.up p₀, [], []⟩ resetHistory h ∧
      h.ackedIDs = [0, 0] ∧ h.floors = [1, 0] := by
  exact ⟨_, exists_and_left.mpr ⟨openLog_nil .perMessage 1, by decide +kernel⟩⟩

end ToyMQ.Wal
