import ToyMQ.Wal.Crash

/-!
# Sealed segments and power loss

Recovery forgives a torn tail in the active segment only, so a segment has to be durable as a whole
when it is sealed. `rotate` syncs it when `committed` is behind `written`, which decides the matter
only if what is committed is durable. Two situations break this:

* in the mode that never syncs, `Append` commits without an fsync (`unsynced_sealed_segment`);
* `Open` commits all it has scanned, also when the process before it was killed between a write and
  its fsync (`unsynced_recovered_segment`).

`sealed_segments_durable` shows that without rotations in that mode every sealed segment is
durable. `acked_survive_kill_and_power_loss` shows that a kill which finds the active file synced
does no harm.
-/

namespace ToyMQ.Wal

open Lib List

/-! ## When a directory can be opened -/

theorem recoverSegment_active (acc : Scan) (s : Segment) :
    ∃ res, recoverSegment acc s true = .ok res := by
  unfold recoverSegment
  simp only [if_true]
  split_ifs
  · exact ⟨_, rfl⟩
  · exact ⟨_, rfl⟩

variable {segs : List Segment} {d : Dir} {s : Segment}

theorem recoverSealed_of_frames
    (hsegs : ∀ s ∈ segs, ∃ rs, s.f.data = codec.frames rs ∧ ∀ r ∈ rs, Fits r) (acc : Scan) :
    ∃ res, recoverSealed acc segs = .ok res := by
  induction segs generalizing acc with
  | nil => exact ⟨_, rfl⟩
  | cons s segs ih =>
    obtain ⟨⟨rs, hdata, hfit⟩, hrest⟩ := forall_mem_cons.mp hsegs
    obtain ⟨res, hres⟩ := ih hrest ⟨acc.globalPos + (codec.frames rs).length, acc.visited ++ rs⟩
    refine ⟨(s.placed acc rs :: res.1, res.2), ?_⟩
    rw [recoverSealed, recoverSegment_of_frames acc false hdata hfit]
    simp only [hres]

theorem openLog_of_sealed_frames (hsealed : ∀ s ∈ (discoverSegments d).dropLast,
      ∃ rs, s.f.data = codec.frames rs ∧ ∀ r ∈ rs, Fits r) (mode : SyncMode) (segmentBytes : ℕ) :
    ∃ q, openLog mode segmentBytes d = .ok q := by
  obtain ⟨⟨sealed, acc⟩, hrec⟩ := recoverSealed_of_frames hsealed ⟨0, []⟩
  obtain ⟨res, hactive⟩ := recoverSegment_active acc
    ((discoverSegments d).getLast?.getD (Segment.found 0 File.empty))
  exact ⟨Proc.start mode segmentBytes (d.filter fun e => (segmentIndex e.1).isNone) sealed res.1
    res.2, by simp only [openLog, hrec, hactive]⟩

/-- Sorting a list that ends in its greatest element, if it has one: every element but the last
comes from the rest. -/
theorem mem_of_mem_dropLast_insertionSort {top : List Segment} (htop : top.length ≤ 1)
    (hlt : ∀ s ∈ segs, ∀ t ∈ top, s.index < t.index)
    (hs : s ∈ ((segs ++ top).insertionSort fun s s' => s.index ≤ s'.index).dropLast) :
    s ∈ segs := by
  have hperm := perm_insertionSort (fun s s' : Segment => s.index ≤ s'.index) (segs ++ top)
  have hsorted : ((segs ++ top).insertionSort fun s s' : Segment => s.index ≤ s'.index).Pairwise
      fun s s' => s.index ≤ s'.index := pairwise_insertionSort _ _
  generalize (segs ++ top).insertionSort (fun s s' : Segment => s.index ≤ s'.index) = found
    at hperm hsorted hs
  rcases eq_nil_or_concat found with rfl | ⟨front, last, rfl⟩
  · simp at hs
  rw [concat_eq_append] at hperm hsorted hs
  rw [dropLast_concat] at hs
  rcases top with _ | ⟨t, rest⟩
  · rw [append_nil] at hperm
    exact hperm.mem_iff.mp (mem_append_left _ hs)
  · obtain rfl : rest = [] := length_eq_zero_iff.mp (by simpa using htop)
    -- The last element is the greatest one, since nothing is above that.
    have hlast : last = t := by
      have hmem : last ∈ segs ++ [t] := hperm.mem_iff.mp (by simp)
      rcases mem_append.mp hmem with hsegs | htop
      · have hbelow := hlt last hsegs t (mem_singleton_self t)
        have ht : t ∈ front ++ [last] := hperm.mem_iff.mpr (by simp)
        rcases mem_append.mp ht with hfront | heq
        · have hle := (pairwise_append.mp hsorted).2.2 t hfront last (by simp)
          omega
        · rw [mem_singleton.mp heq] at hbelow
          exact absurd hbelow (lt_irrefl _)
      · exact mem_singleton.mp htop
    rw [hlast, perm_append_right_iff] at hperm
    exact hperm.mem_iff.mp hs

/-! ## A crash over durable segments -/

/-- The other files of the directory are those of removed segments, left behind by a removal that
failed. -/
def Leftovers (p : Proc) : Prop := ∀ e ∈ p.strays, ∃ s ∈ p.gone, e = s.entry

variable {p p' : Proc} {a : Action} {id₀ : ℕ}

theorem leftovers_of_step (h : Leftovers p) (hstep : Step p a p') : Leftovers p' := by
  cases hstep with
  | @write rec =>
    rcases fence_cases (p.wrote rec) rec with ⟨-, heq⟩ | heq | heq | ⟨-, heq⟩ | heq <;> rw [heq] <;>
      exact h
  | @remove ok s =>
    intro e he
    have hold : ∀ e ∈ p.strays, ∃ s' ∈ p.gone ++ [s], e = s'.entry := fun e he => by
      obtain ⟨s', hs', heq⟩ := h e he
      exact ⟨s', mem_append_left _ hs', heq⟩
    cases ok
    · rcases mem_append.mp he with hstray | hnew
      · exact hold e hstray
      · exact ⟨s, mem_append_right _ (mem_singleton_self s), mem_singleton.mp hnew⟩
    · exact hold e he
  | _ => exact h

/-- The index that a segment file is found under. -/
theorem eq_of_segmentIndex_segmentName {i j : ℕ} (h : segmentIndex (segmentName i) = some j) :
    j = i := by
  by_cases hlt : i < nameLimit
  · rw [segmentIndex_segmentName hlt] at h
    exact (Option.some.inj h).symm
  · rw [segmentIndex_segmentName_of_le (Nat.le_of_not_lt hlt)] at h
    cases h

theorem openLog_of_crash (h : Shape id₀ p) (hdurable : ∀ s ∈ p.older, s.f.data.length ≤ s.f.synced)
    (hleft : Leftovers p) (hcrash : Crash p d) (mode : SyncMode) (segmentBytes : ℕ) :
    ∃ q, openLog mode segmentBytes d = .ok q := by
  obtain ⟨keep, hkeep, rfl⟩ := hcrash
  let pick : Bytes × File → Option Segment :=
    fun e => (segmentIndex e.1).map fun i => Segment.found i e.2
  let sealed : Dir := p.strays ++ p.retired.map fun s => (segmentName s.index, keep s)
  -- Every file but the active one is that of an older segment, with all of its bytes.
  have hsealed : ∀ e ∈ sealed, ∃ s ∈ p.older, e.1 = segmentName s.index ∧ e.2.data = s.f.data := by
    intro e he
    rcases mem_append.mp he with hstray | hretired
    · obtain ⟨s, hs, rfl⟩ := hleft e hstray
      exact ⟨s, mem_append_left _ hs, rfl, rfl⟩
    · obtain ⟨s, hs, rfl⟩ := List.mem_map.mp hretired
      have hs' : s ∈ p.older := mem_append_right _ hs
      obtain ⟨k, hk, -, hdata, -⟩ := hkeep s (by rw [Proc.linked_eq]; simp [hs])
      refine ⟨s, hs', rfl, ?_⟩
      rw [hdata, take_of_length_le ((hdurable s hs').trans hk)]
  have hfound : ∀ t ∈ sealed.filterMap pick, ∃ s ∈ p.older, t.index = s.index ∧
      t.f.data = s.f.data := by
    intro t ht
    obtain ⟨e, he, hpick⟩ := mem_filterMap.mp ht
    obtain ⟨s, hs, hname, hdata⟩ := hsealed e he
    obtain ⟨i, hi, rfl⟩ := Option.map_eq_some_iff.mp hpick
    rw [hname] at hi
    exact ⟨s, hs, eq_of_segmentIndex_segmentName hi, hdata⟩
  have hdir : p.crashDir keep
      = sealed ++ [(segmentName p.log.active.index, keep p.log.active)] := by
    rw [Proc.crashDir, Proc.linked_eq, map_append, map_singleton, append_assoc]
  refine openLog_of_sealed_frames (fun s hs => ?_) mode segmentBytes
  have hmem : s ∈ sealed.filterMap pick := by
    rw [discoverSegments, hdir, filterMap_append] at hs
    refine mem_of_mem_dropLast_insertionSort (length_filterMap_le _ _) ?_ hs
    intro t ht t' ht'
    obtain ⟨s', hs', hidx, -⟩ := hfound t ht
    obtain ⟨e, he, hpick⟩ := mem_filterMap.mp ht'
    rw [mem_singleton.mp he] at hpick
    obtain ⟨i, hi, rfl⟩ := Option.map_eq_some_iff.mp hpick
    have htop : i = p.log.active.index := eq_of_segmentIndex_segmentName hi
    rw [hidx, htop]
    exact h.index_lt hs'
  obtain ⟨s', hs', -, hdata⟩ := hfound s hmem
  have hclean := h.layout.clean s' (mem_append_left _ hs')
  exact ⟨s'.records, hdata.trans hclean.data_eq, hclean.fits⟩

/-! ## Sealed segments are durable -/

/-- The condition on a step: no write stops in the middle of a frame, and a log that never syncs
does not rotate. -/
def SealsDurably (p : Proc) (a : Action) : Prop :=
  a.Intact ∧ (p.log.syncMode = .none → a ≠ .rotateCreate true)

instance (p : Proc) (a : Action) : Decidable (SealsDurably p a) :=
  inferInstanceAs (Decidable (_ ∧ (_ → _)))

/-- A log that never syncs and has not rotated has one segment only. -/
structure Unrotated (p : Proc) : Prop where
  mode : p.log.syncMode = .none
  older : p.older = []
  strays : p.strays = []

theorem unrotated_of_step (ha : SealsDurably p a) (h : Unrotated p) (hstep : Step p a p') :
    Unrotated p' := by
  obtain ⟨hmode, holder, hstrays⟩ := h
  have hempty : p.gone = [] ∧ p.toDrop = [] ∧ p.log.sealed = [] := by
    simpa [Proc.older] using holder
  have hsync : ∀ t, (p.syncSegment t).older = [] := by
    intro t
    simp [Proc.older, Proc.syncSegment, hempty]
  cases hstep with
  | rotateSync | fsync | flushSync => exact ⟨hmode, hsync _, hstrays⟩
  | rotateCreate => exact absurd rfl (ha.2 hmode)
  | @write rec =>
    rcases fence_cases (p.wrote rec) rec with ⟨-, heq⟩ | heq | heq | ⟨-, heq⟩ | heq <;> rw [heq] <;>
      exact ⟨hmode, holder, hstrays⟩
  | drop hfree hne =>
    rw [Log.dropped, hempty.2.2] at hne
    exact absurd rfl hne
  | remove hh hdrop =>
    rw [hempty.2.1] at hdrop
    cases hdrop
  | _ => exact ⟨hmode, holder, hstrays⟩

/-- A sealed segment is durable: in every state that a log opened on an empty directory reaches,
in any sync mode, with any outcome of the fsyncs, as long as writes are whole and the mode that
never syncs does not rotate, every byte of a segment that is no longer the active one has been
covered by a successful fsync, and whatever a crash leaves, the next `Open` succeeds. -/
theorem sealed_segments_durable {mode : SyncMode} {segmentBytes : ℕ} {p₀ p : Proc}
    {as : List Action} (hopen : openLog mode segmentBytes [] = .ok p₀)
    (hrun : Run step SealsDurably p₀ as p) :
    (∀ s ∈ p.older, s.f.data.length ≤ s.f.synced) ∧
    ∀ d, Crash p d → ∀ mode' segmentBytes', ∃ q, openLog mode' segmentBytes' d = .ok q := by
  have hi : Inv 0 p := inv_of_run (fun _ _ ha => ha.1) (inv_of_openLog_nil hopen) hrun
  obtain rfl := eq_of_openLog_nil hopen
  have hleft : Leftovers p := hrun.invariant (I := Leftovers) nofun fun _ _ _ _ h hstep =>
    leftovers_of_step h (step_sound hstep)
  have hdurable : ∀ s ∈ p.older, s.f.data.length ≤ s.f.synced := by
    by_cases hmode : mode = .none
    · have hunrotated : Unrotated p := hrun.invariant (I := Unrotated) ⟨hmode, rfl, rfl⟩
        fun _ _ _ ha h hstep => unrotated_of_step ha h (step_sound hstep)
      rw [hunrotated.older]
      exact nofun
    · intro s hs
      have hd := (durable_of_run (fun _ _ ha => ha.1) (inv_of_openLog_nil hopen)
        (durable_empty hmode segmentBytes) hrun).2
      exact (hd.synced_older hi hs).ge
  exact ⟨hdurable, fun d hcrash mode' segmentBytes' =>
    openLog_of_crash hi.shape hdurable hleft hcrash mode' segmentBytes'⟩

/-- The theorem after a rotation under group commit whose own fsync covers the first record. -/
theorem sealed_segments_durable_rotationRun :
    ∃ p₀ p, openLog .batched 1 [] = .ok p₀ ∧
      exec step SealsDurably p₀ rotationRun = some p ∧ p.older.length = 1 ∧
      (∀ s ∈ p.older, s.f.data.length ≤ s.f.synced) ∧
      ∀ d, Crash p d → ∀ mode' segmentBytes', ∃ q, openLog mode' segmentBytes' d = .ok q := by
  have hopen := openLog_nil .batched 1
  obtain ⟨p, hp, holder⟩ : ∃ p, exec step SealsDurably (.empty .batched 1) rotationRun = some p ∧
      p.older.length = 1 := by
    decide +kernel
  exact ⟨_, p, hopen, hp, holder, sealed_segments_durable hopen (run_of_exec hp)⟩

/-- Two appends in the mode that never syncs, with a segment cap of one byte. -/
def unsyncedRotation : List Action :=
  [.append ⟨0, 1, [], [7], 0, 0⟩, .write none, .append ⟨0, 2, [], [8], 0, 0⟩, .rotateCreate true,
    .write none]

/-- In the mode that never syncs a rotation seals a segment of which nothing is durable; a crash
that keeps one byte of it makes the next `Open` fail with corruption in a sealed segment. -/
theorem unsynced_sealed_segment :
    ∃ p₀ p d, openLog .none 1 [] = .ok p₀ ∧
      exec step (fun _ a => a.Succeeds) p₀ unsyncedRotation = some p ∧
      (∃ s ∈ p.log.sealed, s.f.synced = 0 ∧ s.f.data ≠ []) ∧
      Crash p d ∧ openLog .none 1 d = .error ⟨0, 0, .shortRead⟩ := by
  obtain ⟨p, hp, hsealed, hfiles, herror⟩ :
      ∃ p, exec step (fun _ a => a.Succeeds) (.empty .none 1) unsyncedRotation = some p ∧
        (∃ s ∈ p.log.sealed, s.f.synced = 0 ∧ s.f.data ≠ []) ∧
        (∀ s ∈ p.linked, s.f.synced = 0 ∧ 1 ≤ s.f.data.length) ∧
        openLog .none 1 (p.crashDir fun s => ⟨s.f.data.take 1, 0⟩) =
          .error ⟨0, 0, .shortRead⟩ := by
    decide +kernel
  refine ⟨_, p, _, openLog_nil .none 1, hp, hsealed, ⟨_, fun s hs => ?_, rfl⟩, herror⟩
  obtain ⟨hsynced, hlen⟩ := hfiles s hs
  exact ⟨1, by omega, hlen, rfl, by omega, Nat.zero_le 1⟩

/-! ## A kill, and a power loss after it -/

/-- The process when it is killed: every byte handed to the kernel stays, so that a kill in the
middle of a write leaves the first `k` bytes of the frame. -/
def Proc.killed (p : Proc) (k : ℕ) : Proc :=
  match p.holder with
  | .write rec => p.torn rec k
  | _ => p

structure Flushed (p : Proc) (k : ℕ) : Prop where
  synced : p.log.active.f.data.length ≤ p.log.active.f.synced
  /-- The write that the kill interrupts has not put its whole frame into the file. -/
  partly : ∀ rec, p.holder = .write rec → k < (codec.frame rec).length

/-- What `Open` finds after a kill that left the active file synced: every record of a present
segment, all of it durable. -/
structure FoundDurable (p q : Proc) : Prop where
  inv : Inv (firstID q.appended) q
  named : Named q
  /-- The records of the present segments were visited. -/
  appended_eq : q.appended = stream p.linked
  committed : q.log.committed = q.log.written
  synced : ∀ s ∈ q.all, s.f.data.length ≤ s.f.synced
  idle : q.flusher = .idle

variable {q : Proc} {k : ℕ} {rec : Record}

theorem FoundDurable.durable (h : FoundDurable p q) (hmode : q.log.syncMode ≠ .none) :
    Durable 0 q := by
  refine ⟨hmode, fun s hs => covered_of_synced (h.synced s hs), ?_⟩
  rw [h.idle]
  trivial

theorem foundDurable_of_reopened {keep : Segment → File} {mode : SyncMode} {segmentBytes : ℕ}
    (hr : Reopened mode segmentBytes p' keep k q) (hn : Named p')
    (hretired : ∀ s ∈ p'.retired, (keep s).data.length ≤ (keep s).synced)
    (hstream : stream p'.retired
      ++ p'.log.active.records.take (codec.whole k p'.log.active.records) = stream p.linked)
    (hactive : (codec.frames
      (p'.log.active.records.take (codec.whole k p'.log.active.records))).length
        ≤ (keep p'.log.active).synced) : FoundDurable p q := by
  have hgone : q.gone = [] := by rw [hr.start_eq]; rfl
  have htoDrop : q.toDrop = [] := by rw [hr.start_eq]; rfl
  have hsynced : ∀ s ∈ q.all, s.f.data.length ≤ s.f.synced := by
    intro s hs
    rw [Proc.all, Proc.older, hgone, htoDrop, nil_append, nil_append] at hs
    rcases mem_append.mp hs with hsealed | hlast
    · have hmem : (s.index, s.f) ∈ q.log.sealed.map fun s => (s.index, s.f) :=
        List.mem_map_of_mem hsealed
      rw [hr.sealed_eq] at hmem
      obtain ⟨s₀, hs₀, heq⟩ := List.mem_map.mp hmem
      have hfile : keep s₀ = s.f := congrArg Prod.snd heq
      rw [← hfile]
      exact hretired s₀ hs₀
    · rw [mem_singleton.mp hlast, hr.active_file, File.truncate, min_eq_right hactive]
      exact length_take_le _ _
  exact
    { inv := hr.inv, named := hr.named hn, appended_eq := hr.appended_eq.trans hstream
      committed := by rw [hr.start_eq]; rfl
      synced := hsynced
      idle := by rw [hr.start_eq]; rfl }

theorem take_whole_of_part {rs : List Record} (hk : k < (codec.frame rec).length) :
    (rs ++ [rec]).take (codec.whole ((codec.frames rs).length + k) (rs ++ [rec])) = rs := by
  have hlow : rs.length ≤ codec.whole ((codec.frames rs).length + k) (rs ++ [rec]) := by
    apply codec.le_whole_of_length_le
    · simp
    · rw [take_left]
      exact Nat.le_add_right _ _
  have hhigh := codec.whole_le_length ((codec.frames rs).length + k) (rs ++ [rec])
  have hcut := codec.length_frames_take_whole_le ((codec.frames rs).length + k) (rs ++ [rec])
  rw [length_append, length_singleton] at hhigh
  rcases Nat.lt_or_ge rs.length (codec.whole ((codec.frames rs).length + k) (rs ++ [rec]))
    with hlt | hge
  · -- With the last record too, more bytes would have to be there.
    rw [take_of_length_le (by simpa using hlt), codec.frames_append, length_append,
      codec.frames_cons, codec.frames_nil, append_nil] at hcut
    omega
  · rw [le_antisymm hge hlow, take_left]

/-- The files after a kill that let `k` bytes of the frame of `rec` reach the active one. -/
def keptPart (p : Proc) (rec : Record) (k : ℕ) (s : Segment) : File :=
  if s.index = p.log.active.index then p.log.active.f.append ((codec.frame rec).take k) else s.f

/-- The other files are as they were. -/
theorem keptPart_of_retired (h : Shape id₀ p) (rec : Record) (k : ℕ) (hs : s ∈ p.retired) :
    keptPart p rec k s = s.f :=
  if_neg (h.index_lt (mem_append_right _ hs)).ne

theorem keptPart_active (p : Proc) (rec : Record) (k : ℕ) :
    keptPart p rec k (p.wrote rec).log.active =
      p.log.active.f.append ((codec.frame rec).take k) := if_pos rfl

theorem tailCut_keptPart (h : Shape id₀ p) (rec : Record) (k : ℕ)
    (hold : ∀ s ∈ p.retired, s.f.synced = s.f.data.length) :
    TailCut (p.wrote rec) (keptPart p rec k) (p.log.active.f.data.length + k) := by
  refine ⟨fun s hs => ?_, ?_, ?_⟩
  · rw [keptPart_of_retired h rec k hs]
    exact ⟨rfl, (hold s hs).le⟩
  · rw [keptPart_active]
    exact (take_length_add_append k).symm
  · rw [keptPart_active]
    refine h.active.2.2.synced_le.trans ?_
    simp [File.append]

theorem dir_killed (h : Shape id₀ p) (hh : p.holder = .write rec) :
    (p.killed k).dir = (p.wrote rec).crashDir (keptPart p rec k) := by
  have hmap : p.retired.map Segment.entry
      = p.retired.map fun s => (segmentName s.index, keptPart p rec k s) :=
    map_congr_left fun s hs => by rw [keptPart_of_retired h rec k hs, Segment.entry]
  rw [Proc.killed, hh, Proc.dir, Proc.crashDir, Proc.linked_eq, Proc.linked_eq,
    map_append, map_append, map_singleton, map_singleton, keptPart_active]
  exact congrArg (fun es => p.strays ++ (es ++ _)) hmap

theorem openLog_killed (hi : Inv id₀ p) (hd : Durable 0 p) (hn : Named p) (hk : Flushed p k)
    (mode : SyncMode) (segmentBytes : ℕ) :
    ∃ q, openLog mode segmentBytes (p.killed k).dir = .ok q ∧ FoundDurable p q ∧
      q.log.syncMode = mode := by
  have hclean : p.log.active.Clean := hi.shape.active.2.2
  have hold : ∀ s ∈ p.retired, s.f.synced = s.f.data.length := fun s hs =>
    hd.synced_older hi (mem_append_right _ hs)
  have hlinked : stream p.linked = stream p.retired ++ p.log.active.records := by
    rw [Proc.linked_eq, stream_append, stream_cons, stream_nil, append_nil]
  have hfits : (codec.frames p.log.active.records).length ≤ p.log.active.f.synced := by
    rw [← hclean.length_data]
    exact hk.synced
  by_cases hwrite : ∃ rec, p.holder = .write rec
  · obtain ⟨rec, hh⟩ := hwrite
    have hholder := hi.calls.holder
    rw [hh] at hholder
    obtain ⟨-, hpend⟩ := hholder
    have hshape := hi.shape.wrote hpend.fits hpend.msgID_eq hpend.room
    have hn' : Named (p.wrote rec) := ⟨hn.strays, hn.active⟩
    obtain ⟨q, hq, hr⟩ := openLog_of_tail hshape hn' (tailCut_keptPart hi.shape rec k hold) mode
      segmentBytes
    have htake : (p.wrote rec).log.active.records.take
        (codec.whole (p.log.active.f.data.length + k) (p.wrote rec).log.active.records)
          = p.log.active.records := by
      have hrecords : (p.wrote rec).log.active.records = p.log.active.records ++ [rec] :=
        hclean.records_withRecord hpend.fits
      rw [hrecords, hclean.length_data]
      exact take_whole_of_part (hk.partly rec hh)
    refine ⟨q, dir_killed hi.shape hh ▸ hq, foundDurable_of_reopened hr hn' (fun s hs => ?_) ?_ ?_,
      ?_⟩
    · rw [keptPart_of_retired hi.shape rec k hs]
      exact (hold s hs).ge
    · rw [htake, hlinked]
      rfl
    · rw [htake, keptPart_active]
      exact hfits
    · rw [hr.start_eq]
      rfl
  · have hkilled : p.killed k = p := by
      unfold Proc.killed
      split
      · next rec hh => exact absurd ⟨rec, hh⟩ hwrite
      · rfl
    obtain ⟨q, hq, hr⟩ := openLog_of_tail hi.shape hn hi.shape.tailCut mode segmentBytes
    have htake : p.log.active.records.take
        (codec.whole p.log.active.f.data.length p.log.active.records) = p.log.active.records := by
      rw [hclean.length_data, codec.whole_frames, take_length]
    refine ⟨q, ?_, foundDurable_of_reopened hr hn (fun s hs => (hold s hs).ge) ?_ ?_, ?_⟩
    · rw [hkilled]
      exact hq
    · rw [htake, hlinked]
    · rw [htake]
      exact hfits
    · rw [hr.start_eq]
      rfl

/-- The condition on a step: writes are whole, removals succeed, and segment names keep to six
digits. -/
def Orderly (p : Proc) (a : Action) : Prop := a.Intact ∧ a ≠ .remove false ∧ NameFits p a

instance (p : Proc) (a : Action) : Decidable (Orderly p a) :=
  inferInstanceAs (Decidable (_ ∧ _ ∧ _))

variable {as : List Action}

theorem durable_of_orderly_run (hi : Inv id₀ p) (hd : Durable 0 p) (hn : Named p)
    (hrun : Run step Orderly p as p') : Inv id₀ p' ∧ Durable 0 p' ∧ Named p' := by
  obtain ⟨hi', hd'⟩ := durable_of_run (fun _ _ ha => ha.1) hi hd hrun
  exact ⟨hi', hd', hrun.invariant hn fun _ _ _ ha h hstep =>
    named_of_step ha.2.1 ha.2.2 h (step_sound hstep)⟩

theorem extends_of_orderly_run (hi : Inv id₀ p) (hrun : Run step Orderly p as p') :
    Extends p p' := by
  have hboth : Inv id₀ p' ∧ Extends p p' :=
    hrun.invariant (I := fun q => Inv id₀ q ∧ Extends p q) ⟨hi, .of_eq rfl rfl rfl⟩
      fun _ _ _ ha h hstep => by
        have he := extends_of_step h.1 (step_sound hstep)
        exact ⟨inv_of_step ha.1 h.1 (step_sound hstep), h.2.appended.trans he.appended,
          h.2.committed.trans he.committed, h.2.written.trans he.written⟩
  exact hboth.2

theorem openLog_of_power_loss (hi : Inv id₀ p) (hd : Durable 0 p) (hn : Named p)
    (hcrash : Crash p d) (mode : SyncMode) (segmentBytes : ℕ) :
    ∃ r, openLog mode segmentBytes d = .ok r ∧
      ∀ w, Located p.appended w → w.2 ≤ p.log.committed → w.1 ∉ stream p.gone →
        w.1 ∈ r.appended := by
  obtain ⟨keep, k, rfl, hcut, hk⟩ := hcrash.tailCut hi hd
  obtain ⟨r, hr, hreopened⟩ := openLog_of_tail hi.shape hn hcut mode segmentBytes
  refine ⟨r, hr, fun w hloc hle hgone => ?_⟩
  have hlinked : w.1 ∈ stream p.linked := by
    obtain ⟨pre, post, hsplit, -⟩ := hloc
    have hmem : w.1 ∈ stream p.gone ++ stream p.linked := by
      rw [← hi.shape.appended_linked, hsplit]
      simp
    exact (mem_append.mp hmem).resolve_left hgone
  rw [hreopened.appended_eq]
  exact mem_of_located hi hd hk hloc hloc.pos hle hlinked

/-- Acknowledged data survives a kill and a power loss after it. Run a log opened on an empty
directory in a mode that syncs, kill it at a moment when the active file is synced (a write in
progress may have put a part of its frame into the file), and open it again, in a mode that syncs.
That succeeds, and in every state that the second run reaches every byte below `committed` has been
fsynced; whatever a power loss then leaves, the third `Open` succeeds and finds every record whose
append returned success in either run, unless its segment was removed. Along both runs writes are
whole, removals succeed and segment names have six digits. -/
theorem acked_survive_kill_and_power_loss {mode mode' : SyncMode} (hmode : mode ≠ .none)
    (hmode' : mode' ≠ .none) {segmentBytes segmentBytes' k : ℕ} {p₀ p : Proc} {as : List Action}
    (hopen : openLog mode segmentBytes [] = .ok p₀) (hrun : Run step Orderly p₀ as p)
    (hkill : Flushed p k) :
    ∃ q₀, openLog mode' segmentBytes' (p.killed k).dir = .ok q₀ ∧
      ∀ as' q d, Run step Orderly q₀ as' q → Crash q d →
        (∀ b < q.log.committed, ∃ s ∈ q.all,
          s.baseByteOffset ≤ b ∧ b < s.baseByteOffset + s.f.synced) ∧
        ∀ mode'' segmentBytes'', ∃ r, openLog mode'' segmentBytes'' d = .ok r ∧
          ∀ w ∈ p.acked ++ q.acked, w.1 ∉ stream p.gone → w.1 ∉ stream q.gone →
            w.1 ∈ r.appended := by
  have hi₀ := inv_of_openLog_nil hopen
  obtain rfl := eq_of_openLog_nil hopen
  obtain ⟨hi, hd, hn⟩ := durable_of_orderly_run hi₀ (durable_empty hmode segmentBytes)
    (named_empty mode segmentBytes) hrun
  obtain ⟨q₀, hq₀, hfound, hmodeq⟩ := openLog_killed hi hd hn hkill mode' segmentBytes'
  refine ⟨q₀, hq₀, fun as' q d hrun' hcrash => ?_⟩
  obtain ⟨hiq, hdq, hnq⟩ := durable_of_orderly_run hfound.inv
    (hfound.durable (hmodeq ▸ hmode')) hfound.named hrun'
  have he := extends_of_orderly_run hfound.inv hrun'
  refine ⟨fun b hb => hdq.exists_synced hiq (Nat.zero_le b) hb, fun mode'' segmentBytes'' => ?_⟩
  obtain ⟨r, hr, hkept⟩ := openLog_of_power_loss hiq hdq hnq hcrash mode'' segmentBytes''
  refine ⟨r, hr, fun w hw hgone hgone' => ?_⟩
  rcases mem_append.mp hw with hfirst | hsecond
  · -- The second `Open` has found the record and committed it.
    obtain ⟨pre, post, hsplit, -⟩ := (hi.calls.acked w hfirst).1
    have hmem : w.1 ∈ stream p.gone ++ stream p.linked := by
      rw [← hi.shape.appended_linked, hsplit]
      simp
    have hvisited : w.1 ∈ q₀.appended := by
      rw [hfound.appended_eq]
      exact (mem_append.mp hmem).resolve_left hgone
    obtain ⟨pre', post', hsplit'⟩ := append_of_mem hvisited
    have hloc : Located q₀.appended (w.1, (codec.frames (pre' ++ [w.1])).length) :=
      ⟨pre', post', hsplit', rfl⟩
    have hle : (codec.frames (pre' ++ [w.1])).length ≤ q₀.log.committed := by
      rw [hfound.committed, hfound.inv.shape.written_eq, hsplit']
      simp only [codec.frames_append, codec.frames_cons, codec.frames_nil, append_nil,
        length_append]
      omega
    exact hkept (w.1, (codec.frames (pre' ++ [w.1])).length) (hloc.extend he)
      (hle.trans he.committed) hgone'
  · obtain ⟨hloc, hle⟩ := hiq.calls.acked w hsecond
    exact hkept w hloc hle hgone'

/-- One append in per-message mode that has returned, and a second one in the middle of its
write. -/
def interruptedRun : List Action :=
  [.append ⟨0, 1, [], [7], 0, 0⟩, .write none, .fsync true, .append ⟨0, 2, [], [8], 0, 0⟩,
    .rotateCreate true]

/-- The theorem at a kill that leaves half a frame behind. -/
theorem acked_survive_kill_and_power_loss_interruptedRun :
    ∃ p₀ p, openLog .perMessage 1 [] = .ok p₀ ∧
      exec step Orderly p₀ interruptedRun = some p ∧
      (p.acked.length = 1 ∧ Flushed p 20) ∧
      ∃ q₀, openLog .batched 1 (p.killed 20).dir = .ok q₀ ∧
        ∀ as' q d, Run step Orderly q₀ as' q → Crash q d →
          (∀ b < q.log.committed, ∃ s ∈ q.all,
            s.baseByteOffset ≤ b ∧ b < s.baseByteOffset + s.f.synced) ∧
          ∀ mode'' segmentBytes'', ∃ r, openLog mode'' segmentBytes'' d = .ok r ∧
            ∀ w ∈ p.acked ++ q.acked, w.1 ∉ stream p.gone → w.1 ∉ stream q.gone →
              w.1 ∈ r.appended := by
  have hopen := openLog_nil .perMessage 1
  obtain ⟨p, hp, hacked, hsynced, hholder⟩ :
      ∃ p, exec step Orderly (.empty .perMessage 1) interruptedRun = some p ∧
        p.acked.length = 1 ∧ p.log.active.f.data.length ≤ p.log.active.f.synced ∧
        p.holder = .write ⟨1, 2, [], [8], 0, 0⟩ := by
    decide +kernel
  have hkill : Flushed p 20 := by
    refine ⟨hsynced, fun rec hrec => ?_⟩
    obtain rfl : (⟨1, 2, [], [8], 0, 0⟩ : Record) = rec :=
      Holder.write.inj (hholder.symm.trans hrec)
    decide +kernel
  exact ⟨_, p, hopen, hp, ⟨hacked, hkill⟩, acked_survive_kill_and_power_loss (by decide)
    (by decide) hopen (run_of_exec hp) hkill⟩

/-- One append in per-message mode, killed between its write and its fsync. -/
def killedRun : List Action := [.append ⟨0, 1, [], [7], 0, 0⟩, .write none]

def rotatingRun : List Action :=
  [.append ⟨0, 2, [], [8], 0, 0⟩, .rotateCreate true, .write none, .fsync true]

/-- A kill between a write and its fsync: the next `Open` takes the record for committed, although
nothing of it is durable, and the next rotation does not sync it. An append then returns success,
and after a power loss that keeps one byte of the first segment, `Open` fails. -/
theorem unsynced_recovered_segment :
    ∃ p₀ p q₀ q d, openLog .perMessage 1 [] = .ok p₀ ∧
      exec step (fun _ a => a.Succeeds) p₀ killedRun = some p ∧
      openLog .perMessage 1 (p.killed 0).dir = .ok q₀ ∧
      (0 < q₀.log.committed ∧ ∀ s ∈ q₀.all, s.f.synced = 0) ∧
      exec step (fun _ a => a.Succeeds) q₀ rotatingRun = some q ∧ q.acked.length = 1 ∧
      Crash q d ∧ openLog .perMessage 1 d = .error ⟨0, 0, .shortRead⟩ := by
  have hopen := openLog_nil .perMessage 1
  -- The power loss keeps one byte of the first segment and all of the second.
  let keep : Segment → File := fun s => ⟨s.f.data.take (if s.index = 0 then 1 else 100), s.f.synced⟩
  obtain ⟨p, hp, q₀, hq₀, hvisible, q, hq, hacked, hfiles, herror⟩ :
      ∃ p, exec step (fun _ a => a.Succeeds) (.empty .perMessage 1) killedRun = some p ∧
        ∃ q₀, openLog .perMessage 1 (p.killed 0).dir = .ok q₀ ∧
          (0 < q₀.log.committed ∧ ∀ s ∈ q₀.all, s.f.synced = 0) ∧
          ∃ q, exec step (fun _ a => a.Succeeds) q₀ rotatingRun = some q ∧ q.acked.length = 1 ∧
            (∀ s ∈ q.linked, s.f.synced ≤ (keep s).data.length) ∧
            openLog .perMessage 1 (q.crashDir keep) = .error ⟨0, 0, .shortRead⟩ := by
    decide +kernel
  refine ⟨_, p, q₀, q, _, hopen, hp, hq₀, hvisible, hq, hacked,
    ⟨keep, fun s hs => ?_, rfl⟩, herror⟩
  have hlen := hfiles s hs
  refine ⟨(keep s).data.length, hlen, ?_, ?_, le_rfl, hlen⟩
  · exact length_take_le' _ _
  · show s.f.data.take _ = s.f.data.take (s.f.data.take _).length
    rw [length_take, take_eq_take_min]

end ToyMQ.Wal
