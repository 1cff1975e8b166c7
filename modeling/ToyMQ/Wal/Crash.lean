import ToyMQ.Wal.Durability

/-!
# Crash and recovery

A crash keeps the durable bytes of every file that has a name, and an arbitrary part of what was
written after them. `openLog_of_tail` is the recovery result behind everything that follows: when
the sealed files are whole and the active file is cut at any byte, `Open` finds exactly the
records before the cut, numbered as they were, and the process it starts meets the invariant.
A second `Open` finds the same (`Reopened.openLog_dir`).

`crash_recovery_exact` puts this together for a log that started on an empty directory. It asks
that no segment gets an index of seven digits, and `segment_million_lost` shows why: such a file is
written and synced like any other, and discovery passes over it.
-/

namespace ToyMQ.Wal

open Lib List

/-! ## What a crash leaves -/

/-- What a crash leaves of a file: its durable bytes, and perhaps more of what was written. What
is left is at least as durable as it was. -/
def File.Survives (f f' : File) : Prop :=
  ∃ k, f.synced ≤ k ∧ k ≤ f.data.length ∧ f'.data = f.data.take k ∧
    f.synced ≤ f'.synced ∧ f'.synced ≤ k

/-- The directory of a process when each file with a name is left as `keep` says. -/
def Proc.crashDir (p : Proc) (keep : Segment → File) : Dir :=
  p.strays ++ p.linked.map fun s => (segmentName s.index, keep s)

/-- A directory that a crash of the process can leave. -/
def Crash (p : Proc) (d : Dir) : Prop :=
  ∃ keep : Segment → File, (∀ s ∈ p.linked, s.f.Survives (keep s)) ∧ d = p.crashDir keep

/-! ## Opening what is left -/

section Open

variable {p : Proc} {keep : Segment → File}

/-- The segments before the active one whose files still have a name. -/
def Proc.retired (p : Proc) : List Segment := p.toDrop ++ p.log.sealed

theorem Proc.linked_eq (p : Proc) : p.linked = p.retired ++ [p.log.active] := by
  rw [Proc.linked, Log.segments, Proc.retired, append_assoc]

theorem Proc.older_eq (p : Proc) : p.older = p.gone ++ p.retired := rfl

theorem discoverSegments_crashDir (hstrays : ∀ e ∈ p.strays, segmentIndex e.1 = none)
    (hasc : Ascending p.linked) (hname : ∀ s ∈ p.linked, s.index < nameLimit) :
    discoverSegments (p.crashDir keep)
      = (p.retired.map fun s => Segment.found s.index (keep s))
        ++ [Segment.found p.log.active.index (keep p.log.active)] := by
  let kept := p.linked.map fun s => { s with f := keep s }
  have hasc' : Ascending kept := pairwise_map.mpr hasc
  have hentry : p.crashDir keep = p.strays ++ kept.map Segment.entry := by
    simp [Proc.crashDir, kept, Segment.entry, Function.comp_def]
  have hall : kept.filter (fun s => s.index < nameLimit) = kept := by
    refine filter_eq_self.mpr fun s hs => ?_
    obtain ⟨s', hs', rfl⟩ := List.mem_map.mp hs
    exact decide_eq_true (hname s' hs')
  rw [hentry, discoverSegments_entries hstrays hasc', hall]
  simp [kept, Proc.linked_eq, Function.comp_def]

/-- Entries that discovery passes over stay where they are. -/
theorem filter_crashDir (hstrays : ∀ e ∈ p.strays, segmentIndex e.1 = none)
    (hname : ∀ s ∈ p.linked, s.index < nameLimit) :
    (p.crashDir keep).filter (fun e => (segmentIndex e.1).isNone) = p.strays := by
  have hkeep : p.strays.filter (fun e => (segmentIndex e.1).isNone) = p.strays :=
    filter_eq_self.mpr fun e he => by rw [hstrays e he, Option.isNone_none]
  have hdrop : (p.linked.map fun s => (segmentName s.index, keep s)).filter
      (fun e => (segmentIndex e.1).isNone) = [] := by
    refine filter_eq_nil_iff.mpr fun e he => ?_
    obtain ⟨s, hs, rfl⟩ := List.mem_map.mp he
    rw [segmentIndex_segmentName (hname s hs)]
    simp
  rw [Proc.crashDir, filter_append, hkeep, hdrop, append_nil]

/-- The segments of a process that can be reopened from what a crash leaves: no entry of the
directory is mistaken for a segment, and every segment has a name of six digits. -/
structure Named (p : Proc) : Prop where
  /-- The other entries are no segment files. -/
  strays : ∀ e ∈ p.strays, segmentIndex e.1 = none
  /-- The active segment, and with it every older one, has a name of six digits. -/
  active : p.log.active.index < nameLimit

theorem named_empty (mode : SyncMode) (segmentBytes : ℕ) : Named (.empty mode segmentBytes) :=
  ⟨fun _ he => absurd he not_mem_nil, by show 0 < nameLimit; decide⟩

variable {id₀ : ℕ}

theorem Named.linked (hn : Named p) (h : Shape id₀ p) : ∀ s ∈ p.linked, s.index < nameLimit := by
  intro s hs
  rw [Proc.linked_eq] at hs
  rcases mem_append.mp hs with hretired | hactive
  · exact (h.index_lt (mem_append_right _ hretired)).trans hn.active
  · rw [mem_singleton.mp hactive]
    exact hn.active

theorem Shape.ascending_linked (h : Shape id₀ p) : Ascending p.linked := by
  have hasc := h.ascending
  rw [Proc.all_eq_gone_append] at hasc
  exact (pairwise_append.mp hasc).2.1

theorem Shape.appended_linked (h : Shape id₀ p) :
    p.appended = stream p.gone ++ stream p.linked := by
  rw [h.appended_eq, Proc.all_eq_gone_append, stream_append]

/-- What a process `q` opened over the files that `keep` leaves of `p` has found, when the active
file is cut after `k` bytes. -/
structure Reopened (mode : SyncMode) (segmentBytes : ℕ) (p : Proc) (keep : Segment → File) (k : ℕ)
    (q : Proc) : Prop where
  /-- It has just started, over the segments it found. -/
  start_eq : q = Proc.start mode segmentBytes p.strays q.log.sealed q.log.active
    ⟨(codec.frames q.appended).length, q.appended⟩
  /-- It has visited the records before the cut, in order. -/
  appended_eq : q.appended = stream p.retired
    ++ p.log.active.records.take (codec.whole k p.log.active.records)
  inv : Inv (firstID q.appended) q
  sealed_eq : q.log.sealed.map (fun s => (s.index, s.f))
    = p.retired.map fun s => (s.index, keep s)
  sealed_stream : stream q.log.sealed = stream p.retired
  active_index : q.log.active.index = p.log.active.index
  /-- The torn tail of the active file was cut off. -/
  active_file : q.log.active.f = (keep p.log.active).truncate (codec.frames
    (p.log.active.records.take (codec.whole k p.log.active.records))).length
  /-- The active segment holds the records before the cut. -/
  active_records : q.log.active.records
    = p.log.active.records.take (codec.whole k p.log.active.records)

/-- The files that a crash leaves when only the active one is cut, after `k` bytes. -/
structure TailCut (p : Proc) (keep : Segment → File) (k : ℕ) : Prop where
  whole : ∀ s ∈ p.retired, (keep s).data = s.f.data ∧ (keep s).synced ≤ (keep s).data.length
  cut : (keep p.log.active).data = p.log.active.f.data.take k
  synced_le : (keep p.log.active).synced ≤ (keep p.log.active).data.length

variable {k segmentBytes : ℕ} {s : Segment} {mode : SyncMode} {q : Proc}

theorem TailCut.data_eq (hc : TailCut p keep k) (h : Shape id₀ p) :
    (keep p.log.active).data = (codec.frames p.log.active.records).take k := by
  rw [hc.cut]
  conv_lhs => rw [h.active.2.2.data_eq]

theorem TailCut.records_found (hc : TailCut p keep k) (hs : s ∈ p.retired) :
    (Segment.found s.index (keep s)).records = s.records := by
  rw [Segment.records, Segment.records, Segment.found, (hc.whole s hs).1]

/-- A sealed file that was kept is whole. -/
theorem TailCut.whole_found (hc : TailCut p keep k) (h : Shape id₀ p) (hs : s ∈ p.retired) :
    (Segment.found s.index (keep s)).Whole := by
  have hs' : s ∈ p.older := mem_append_right _ hs
  have hclean := h.layout.clean s (mem_append_left _ hs')
  have hrec := hc.records_found hs
  refine ⟨?_, ?_, ?_, (hc.whole s hs).2⟩
  · rw [hrec, ← hclean.data_eq]
    exact (hc.whole s hs).1
  · rw [hrec]
    exact hclean.fits
  · rw [hrec]
    exact h.nonempty s hs'

theorem Shape.tailCut (h : Shape id₀ p) : TailCut p Segment.f p.log.active.f.data.length := by
  refine ⟨fun s hs => ⟨rfl, ?_⟩, take_length.symm, h.active.2.2.synced_le⟩
  exact (h.layout.clean s (mem_append_left _ (mem_append_right _ hs))).synced_le

theorem Shape.numbered_slice {visited rest : List Record} (h : Shape id₀ p)
    (hsplit : p.appended = stream p.gone ++ (visited ++ rest)) :
    Numbered (id₀ + (stream p.gone).length) visited ∧
      id₀ + (stream p.gone).length + visited.length < 2 ^ 64 := by
  have hnumbered := h.numbered
  have hroom := h.room
  rw [hsplit] at hnumbered
  rw [h.next_eq, hsplit, length_append, length_append] at hroom
  exact ⟨(numbered_append.mp (numbered_append.mp hnumbered).2).1, by omega⟩

/-- Opening a directory in which the sealed files are whole and the active one is cut: the records
before the cut are found, and the new process meets the invariant. -/
theorem openLog_of_tail (h : Shape id₀ p) (hn : Named p) (hc : TailCut p keep k) (mode : SyncMode)
    (segmentBytes : ℕ) :
    ∃ q, openLog mode segmentBytes (p.crashDir keep) = .ok q ∧
      Reopened mode segmentBytes p keep k q := by
  obtain ⟨-, -, hclean⟩ := h.active
  have hstream : stream (p.retired.map fun s => Segment.found s.index (keep s))
      = stream p.retired := by
    rw [stream, flatMap_map]
    exact flatMap_congr fun s hs => hc.records_found hs
  have hwhole : ∀ t ∈ p.retired.map (fun s => Segment.found s.index (keep s)), t.Whole := by
    intro t ht
    obtain ⟨s, hs, rfl⟩ := List.mem_map.mp ht
    exact hc.whole_found h hs
  obtain ⟨visited, hvisited⟩ : ∃ visited, visited = stream p.retired
      ++ p.log.active.records.take (codec.whole k p.log.active.records) := ⟨_, rfl⟩
  have hsplit : p.appended = stream p.gone ++ (visited
      ++ p.log.active.records.drop (codec.whole k p.log.active.records)) := by
    rw [h.appended_linked, hvisited, Proc.linked_eq, stream_append, stream_cons, stream_nil,
      append_nil, append_assoc, take_append_drop]
  obtain ⟨hnum, hroom⟩ := h.numbered_slice hsplit
  obtain ⟨sealed, active, hopen, hlay, hmap, hstream', hidx, hfile, hrec⟩ :=
    openLog_spec mode segmentBytes
      (discoverSegments_crashDir hn.strays h.ascending_linked (hn.linked h)) hwhole
      (hc.data_eq h) hclean.fits hc.synced_le (hstream.symm ▸ hvisited) hnum hroom
  rw [filter_crashDir hn.strays (hn.linked h)] at hopen
  rw [List.map_map] at hmap
  refine ⟨_, hopen, rfl, hvisited, inv_start visited _ hlay ?_ ?_ hnum hroom ?_ ?_, hmap,
    hstream'.trans hstream, hidx, hfile, hrec⟩
  · have hindex : (sealed ++ [active]).map Segment.index = p.linked.map Segment.index := by
      have hsealed : sealed.map Segment.index = p.retired.map Segment.index := by
        simpa [Function.comp_def, Segment.found] using congrArg (List.map Prod.fst) hmap
      rw [Proc.linked_eq, map_append, map_append, hsealed, map_singleton,
        map_singleton, hidx]
      rfl
    have hasc := pairwise_map.mpr h.ascending_linked
    rw [← hindex] at hasc
    exact pairwise_map.mp hasc
  · rw [hvisited, stream_append, stream_cons, stream_nil, append_nil, hstream', hstream,
      hrec]
  · rw [hidx]
    exact h.fresh
  · intro s hs
    have hs' : (s.index, s.f) ∈ sealed.map fun s => (s.index, s.f) := List.mem_map_of_mem hs
    rw [hmap] at hs'
    obtain ⟨s₀, hs₀, heq⟩ := List.mem_map.mp hs'
    have hf : s.f = keep s₀ := (congrArg Prod.snd heq).symm
    rw [Segment.records, hf, (hc.whole s₀ hs₀).1]
    exact h.nonempty s₀ (mem_append_right _ hs₀)

theorem Reopened.named (hr : Reopened mode segmentBytes p keep k q) (hn : Named p) : Named q := by
  refine ⟨?_, hr.active_index.trans_lt hn.active⟩
  rw [hr.start_eq]
  exact hn.strays

/-- Opening again, with nothing appended in between, gives the same process: the same records are
visited and nothing is truncated. -/
theorem Reopened.openLog_dir (hr : Reopened mode segmentBytes p keep k q) (h : Shape id₀ p)
    (hn : Named p) (hc : TailCut p keep k)
    (hopen : openLog mode segmentBytes (p.crashDir keep) = .ok q) :
    openLog mode segmentBytes q.dir = .ok q := by
  have hq := hr.named hn
  have hretired : q.retired = q.log.sealed := by
    rw [Proc.retired, hr.start_eq]
    rfl
  have hsealed : (q.log.sealed.map fun s => Segment.found s.index s.f)
      = p.retired.map fun s => Segment.found s.index (keep s) := by
    simpa [Function.comp_def] using
      congrArg (List.map fun e : ℕ × File => Segment.found e.1 e.2) hr.sealed_eq
  -- The directory differs from the one that was opened in the cut file only.
  have hfound : discoverSegments (q.crashDir Segment.f)
      = (q.retired.map fun s => Segment.found s.index s.f)
        ++ [Segment.found q.log.active.index q.log.active.f] :=
    discoverSegments_crashDir hq.strays hr.inv.shape.ascending_linked (hq.linked hr.inv.shape)
  rw [hretired, hsealed, hr.active_index, hr.active_file] at hfound
  rw [← hopen]
  refine openLog_truncated mode segmentBytes
    (discoverSegments_crashDir hn.strays h.ascending_linked (hn.linked h)) hfound ?_
    (hc.data_eq h) h.active.2.2.fits hc.synced_le
  rw [filter_crashDir hn.strays (hn.linked h)]
  refine (filter_crashDir hq.strays (hq.linked hr.inv.shape)).trans ?_
  rw [hr.start_eq]
  rfl

end Open

/-! ## Acknowledged records are found -/

/-- The frame of a record ends above offset 0. -/
theorem Located.pos {rs : List Record} {w : Record × ℕ} (h : Located rs w) : 0 < w.2 := by
  obtain ⟨pre, -, -, hstop⟩ := h
  have hlen := codec.length_le_length_frames (pre ++ [w.1])
  rw [hstop]
  simp only [length_append, length_singleton] at hlen
  omega

variable {id₀ : ℕ} {p : Proc}

/-- A record that became visible since the offset `w`, and whose file still has a name, lies before
any cut that keeps the durable bytes of the active file. -/
theorem mem_of_located {w k : ℕ} {a : Record × ℕ} (hi : Inv id₀ p) (hd : Durable w p)
    (hk : p.log.active.f.synced ≤ k) (hloc : Located p.appended a) (hw : w < a.2)
    (hle : a.2 ≤ p.log.committed) (hmem : a.1 ∈ stream p.linked) :
    a.1 ∈ stream p.retired
      ++ p.log.active.records.take (codec.whole k p.log.active.records) := by
  obtain ⟨rec, stop⟩ := a
  obtain ⟨pre, post, hsplit, hstop⟩ := hloc
  dsimp only at hsplit hstop hw hle hmem ⊢
  subst hstop
  rw [Proc.linked_eq, stream_append, stream_cons, stream_nil, append_nil] at hmem
  rcases mem_append.mp hmem with hretired | hactive
  · exact mem_append_left _ hretired
  · -- The record stands in the active file, where its frame ends within the durable part.
    obtain ⟨front, back, hrecords⟩ := append_of_mem hactive
    have hsplit' : p.appended = (stream p.older ++ front) ++ rec :: back := by
      rw [hi.shape.appended_split, hrecords, append_assoc]
    have hpre : pre = stream p.older ++ front :=
      hi.shape.numbered.split_unique hsplit hsplit'
    have hbase := hi.shape.active.2.1
    have hcov := hd.committed p.log.active (mem_append_right _ (mem_singleton_self _))
    have hend : (codec.frames (pre ++ [rec])).length ≤ p.log.active.endOffset := by
      rw [← hi.shape.written_eq_endOffset]
      exact hle.trans hi.shape.committed_le
    have hsynced := (le_min hle hend).trans (hcov (hw.trans_le (le_min hle hend)))
    have hfront : (codec.frames (front ++ [rec])).length ≤ k := by
      rw [hpre, append_assoc, codec.frames_append, length_append, ← hbase] at hsynced
      omega
    have htake : p.log.active.records.take (front.length + 1) = front ++ [rec] := by
      rw [hrecords, take_append]
      simp
    have hcount : front.length + 1 ≤ codec.whole k p.log.active.records := by
      apply codec.le_whole_of_length_le
      · simp [hrecords]
      · rwa [htake]
    refine mem_append_right _ (take_subset_take_left _ hcount ?_)
    rw [htake]
    simp

/-! ## A log from an empty directory to its crash -/

/-- No I/O operation of the step fails. -/
def Action.Succeeds : Action → Prop
  | .rotateSync ok => ok = true
  | .rotateCreate ok => ok = true
  | .write cut => cut = none
  | .fsync ok => ok = true
  | .flushSync ok => ok = true
  | .remove ok => ok = true
  | _ => True

instance : DecidablePred Action.Succeeds
  | .rotateSync ok | .rotateCreate ok | .fsync ok | .flushSync ok | .remove ok =>
    inferInstanceAs (Decidable (ok = true))
  | .write cut => inferInstanceAs (Decidable (cut = none))
  | .append _ | .resume _ | .flushBegin | .flushEnd | .drop _ => isTrue trivial

variable {a : Action}

theorem Action.Succeeds.ne_remove (h : a.Succeeds) : a ≠ .remove false := by
  rintro rfl
  cases h

theorem Action.Succeeds.intact (h : a.Succeeds) : a.Intact := by
  rintro cut rfl
  exact h

/-- A rotation, if the step is one, creates a segment whose name has six digits. -/
def NameFits (p : Proc) (a : Action) : Prop :=
  a = .rotateCreate true → p.log.active.index + 1 < nameLimit

instance (p : Proc) (a : Action) : Decidable (NameFits p a) :=
  inferInstanceAs (Decidable (_ → _))

theorem named_of_step {p' : Proc} (ha : a ≠ .remove false) (hf : NameFits p a) (hn : Named p)
    (hstep : Step p a p') : Named p' := by
  cases hstep with
  | rotateSync | fsync | flushSync => exact ⟨hn.strays, (index_syncAt _ _).trans_lt hn.active⟩
  | rotateCreate => exact ⟨hn.strays, hf rfl⟩
  | @write rec =>
    rcases fence_cases (p.wrote rec) rec with ⟨-, heq⟩ | heq | heq | ⟨-, heq⟩ | heq <;> rw [heq] <;>
      exact ⟨hn.strays, hn.active⟩
  | @remove ok =>
    obtain rfl : ok = true := Bool.eq_true_of_not_eq_false fun hok => ha (hok ▸ rfl)
    exact ⟨hn.strays, hn.active⟩
  | _ => exact ⟨hn.strays, hn.active⟩

theorem Durable.synced_older (hd : Durable 0 p) (hi : Inv id₀ p) {s : Segment} (hs : s ∈ p.older) :
    s.f.synced = s.f.data.length := by
  have hclean := hi.shape.layout.clean s (mem_append_left _ hs)
  have hlen : 0 < s.f.data.length := by
    have hle := codec.length_le_length_frames s.records
    have hpos := length_pos_iff.mpr (hi.shape.nonempty s hs)
    rw [hclean.length_data]
    omega
  have hcov := hd.older hi hs s.endOffset
  rw [Covered, min_self, Segment.endOffset] at hcov
  have hsynced := hclean.synced_le
  omega

theorem Crash.tailCut {d : Dir} (hcrash : Crash p d) (hi : Inv id₀ p) (hd : Durable 0 p) :
    ∃ keep k, d = p.crashDir keep ∧ TailCut p keep k ∧ p.log.active.f.synced ≤ k := by
  obtain ⟨keep, hkeep, rfl⟩ := hcrash
  have hactive : p.log.active ∈ p.linked := by
    rw [Proc.linked_eq]
    exact mem_append_right _ (mem_singleton_self _)
  obtain ⟨k, hk, hklen, hcut, -, hsynced⟩ := hkeep p.log.active hactive
  refine ⟨keep, k, rfl, ⟨fun s hs => ?_, hcut, ?_⟩, hk⟩
  · have hs' : s ∈ p.linked := by
      rw [Proc.linked_eq]
      exact mem_append_left _ hs
    obtain ⟨j, hj, hjlen, hdata, -, hjsynced⟩ := hkeep s hs'
    rw [hd.synced_older hi (mem_append_right _ hs)] at hj
    rw [hdata, take_of_length_le hj]
    exact ⟨rfl, hjsynced.trans hjlen⟩
  · rw [hcut, length_take, min_eq_left hklen]
    exact hsynced

/-- Crash recovery is exact. Take any run, without I/O errors, of a log opened on an empty
directory in a mode that syncs, in which no rotation creates a segment with an index of seven
digits, and any crash at its end. Then `Open` succeeds; what was appended is what the removed
segments held followed by what the present ones hold; the visitor sees an initial part of the
latter, which contains every record of a present segment whose `Append` had returned success; and
opening once more visits the same records and truncates nothing. -/
theorem crash_recovery_exact {mode : SyncMode} (hmode : mode ≠ .none) {segmentBytes : ℕ}
    {p₀ p : Proc} {as : List Action} {d : Dir} (hopen : openLog mode segmentBytes [] = .ok p₀)
    (hrun : Run step (fun p a => a.Succeeds ∧ NameFits p a) p₀ as p) (hcrash : Crash p d) :
    ∃ q, openLog mode segmentBytes d = .ok q ∧
      p.appended = stream p.gone ++ stream p.linked ∧
      q.appended <+: stream p.linked ∧
      (∀ w ∈ p.acked, w.1 ∈ stream p.linked → w.1 ∈ q.appended) ∧
      openLog mode segmentBytes q.dir = .ok q := by
  have hi₀ := inv_of_openLog_nil hopen
  obtain rfl := eq_of_openLog_nil hopen
  obtain ⟨hi, hd⟩ := durable_of_run (fun _ _ h => h.1.intact) hi₀
    (durable_empty hmode segmentBytes) hrun
  have hn : Named p := hrun.invariant (named_empty mode segmentBytes) fun _ _ _ ha hn hstep =>
    named_of_step ha.1.ne_remove ha.2 hn (step_sound hstep)
  obtain ⟨keep, k, rfl, hc, hk⟩ := hcrash.tailCut hi hd
  obtain ⟨q, hq, hr⟩ := openLog_of_tail hi.shape hn hc mode segmentBytes
  refine ⟨q, hq, hi.shape.appended_linked, ?_, fun w hw hmem => ?_,
    hr.openLog_dir hi.shape hn hc hq⟩
  · rw [hr.appended_eq, Proc.linked_eq, stream_append, stream_cons, stream_nil, append_nil]
    exact (prefix_append_right_inj _).mpr (List.take_prefix _ _)
  · obtain ⟨hloc, hle⟩ := hi.calls.acked w hw
    rw [hr.appended_eq]
    exact mem_of_located hi hd hk hloc hloc.pos hle hmem

/-- A crash may keep every byte that was written. -/
theorem crash_dir (h : Shape id₀ p) : Crash p p.dir := by
  refine ⟨Segment.f, fun s hs => ?_, rfl⟩
  have hmem : s ∈ p.all := by
    rw [Proc.all_eq_gone_append]
    exact mem_append_right _ hs
  have hsynced := (h.layout.clean s hmem).synced_le
  exact ⟨s.f.data.length, hsynced, le_rfl, take_length.symm, le_rfl, hsynced⟩

/-- Two appends under group commit with a segment cap of one byte; the first has returned, the
second has rotated and written its record. -/
def unsyncedRun : List Action :=
  [.append ⟨0, 1, [], [7], 0, 0⟩, .write none, .flushBegin, .flushSync true, .flushEnd, .resume 0,
    .append ⟨0, 2, [], [8], 0, 0⟩, .rotateCreate true, .write none]

/-- The theorem at a crash after a rotation, with one append acknowledged. -/
theorem crash_recovery_exact_unsyncedRun :
    ∃ p₀ p q, openLog .batched 1 [] = .ok p₀ ∧
      exec step (fun p a => a.Succeeds ∧ NameFits p a) p₀ unsyncedRun = some p ∧
      p.acked.length = 1 ∧ openLog .batched 1 p.dir = .ok q ∧
      p.appended = stream p.gone ++ stream p.linked ∧
      q.appended <+: stream p.linked ∧
      (∀ w ∈ p.acked, w.1 ∈ stream p.linked → w.1 ∈ q.appended) ∧
      openLog .batched 1 q.dir = .ok q := by
  have hopen := openLog_nil .batched 1
  obtain ⟨p, hp, hacked⟩ : ∃ p, exec step (fun p a => a.Succeeds ∧ NameFits p a)
      (.empty .batched 1) unsyncedRun = some p ∧ p.acked.length = 1 := by
    decide +kernel
  have hrun := run_of_exec hp
  have hi := inv_of_run (fun _ _ h => h.1.intact) (inv_of_openLog_nil hopen) hrun
  obtain ⟨q, hq⟩ := crash_recovery_exact (by decide) hopen hrun (crash_dir hi.shape)
  exact ⟨_, p, q, hopen, hp, hacked, hq⟩

/-! ## A segment with an index of seven digits -/

def emptyMessage : Record := ⟨0, 0, [], [], 0, 0⟩

/-- Three appends with a segment cap of one byte, each in a segment of its own. -/
def threeSegments : List Action :=
  [.append emptyMessage, .write none, .fsync true, .append emptyMessage, .rotateCreate true,
    .write none, .fsync true, .append emptyMessage, .rotateCreate true, .write none, .fsync true]

/-- A message without key and payload, on a standalone broker. -/
structure Bare (msg : Record) : Prop where
  dedupeKey : msg.dedupeKey = []
  payload : msg.payload = []
  raftIndex : msg.raftIndex = 0

theorem bare_emptyMessage : Bare emptyMessage := ⟨rfl, rfl, rfl⟩

variable {msg : Record}

theorem length_frame_bare (l : Log) (h : Bare msg) : (codec.frame (l.stamp msg)).length = 38 := by
  show (frame checksumIEEE (l.stamp msg)).length = 38
  rw [length_frame, length_inner, length_trailer]
  simp [Log.stamp, h.dedupeKey, h.payload, h.raftIndex]

theorem fits_bare (l : Log) (h : Bare msg) : Fits (l.stamp msg) := by
  refine ⟨?_, ?_⟩
  · simp [Log.stamp, h.dedupeKey]
  · rw [length_inner, length_trailer]
    simp only [Log.stamp, h.dedupeKey, h.payload, h.raftIndex]
    decide

/-- In per-message mode with a segment cap of one byte, all that was written is committed and the
active segment is not empty: the next append rotates. -/
structure Full (p : Proc) : Prop where
  holder : p.holder = .free
  mode : p.log.syncMode = .perMessage
  segmentBytes : p.log.segmentBytes = 1
  base_lt : p.log.active.baseByteOffset < p.log.written
  committed : p.log.committed = p.log.written
  room : p.log.nextMsgID + 1 < 2 ^ 64 ∧ p.log.written + 38 < 2 ^ 64
  toDrop : p.toDrop = []

def rollingAppend (msg : Record) : List Action :=
  [.append msg, .rotateCreate true, .write none, .fsync true]

/-- The log after an append that rotates. -/
def Proc.rolled (p : Proc) (rec : Record) : Proc :=
  let p' := p.rotated.wrote rec
  ((p'.syncSegment p'.log.syncFn).commit p'.log.written).succeed rec p'.log.written

/-- An append over a full segment rotates. -/
theorem Full.roll (h : Full p) (hmsg : Bare msg) :
    Run step (fun _ a => a.Succeeds) p (rollingAppend msg) (p.rolled (p.log.stamp msg)) := by
  have hlen := length_frame_bare p.log hmsg
  have happend : step p (.append msg)
      = some { p with holder := .rotateCreate (p.log.stamp msg) } := by
    have hroom : p.log.HasRoom (p.log.stamp msg) := by
      rw [Log.HasRoom, hlen]
      exact h.room
    have hrot : p.log.shouldRotate (p.log.stamp msg) = true := by
      have hlt := h.base_lt
      simp only [Log.shouldRotate, hlen, h.segmentBytes, Bool.and_eq_true, decide_eq_true_eq]
      omega
    have hcommitted : ¬ p.log.committed < p.log.written := h.committed.not_lt
    simp [step, Proc.append, h.holder, hroom, fits_bare p.log hmsg, hrot, hcommitted]
  -- The stamped record is kept as a variable, for the frame would be computed otherwise.
  obtain ⟨rec, hrec⟩ : ∃ rec, rec = p.log.stamp msg := ⟨_, rfl⟩
  rw [← hrec] at happend ⊢
  have hwrite : step { p.rotated with holder := .write rec } (.write none)
      = some { p.rotated.wrote rec with
          holder := .fsync rec (p.rotated.wrote rec).log.written } := by
    have hmode : (p.rotated.wrote rec).log.syncMode = .perMessage := h.mode
    show some (Proc.fence { p.rotated.wrote rec with holder := .write rec } rec) = _
    simp only [Proc.fence, hmode]
  exact .cons trivial happend (.cons rfl rfl (.cons rfl hwrite (.cons rfl rfl (.nil _))))

/-- The log after `n + 1` appends of an empty message in per-message mode with a segment cap of one
byte: each record has a segment of its own. -/
structure Filled (n : ℕ) (p : Proc) : Prop where
  holder : p.holder = .free
  mode : p.log.syncMode = .perMessage
  segmentBytes : p.log.segmentBytes = 1
  index : p.log.active.index = n
  baseMsgID : p.log.active.baseMsgID = n
  baseByteOffset : p.log.active.baseByteOffset = 38 * n
  nextMsgID : p.log.nextMsgID = n + 1
  written : p.log.written = 38 * (n + 1)
  committed : p.log.committed = 38 * (n + 1)
  strays : p.strays = []
  toDrop : p.toDrop = []
  gone : p.gone = []
  acked : ∃ w ∈ p.acked, w.1.msgID.toNat = n

variable {n : ℕ}

theorem Filled.full (h : Filled n p) (hn : n ≤ nameLimit) : Full p := by
  have hmax : nameLimit = 1000000 := rfl
  refine ⟨h.holder, h.mode, h.segmentBytes, ?_, h.committed.trans h.written.symm, ?_, h.toDrop⟩
  · rw [h.baseByteOffset, h.written]
    omega
  · rw [h.nextMsgID, h.written]
    omega

/-- One more append goes to a segment of its own. -/
theorem Filled.next (h : Filled n p) (hn : n ≤ nameLimit) (hmsg : Bare msg) :
    Filled (n + 1) (p.rolled (p.log.stamp msg)) := by
  have hlen := length_frame_bare p.log hmsg
  have hid : (p.log.stamp msg).msgID.toNat = n + 1 := by
    have hmax : nameLimit = 1000000 := rfl
    show (UInt64.ofNat p.log.nextMsgID).toNat = n + 1
    rw [h.nextMsgID, UInt64.toNat_ofNat', Nat.mod_eq_of_lt (by omega)]
  obtain ⟨rec, hrec⟩ : ∃ rec, rec = p.log.stamp msg := ⟨_, rfl⟩
  rw [← hrec] at hlen hid ⊢
  refine
    { holder := rfl
      mode := h.mode
      segmentBytes := h.segmentBytes
      index := (index_syncAt _ _).trans (congrArg (· + 1) h.index)
      baseMsgID := (baseMsgID_syncAt _ _).trans h.nextMsgID
      baseByteOffset := (baseByteOffset_syncAt _ _).trans h.written
      nextMsgID := congrArg (· + 1) h.nextMsgID
      written := ?_
      committed := ?_
      strays := h.strays
      toDrop := ?_
      gone := h.gone
      acked := ⟨_, mem_append_right _ (mem_singleton_self _), hid⟩ }
  · show p.log.written + (codec.frame rec).length = 38 * (n + 1 + 1)
    rw [hlen, h.written]
    rfl
  · show p.log.written + (codec.frame rec).length = 38 * (n + 1 + 1)
    rw [hlen, h.written]
    rfl
  · show p.toDrop.map _ = []
    rw [h.toDrop]
    rfl

/-- Any number of appends, up to one more than there are names of six digits. None of the records
is delayed. -/
theorem exists_filled (hn : n ≤ nameLimit) :
    ∃ as p, Run step (fun _ a => a.Succeeds) (.empty .perMessage 1) as p ∧
      Filled n p ∧ ∀ r ∈ p.appended, r.visibleAtNs = 0 := by
  induction n with
  | zero =>
    obtain ⟨p, hp, hvisible, h₁, h₂, h₃, h₄, h₅, h₆, h₇, h₈, h₉, h₁₀, h₁₁, h₁₂, h₁₃⟩ :
        ∃ p, Run step (fun _ a => a.Succeeds) (.empty .perMessage 1)
            [.append emptyMessage, .write none, .fsync true] p ∧
          (∀ r ∈ p.appended, r.visibleAtNs = 0) ∧
          p.holder = .free ∧ p.log.syncMode = .perMessage ∧ p.log.segmentBytes = 1 ∧
          p.log.active.index = 0 ∧ p.log.active.baseMsgID = 0 ∧
          p.log.active.baseByteOffset = 38 * 0 ∧ p.log.nextMsgID = 0 + 1 ∧
          p.log.written = 38 * (0 + 1) ∧ p.log.committed = 38 * (0 + 1) ∧ p.strays = [] ∧
          p.toDrop = [] ∧ p.gone = [] ∧ ∃ w ∈ p.acked, w.1.msgID.toNat = 0 := by
      decide +kernel
    exact ⟨_, p, hp, ⟨h₁, h₂, h₃, h₄, h₅, h₆, h₇, h₈, h₉, h₁₀, h₁₁, h₁₂, h₁₃⟩, hvisible⟩
  | succ n ih =>
    obtain ⟨as, p, hrun, hfilled, hvisible⟩ := ih (by omega)
    have hn' : n ≤ nameLimit := by omega
    refine ⟨_, _, hrun.trans ((hfilled.full hn').roll bare_emptyMessage),
      hfilled.next hn' bare_emptyMessage, fun r hr => ?_⟩
    rcases mem_append.mp hr with hold | hnew
    · exact hvisible r hold
    · rw [mem_singleton.mp hnew]
      rfl

theorem discoverSegments_without_active (h : Shape id₀ p) (hstrays : p.strays = [])
    (htoDrop : p.toDrop = []) (hindex : p.log.active.index = nameLimit) :
    discoverSegments p.dir = p.log.sealed.map fun s => Segment.found s.index s.f := by
  have hlinked : p.linked = p.log.sealed ++ [p.log.active] := by
    rw [Proc.linked, htoDrop, nil_append, Log.segments]
  have hfilter : p.linked.filter (fun s => s.index < nameLimit) = p.log.sealed := by
    rw [hlinked, filter_append, filter_eq_self.mpr, filter_cons_of_neg]
    · simp
    · simp [hindex]
    · intro s hs
      have holder : s ∈ p.older := mem_append_right _ (mem_append_right _ hs)
      exact decide_eq_true (hindex ▸ h.index_lt holder)
  rw [Proc.dir, discoverSegments_entries (by simp [hstrays]) h.ascending_linked, hfilter]

/-- Opening the directory of a log whose active segment alone has an index of seven digits finds
the sealed segments only; the file of the other one is left where it is. -/
theorem openLog_without_active {front : List Segment} {last : Segment} (h : Shape id₀ p)
    (hstrays : p.strays = []) (htoDrop : p.toDrop = []) (hindex : p.log.active.index = nameLimit)
    (hsealed : p.log.sealed = front ++ [last]) (mode : SyncMode) (segmentBytes : ℕ) :
    ∃ sealed active, openLog mode segmentBytes p.dir =
        .ok (Proc.start mode segmentBytes [p.log.active.entry] sealed active
          ⟨(codec.frames (stream p.log.sealed)).length, stream p.log.sealed⟩) ∧
      Layout (firstID (stream p.log.sealed)) 0 (sealed ++ [active]) ∧
      sealed.map Segment.index = front.map Segment.index ∧ stream sealed = stream front ∧
      active.index = last.index ∧ active.records = last.records := by
  have holder : ∀ s ∈ p.log.sealed, s ∈ p.older := fun s hs =>
    mem_append_right _ (mem_append_right _ hs)
  have hclean : ∀ s ∈ p.log.sealed, s.Clean := fun s hs =>
    h.layout.clean s (mem_append_left _ (holder s hs))
  have hlinked : p.linked = p.log.sealed ++ [p.log.active] := by
    rw [Proc.linked, htoDrop, nil_append, Log.segments]
  have hlast : last ∈ p.log.sealed := by
    rw [hsealed]
    simp
  have hfound : discoverSegments p.dir
      = front.map (fun s => Segment.found s.index s.f) ++ [Segment.found last.index last.f] := by
    rw [discoverSegments_without_active h hstrays htoDrop hindex, hsealed, map_append]
    rfl
  have hwhole : ∀ t ∈ front.map (fun s => Segment.found s.index s.f), t.Whole := by
    intro t ht
    obtain ⟨s, hs, rfl⟩ := List.mem_map.mp ht
    have hs' : s ∈ p.log.sealed := by
      rw [hsealed]
      exact mem_append_left _ hs
    exact ⟨(hclean s hs').data_eq, (hclean s hs').fits, h.nonempty s (holder s hs'),
      (hclean s hs').synced_le⟩
  have hstream : stream (front.map fun s => Segment.found s.index s.f) = stream front := by
    rw [stream, flatMap_map]
    rfl
  have hall : last.records.take (codec.whole last.f.data.length last.records)
      = last.records := by
    rw [(hclean last hlast).length_data, codec.whole_frames, take_length]
  have hvisited : stream p.log.sealed = stream (front.map fun s => Segment.found s.index s.f)
      ++ last.records.take (codec.whole last.f.data.length last.records) := by
    rw [hall, hstream, hsealed, stream_append, stream_cons, stream_nil, append_nil]
  have hsplit : p.appended = stream p.gone ++ (stream p.log.sealed ++ p.log.active.records) := by
    rw [h.appended_linked, hlinked, stream_append, stream_cons, stream_nil, append_nil]
  obtain ⟨hnum, hroom⟩ := h.numbered_slice hsplit
  have hdata : last.f.data = (codec.frames last.records).take last.f.data.length := by
    rw [← (hclean last hlast).data_eq, take_length]
  have hleft : p.dir.filter (fun e => (segmentIndex e.1).isNone) = [p.log.active.entry] := by
    rw [Proc.dir, hstrays, hlinked, nil_append, map_append, filter_append,
      filter_eq_nil_iff.mpr, nil_append, map_singleton, filter_eq_self.mpr]
    · intro e he
      rw [mem_singleton.mp he, Segment.entry,
        segmentIndex_segmentName_of_le hindex.ge, Option.isNone_none]
    · intro e he
      obtain ⟨s, hs, rfl⟩ := List.mem_map.mp he
      rw [Segment.entry, segmentIndex_segmentName (hindex ▸ h.index_lt (holder s hs))]
      simp
  obtain ⟨sealed, active, hopen, hlay, hmap, hstream', hidx, -, hrec⟩ := openLog_spec mode
    segmentBytes hfound hwhole hdata (hclean last hlast).fits (hclean last hlast).synced_le
    hvisited hnum hroom
  rw [hleft] at hopen
  have hindices : sealed.map Segment.index = front.map Segment.index := by
    simpa [Function.comp_def, Segment.found] using congrArg (List.map Prod.fst) hmap
  exact ⟨sealed, active, hopen, hlay, hindices, hstream'.trans hstream, hidx, hrec.trans hall⟩

/-- The millionth rotation creates a file that the next `Open` does not find: in per-message mode
with a segment cap of one byte, without any I/O error, an acknowledged record in a present segment
is not visited after a crash that keeps every byte. -/
theorem segment_million_lost :
    ∃ p₀ as p d q, openLog .perMessage 1 [] = .ok p₀ ∧
      Run step (fun _ a => a.Succeeds) p₀ as p ∧ Crash p d ∧
      openLog .perMessage 1 d = .ok q ∧
      ∃ w ∈ p.acked, w.1 ∈ stream p.linked ∧ w.1 ∉ q.appended := by
  have hopen := openLog_nil .perMessage 1
  obtain ⟨as, p, hrun, hfilled, -⟩ := exists_filled (n := nameLimit) le_rfl
  have hi := inv_of_run (fun _ _ ha => Action.Succeeds.intact ha) (inv_of_openLog_nil hopen) hrun
  have holder : p.older = p.log.sealed := by
    rw [Proc.older, hfilled.gone, hfilled.toDrop, nil_append, nil_append]
  -- Every sealed record has an id of six digits.
  have hcount : (stream p.log.sealed).length = nameLimit := by
    have hbase := hi.shape.active.1
    rw [holder, hfilled.baseMsgID, Nat.zero_add] at hbase
    exact hbase.symm
  have hne : p.log.sealed ≠ [] := by
    intro hnil
    rw [hnil] at hcount
    exact absurd hcount (by decide)
  have hsmall : ∀ r ∈ stream p.log.sealed, r.msgID.toNat < nameLimit := by
    intro r hr
    have hnum := hi.shape.numbered
    rw [hi.shape.appended_split, holder] at hnum
    have hid := ((numbered_append.mp hnum).1.bounds hr).2
    omega
  obtain ⟨front, last, hsealed⟩ : ∃ front last, p.log.sealed = front ++ [last] :=
    ⟨_, _, (dropLast_append_getLast hne).symm⟩
  obtain ⟨sealed, active, hq, -⟩ := openLog_without_active hi.shape hfilled.strays hfilled.toDrop
    hfilled.index hsealed .perMessage 1
  obtain ⟨w, hw, hid⟩ := hfilled.acked
  refine ⟨_, as, p, p.dir, _, hopen, hrun, crash_dir hi.shape, hq, w, hw, ?_, ?_⟩
  · obtain ⟨pre, post, hsplit, -⟩ := (hi.calls.acked w hw).1
    have happended := hi.shape.appended_linked
    rw [hfilled.gone, stream_nil, nil_append] at happended
    rw [← happended, hsplit]
    simp
  · intro hmem
    exact absurd (hsmall w.1 hmem) (by omega)

end ToyMQ.Wal
