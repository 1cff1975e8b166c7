import ToyMQ.Wal.ReaderExact

/-!
# The log as its users see it

For the broker a log is a list of records, of which the first `committed` may be read. `LogSpec`
is that view. While the log is open a record is written or more of what was written is committed,
and opening it again finds some of the records, all of which can then be read.

The log of the preceding modules refines it when nothing is dropped. `spec_of_step` turns each of
its steps into writes and commits, `crash_refines` turns a crash and the recovery after it into a
`reopen` that keeps what was committed, and `reader_refines` says that a reader is a position in
the list.
-/

namespace ToyMQ.Wal

open Lib List

/-- The records of a log, and how many of them are committed. -/
structure LogSpec where
  records : List Record
  committed : ℕ
deriving DecidableEq, Repr

/-- What happens to a log that is open. -/
inductive LogEvent where
  /-- A record is written under the next id. -/
  | write (rec : Record)
  /-- The first `k` records are committed. -/
  | commit (k : ℕ)
deriving DecidableEq, Repr

namespace LogSpec

/-- An empty log. -/
def new : LogSpec := ⟨[], 0⟩

/-- A step of the log. -/
def step (s : LogSpec) : LogEvent → Option LogSpec
  | .write rec =>
    if rec.msgID.toNat = s.records.length then some { s with records := s.records ++ [rec] }
    else none
  | .commit k =>
    if s.committed ≤ k ∧ k ≤ s.records.length then some { s with committed := k } else none

/-- The log is opened again and finds the first `k` records. `Open` counts what it finds as
committed. -/
def reopen (s : LogSpec) (k : ℕ) : Option LogSpec :=
  if k ≤ s.records.length then some ⟨s.records.take k, k⟩ else none

/-- No more is committed than was written, and the records are numbered from 0 on. -/
structure Ok (s : LogSpec) : Prop where
  numbered : Numbered 0 s.records
  committed_le : s.committed ≤ s.records.length

theorem ok_new : Ok new := ⟨trivial, le_rfl⟩

variable {s s' : LogSpec}

theorem Ok.of_step {e : LogEvent} (h : s.Ok) (hstep : s.step e = some s') :
    s'.Ok ∧ s.committed ≤ s'.committed := by
  cases e with
  | write =>
    simp only [step, Option.ite_none_right_eq_some, Option.some.injEq] at hstep
    obtain ⟨hid, rfl⟩ := hstep
    refine ⟨⟨numbered_append.mpr ⟨h.numbered, hid.trans (Nat.zero_add _).symm, trivial⟩, ?_⟩,
      le_rfl⟩
    rw [length_append]
    exact h.committed_le.trans (Nat.le_add_right _ _)
  | commit =>
    simp only [step, Option.ite_none_right_eq_some, Option.some.injEq] at hstep
    obtain ⟨⟨hge, hle⟩, rfl⟩ := hstep
    exact ⟨⟨h.numbered, hle⟩, hge⟩

/-- What `Open` finds is again numbered from 0 on, and all of it is committed. -/
theorem Ok.of_reopen {k : ℕ} (h : s.Ok) (hreopen : s.reopen k = some s') :
    s'.Ok ∧ s'.committed = k := by
  simp only [reopen, Option.ite_none_right_eq_some, Option.some.injEq] at hreopen
  obtain ⟨hle, rfl⟩ := hreopen
  have hsplit : Numbered 0 (s.records.take k ++ s.records.drop k) := by
    rw [take_append_drop]
    exact h.numbered
  exact ⟨⟨(numbered_append.mp hsplit).1, (length_take_of_le hle).ge⟩, rfl⟩

/-- More records and a higher mark are reached by writing the records and committing them. -/
theorem run_of_extends (hrecords : s.records <+: s'.records)
    (hcommitted : s.committed ≤ s'.committed) (h : s'.Ok) :
    ∃ es, Run step (fun _ _ => True) s es s' := by
  obtain ⟨rest, hrest⟩ := hrecords
  obtain ⟨records, committed⟩ := s
  obtain ⟨records', committed'⟩ := s'
  dsimp only at hrest hcommitted
  subst hrest
  induction rest generalizing records with
  | nil =>
    rw [append_nil] at h ⊢
    refine ⟨[.commit committed'], .single trivial ?_⟩
    simp [step, hcommitted, h.committed_le]
  | cons rec rest ih =>
    rw [append_cons] at h ⊢
    obtain ⟨es, hes⟩ := ih (records ++ [rec]) h
    have hid := (numbered_append.mp (numbered_append.mp h.numbered).1).2.1
    refine ⟨.write rec :: es, .cons trivial ?_ hes⟩
    simp [step, hid]

end LogSpec

/-! ## Refinement -/

/-- The log as its users see it. -/
def Proc.spec (p : Proc) : LogSpec := ⟨p.appended, codec.whole p.log.committed p.appended⟩

variable {p q : Proc} {a : Action} {mode : SyncMode} {segmentBytes k : ℕ}

theorem Shape.spec_ok (h : Shape 0 p) : p.spec.Ok :=
  ⟨h.numbered, codec.whole_le_length _ _⟩

/-- Every step of the log writes and commits, or changes nothing. -/
theorem spec_of_step {p' : Proc} (hi : Inv 0 p) (ha : a.Intact) (hstep : step p a = some p') :
    ∃ es, Run LogSpec.step (fun _ _ => True) p.spec es p'.spec := by
  have he := extends_of_step hi (step_sound hstep)
  have hle := codec.whole_le_length p.log.committed p.appended
  have hcommitted : codec.whole p.log.committed p.appended ≤
      codec.whole p'.log.committed p'.appended := by
    obtain ⟨rest, hrest⟩ := he.appended
    apply codec.le_whole_of_length_le
    · rw [← hrest, length_append]
      exact hle.trans (Nat.le_add_right _ _)
    · rw [← hrest, take_append_of_le_length hle]
      exact (codec.length_frames_take_whole_le _ _).trans he.committed
  exact LogSpec.run_of_extends he.appended hcommitted
    (inv_of_step ha hi (step_sound hstep)).shape.spec_ok

/-- A log that was just opened has committed all it found. -/
theorem Reopened.spec_eq {keep : Segment → File} (hr : Reopened mode segmentBytes p keep k q) :
    q.spec = ⟨q.appended, q.appended.length⟩ := by
  have hcommitted : q.log.committed = (codec.frames q.appended).length := by
    rw [hr.start_eq]
    rfl
  rw [Proc.spec, hcommitted, codec.whole_frames]

theorem Reopened.spec_step {keep : Segment → File} (hr : Reopened mode segmentBytes p keep k q)
    (hi : Inv 0 p) (hgone : p.gone = []) (hk : p.log.committed ≤ p.log.active.baseByteOffset + k) :
    ∃ j, p.spec.committed ≤ j ∧ p.spec.reopen j = some q.spec := by
  have holder : p.older = p.retired := by rw [Proc.older_eq, hgone, nil_append]
  have hsplit := hi.shape.appended_split
  have hbase := hi.shape.active.2.1
  rw [holder] at hsplit hbase
  let j := (stream p.retired).length + codec.whole k p.log.active.records
  have hj : j ≤ p.appended.length := by
    rw [hsplit, length_append]
    exact Nat.add_le_add_left (codec.whole_le_length _ _) _
  have hfound : q.appended = p.appended.take j := by
    rw [hr.appended_eq, hsplit, take_length_add_append]
  -- The committed records are those of the sealed segments, and some before the cut.
  have hle : codec.whole p.log.committed p.appended ≤ j := by
    have hend := codec.length_frames_take_whole_le p.log.committed p.appended
    have hlen := codec.whole_le_length p.log.committed p.appended
    rcases Nat.lt_or_ge (codec.whole p.log.committed p.appended) (stream p.retired).length with
      hlt | hge
    · exact hlt.le.trans (Nat.le_add_right _ _)
    · obtain ⟨m, hm⟩ := Nat.exists_eq_add_of_le hge
      rw [hm] at hend hlen ⊢
      rw [hsplit, take_length_add_append, codec.frames_append, length_append,
        ← hbase] at hend
      rw [hsplit, length_append] at hlen
      exact Nat.add_le_add_left (codec.le_whole_of_length_le (by omega) (by omega)) _
  refine ⟨j, hle, ?_⟩
  rw [hr.spec_eq, hfound, length_take_of_le hj]
  simp [LogSpec.reopen, Proc.spec, hj]

/-- A step that succeeds, keeps to segment names of six digits and drops nothing. -/
def Keeps (p : Proc) (a : Action) : Prop :=
  a.Succeeds ∧ NameFits p a ∧ ∀ keepIndex, a ≠ .drop keepIndex

variable {p₀ : Proc} {as : List Action}

/-- A log that drops nothing, from an empty directory on, is a run of what its users see. -/
theorem log_refines (hopen : openLog mode segmentBytes [] = .ok p₀)
    (hrun : Run step Keeps p₀ as p) : ∃ es, Run LogSpec.step (fun _ _ => True) .new es p.spec := by
  have hi₀ := inv_of_openLog_nil hopen
  have hspec : p₀.spec = .new := by
    obtain rfl := eq_of_openLog_nil hopen
    rfl
  refine (hrun.invariant
    (I := fun q => Inv 0 q ∧ ∃ es, Run LogSpec.step (fun _ _ => True) .new es q.spec)
    ⟨hi₀, [], hspec ▸ .nil _⟩ ?_).2
  rintro q a q' ⟨ha, -, -⟩ ⟨hi, es, hes⟩ hstep
  obtain ⟨es', hes'⟩ := spec_of_step hi ha.intact hstep
  exact ⟨inv_of_step ha.intact hi (step_sound hstep), es ++ es', hes.trans hes'⟩

/-- A crash of such a log and the recovery after it are a restart that keeps what was committed. -/
theorem crash_refines (hmode : mode ≠ .none) {d : Dir}
    (hopen : openLog mode segmentBytes [] = .ok p₀) (hrun : Run step Keeps p₀ as p)
    (hcrash : Crash p d) :
    ∃ q j, openLog mode segmentBytes d = .ok q ∧
      p.spec.committed ≤ j ∧ p.spec.reopen j = some q.spec := by
  have hi₀ := inv_of_openLog_nil hopen
  obtain rfl := eq_of_openLog_nil hopen
  obtain ⟨hi, hd⟩ := durable_of_run (fun _ _ h => h.1.intact) hi₀
    (durable_empty hmode segmentBytes) hrun
  have hn : Named p := hrun.invariant (named_empty mode segmentBytes) fun _ _ _ ha hn hstep =>
    named_of_step ha.1.ne_remove ha.2.1 hn (step_sound hstep)
  have hdropped : p.dropped.map (fun s => (s.index, s.records)) = [] :=
    hrun.invariant (I := fun q => q.dropped.map (fun s => (s.index, s.records)) = []) rfl
      fun _ _ _ ha hnil hstep => (dropped_eq_of_step ha.2.2 (step_sound hstep)).trans hnil
  obtain ⟨hgone, -⟩ := append_eq_nil_iff.mp (map_eq_nil_iff.mp hdropped)
  obtain ⟨keep, k, rfl, hc, hk⟩ := hcrash.tailCut hi hd
  obtain ⟨q, hq, hr⟩ := openLog_of_tail hi.shape hn hc mode segmentBytes
  -- What is committed is durable, so that it lies before the cut.
  have hcut : p.log.committed ≤ p.log.active.baseByteOffset + k := by
    have hcov := hd.committed p.log.active (mem_append_right _ (mem_singleton_self _))
    have hend := hi.shape.committed_le
    rw [hi.shape.written_eq_endOffset] at hend
    rw [Covered, min_eq_left hend] at hcov
    omega
  obtain ⟨j, hj⟩ := hr.spec_step hi hgone hcut
  exact ⟨q, j, hq, hj⟩

/-- A log that drops nothing and then crashes is, with the recovery after it, a run of what its
users see: writes and commits, and at last a restart that loses nothing of what was committed. -/
theorem life_refines {mode : SyncMode} (hmode : mode ≠ .none) {segmentBytes : ℕ} {p₀ p : Proc}
    {as : List Action} {d : Dir} (hopen : openLog mode segmentBytes [] = .ok p₀)
    (hrun : Run step Keeps p₀ as p) (hcrash : Crash p d) :
    ∃ q es j, openLog mode segmentBytes d = .ok q ∧
      Run LogSpec.step (fun _ _ => True) .new es p.spec ∧
      p.spec.committed ≤ j ∧ p.spec.reopen j = some q.spec := by
  obtain ⟨es, hes⟩ := log_refines hopen hrun
  obtain ⟨q, j, hq, hj⟩ := crash_refines hmode hopen hrun hcrash
  exact ⟨q, es, j, hq, hes, hj⟩

def Action.cuts : Action → Bool
  | .drop _ => true
  | _ => false

theorem Action.cuts_eq_false : a.cuts = false ↔ ∀ keepIndex, a ≠ .drop keepIndex := by
  cases a <;> simp [Action.cuts]

instance (p : Proc) (a : Action) : Decidable (Keeps p a) :=
  decidable_of_iff (a.Succeeds ∧ NameFits p a ∧ a.cuts = false)
    (and_congr_right' (and_congr_right' Action.cuts_eq_false))

/-- Two records are written and one of them is committed; a restart finds both. -/
theorem life_refines_unsyncedRun :
    ∃ p, Run step Keeps (.empty .batched 1) unsyncedRun p ∧
      p.spec.committed = 1 ∧ p.spec.records.length = 2 ∧
      ∃ q es j, openLog .batched 1 p.dir = .ok q ∧
        Run LogSpec.step (fun _ _ => True) .new es p.spec ∧
        p.spec.committed ≤ j ∧ p.spec.reopen j = some q.spec := by
  refine exists_run_of_exec
    (P := fun p => p.spec.committed = 1 ∧ p.spec.records.length = 2) (by decide +kernel) ?_
  rintro p hrun ⟨hcommitted, hrecords⟩
  have hopen := openLog_nil .batched 1
  have hi := inv_of_run (fun _ _ h => h.1.intact) (inv_of_openLog_nil hopen) hrun
  exact ⟨hcommitted, hrecords, life_refines (by decide) hopen hrun (crash_dir hi.shape)⟩

/-! ## Readers -/

/-- A reader that started at record `n` has returned the records from there on, all of them
committed: it stands for the position of the next one. -/
theorem reader_refines {n : ℕ} {t : Reading} (h : ReadOk 0 (some n) t) :
    t.out <+: t.proc.spec.records.drop n ∧ n + t.out.length ≤ t.proc.spec.committed := by
  have hgoal := h.goal_ok n rfl
  rcases h.phase with ⟨hnil, -⟩ | ⟨n', hn', hnext⟩
  · rw [hnil]
    exact ⟨List.nil_prefix, codec.le_whole_of_length_le hgoal.le_length hgoal.committed⟩
  · obtain rfl := hn' n rfl
    obtain ⟨k, hret⟩ := hnext.returned
    refine ⟨hret.out_eq, codec.le_whole_of_length_le ?_ ?_⟩
    · have hlen := hret.out_eq.length_le
      rw [length_drop] at hlen
      have hle := hgoal.le_length
      omega
    · rw [← hret.number]
      by_cases hnil : t.out = []
      · rw [hret.number, hnil]
        exact hgoal.committed
      · exact hret.committed hnil

end ToyMQ.Wal
