import ToyMQ.Wal.ReaderExact

/-!
# A reader survives retention

`DropSegmentsBefore` may cut the segment that a reader holds from the slice and unlink its file. The
reader keeps its descriptor, finishes the segment and goes on with the oldest one that is left, as
long as that one is the successor of its own (`reader_survives_retention`). It goes wrong when one
call removes the successor as well: the reader then takes the length of its segment from a later
one, and `Next` reports the end of the file (`reader_fails_after_drop`).
-/

namespace ToyMQ.Wal

open Lib List Option

/-! ## A reader whose segment was dropped -/

/-- The handle of a reader in `Next`, while it has its segment open. -/
def Phase.handle : Phase → Option Handle
  | .idle h | .loop h | .decode h => some h
  | _ => none

variable {id₀ k n : ℕ} {p : Proc} {h : Handle} {t t' : Reading}

theorem At.rest_of_dropped {m : ℕ} (hat : At id₀ p h k m) (hsh : Shape id₀ p)
    (hr : Retained p (h.index + 1)) (hgone : ∀ s ∈ p.log.segments, s.index ≠ h.index) :
    ∃ s ∈ p.dropped, ∃ front back, s.index = h.index ∧ s.records = front ++ back ∧
      h.localPos = (codec.frames front).length ∧
      p.appended.drop k = back ++ stream p.log.segments := by
  obtain ⟨s, front, back, hon, -⟩ := hat
  have hdropped : s ∈ p.dropped := by
    have hmem := hon.mem
    rw [Proc.all_eq_dropped_append] at hmem
    exact (mem_append.mp hmem).resolve_right fun hs => hgone s hs hon.index_eq
  refine ⟨s, hdropped, front, back, hon.index_eq, hon.records_eq, hon.pos_eq, ?_⟩
  -- It is the last of the dropped segments.
  obtain ⟨pre, post, hsplit⟩ := append_of_mem hdropped
  have hasc := hsh.ascending
  rw [Proc.all_eq_dropped_append, hsplit] at hasc
  obtain rfl : post = [] := by
    refine eq_nil_iff_forall_not_mem.mpr fun s' hs' => ?_
    have hlt := (pairwise_cons.mp
      (pairwise_append.mp (pairwise_append.mp hasc).1).2.1).1 s' hs'
    have hle := hr s' (by rw [hsplit]; simp [hs'])
    have := hon.index_eq
    omega
  have hall : p.all = pre ++ s :: p.log.segments := by
    rw [Proc.all_eq_dropped_append, hsplit]
    simp
  obtain ⟨hk, happ⟩ := hon.of_split hsh hall
  rw [happ, hk, drop_left]

theorem NextOk.at_handle {out : List Record} {phase : Phase} (hok : NextOk id₀ n p out phase)
    (hh : phase.handle = some h) :
    ∃ k m, At id₀ p h k m ∧ Retained p (h.index + 1) ∧ Returned p n k out := by
  cases phase with
  | idle | loop =>
    cases hh
    exact hok
  | decode =>
    cases hh
    obtain ⟨k, m, hat, hr, hret, -⟩ := hok
    exact ⟨k, m, hat, hr, hret⟩
  | _ => cases hh

theorem prefix_of_step {a : ReadAction} (hi : Inv id₀ t.proc) (hstep : t.step a = some t') :
    t.out <+: t'.out ∧ t.proc.appended <+: t'.proc.appended := by
  cases a with
  | log =>
    obtain ⟨p', hp', rfl⟩ := map_eq_some_iff.mp hstep
    exact ⟨prefix_rfl, (extends_of_step hi (step_sound hp')).appended⟩
  | read =>
    obtain ⟨hproc, -, hout⟩ := proc_of_read hstep
    exact ⟨hout, hproc ▸ prefix_rfl⟩
  | cancel =>
    obtain ⟨h, -, rfl⟩ := cancel_sound hstep
    exact ⟨prefix_rfl, prefix_rfl⟩

theorem returned_of_run {as : List ReadAction} (hi : Inv id₀ t.proc)
    (hok : NextOk id₀ n t.proc t.out t.phase) (hret : Returned t.proc n k t.out)
    (hk : k ≤ t.proc.appended.length)
    (hrun : Run Reading.step (fun t a => a.Intact ∧ Spares t a) t as t') :
    ∃ more new, t'.out = t.out ++ more ∧ t'.proc.appended = t.proc.appended ++ new ∧
      more <+: t.proc.appended.drop k ++ new := by
  -- Along the run, the invariant holds from the same record number on.
  have hrest : (Inv id₀ t'.proc ∧ NextOk id₀ n t'.proc t'.out t'.phase) ∧
      t.out <+: t'.out ∧ t.proc.appended <+: t'.proc.appended := by
    refine hrun.invariant (I := fun u => (Inv id₀ u.proc ∧ NextOk id₀ n u.proc u.out u.phase) ∧
      t.out <+: u.out ∧ t.proc.appended <+: u.proc.appended)
      ⟨⟨hi, hok⟩, prefix_rfl, prefix_rfl⟩ fun u a u' ha hu hstep => ?_
    obtain ⟨⟨hiu, hoku⟩, hout, happ⟩ := hu
    obtain ⟨hout', happ'⟩ := prefix_of_step hiu hstep
    exact ⟨hoku.of_step hiu ha.1 ha.2 hstep, hout.trans hout', happ.trans happ'⟩
  obtain ⟨⟨-, hok'⟩, ⟨more, hmore⟩, ⟨new, hnew⟩⟩ := hrest
  refine ⟨more, new, hmore.symm, hnew.symm, ?_⟩
  obtain ⟨k', hret'⟩ := hok'.returned
  have hprefix := hret'.out_eq.drop t.out.length
  rwa [← hmore, ← hnew, drop_left, drop_drop, ← hret.number,
    drop_append_of_le_length hk] at hprefix

/-- A reader survives retention. Take any state that a log has `Reached` (by whole writes,
successful removals, names of six digits and crashes that keep the sealed files), and let
`NewReader` and calls of `Next` run with appends, rotations, flushes and calls of
`DropSegmentsBefore` in any order, as long as every write is whole and no such call removes a
segment above the one that the reader holds. Then `Next` returns no error other than that of its
context, and the ids it returns strictly increase. When the reader's segment has been dropped, what
it returns from then on is the rest of that segment, then the records from the oldest retained one
on; and it does return the first of these as soon as that is committed and the mutex is free. -/
theorem reader_survives_retention {p₀ : Proc} {fromMsgID : ℕ} {as : List ReadAction} {t : Reading}
    (hlog : Reached p₀)
    (hrun : Run Reading.step (fun t a => a.Intact ∧ Spares t a) ⟨p₀, fromMsgID, .start, []⟩ as t) :
    (∀ e, t.phase ≠ .failed e) ∧
    t.out.Pairwise (fun r r' => r.msgID.toNat < r'.msgID.toNat) ∧
    ∀ h, t.phase.handle = some h → (∀ s ∈ t.proc.log.segments, s.index ≠ h.index) →
      ∃ s ∈ t.proc.dropped, ∃ front back, s.index = h.index ∧ s.records = front ++ back ∧
        h.localPos = (codec.frames front).length ∧
        (∀ as' t', Run Reading.step (fun t a => a.Intact ∧ Spares t a) t as' t' →
          ∃ more new, t'.out = t.out ++ more ∧ t'.proc.appended = t.proc.appended ++ new ∧
            more <+: back ++ stream t.proc.log.segments ++ new) ∧
        ∀ r rest, back ++ stream t.proc.log.segments = r :: rest → t.proc.holder = .free →
          r.msgID.toNat < t.proc.firstUncommitted → ∃ t', Reads t t' ∧ t'.out = t.out ++ [r] := by
  obtain ⟨id₀, hi₀, -⟩ := hlog.inv
  have hok : ReadOk id₀ none t := hrun.invariant (readOk_start hi₀ fun _ hn => by cases hn)
    fun _ _ _ ha hok hstep => hok.of_step ha.1 ha.2 (fun hne => absurd rfl hne) hstep
  have hi := hok.inv
  rcases hok.phase with ⟨hout, hscan⟩ | ⟨n, -, hnext⟩
  · refine ⟨fun e hphase => ?_, hout ▸ .nil, fun h hh => ?_⟩
    · rw [hphase] at hscan
      exact hscan
    · exfalso
      cases hphase : t.phase <;> rw [hphase] at hh hscan <;> first | exact hscan | cases hh
  · obtain ⟨k₀, hret₀⟩ := hnext.returned
    refine ⟨fun e hphase => ?_, ?_, fun h hh hgone => ?_⟩
    · rw [hphase] at hnext
      exact hnext
    · exact (hi.shape.numbered.pairwise.sublist (drop_sublist _ _)).sublist
        hret₀.out_eq.sublist
    · obtain ⟨k, m, hat, hr, hret⟩ := hnext.at_handle hh
      obtain ⟨s, hs, front, back, hindex, hrecords, hpos, hrest⟩ :=
        hat.rest_of_dropped hi.shape hr hgone
      have hk : k ≤ t.proc.appended.length := by
        have := hat.le_length hi.shape
        obtain ⟨s', front', back', -, rfl⟩ := hat
        omega
      have hgoes : ∀ as' t', Run Reading.step (fun t a => a.Intact ∧ Spares t a) t as' t' →
          ∃ more new, t'.out = t.out ++ more ∧ t'.proc.appended = t.proc.appended ++ new ∧
            more <+: back ++ stream t.proc.log.segments ++ new := fun as' t' hrun' => by
        rw [← hrest]
        exact returned_of_run hi hnext hret hk hrun'
      refine ⟨s, hs, front, back, hindex, hrecords, hpos, hgoes, ?_⟩
      intro r rest hcons hfree hlt
      -- The first of what is left is record number `k`.
      have hget : t.proc.appended[k]? = some r := by
        rw [← head?_drop, hrest, hcons]
        rfl
      rw [hi.shape.numbered.msgID_eq hget, hi.shape.firstUncommitted_eq] at hlt
      have hwhole := codec.whole_le_length t.proc.log.committed t.proc.appended
      have hle := (codec.length_frames_take_mono t.proc.appended
        (show k + 1 ≤ codec.whole t.proc.log.committed t.proc.appended by omega)).trans
        (codec.length_frames_take_whole_le t.proc.log.committed t.proc.appended)
      rw [hret.number] at hle
      obtain ⟨t', r', ⟨as', hreads⟩, hout'⟩ := NextOk.progress hi hfree hnext
        (by rw [← hret.number]; omega) hle
      obtain ⟨more, new, hmore, -, hprefix⟩ := hgoes as' t' (hreads.mono (by
        rintro u a rfl
        exact ⟨trivial, trivial⟩))
      rw [hout', append_cancel_left_eq] at hmore
      rw [← hmore, hcons] at hprefix
      obtain rfl : r' = r := (cons_prefix_cons.mp hprefix).1
      exact ⟨t', ⟨as', hreads⟩, hout'⟩

/-- `NewReader` and one call of `Next`, from the first record on. -/
def readFirst : List ReadAction := List.replicate 7 .read

/-- The theorem at a reader that has read the first segment when that is dropped. -/
theorem reader_survives_retention_dropOne :
    ∃ p₀ t, Reached p₀ ∧
      exec Reading.step (fun t a => a.Intact ∧ Spares t a) ⟨p₀, 0, .start, []⟩
        (readFirst ++ [.log (.drop 1), .log (.remove true)]) = some t ∧
      (t.phase.handle = some ⟨0, 0, 38⟩ ∧ ∀ s ∈ t.proc.log.segments, s.index ≠ 0) ∧
      (∀ e, t.phase ≠ .failed e) ∧
      t.out.Pairwise (fun r r' => r.msgID.toNat < r'.msgID.toNat) ∧
      ∃ s ∈ t.proc.dropped, ∃ front back, s.index = 0 ∧ s.records = front ++ back ∧
        38 = (codec.frames front).length ∧
        (∀ as' t', Run Reading.step (fun t a => a.Intact ∧ Spares t a) t as' t' →
          ∃ more new, t'.out = t.out ++ more ∧ t'.proc.appended = t.proc.appended ++ new ∧
            more <+: back ++ stream t.proc.log.segments ++ new) ∧
        ∀ r rest, back ++ stream t.proc.log.segments = r :: rest → t.proc.holder = .free →
          r.msgID.toNat < t.proc.firstUncommitted →
          ∃ t', Reads t t' ∧ t'.out = t.out ++ [r] := by
  obtain ⟨p₀, hp₀, t, ht, hhandle, hdropped⟩ :
      ∃ p₀, Run Wal.step (fun p a => a.Intact ∧ a ≠ .remove false ∧ NameFits p a)
          (.empty .perMessage 1) threeSegments p₀ ∧
        ∃ t, exec Reading.step (fun t a => a.Intact ∧ Spares t a) ⟨p₀, 0, .start, []⟩
            (readFirst ++ [.log (.drop 1), .log (.remove true)]) = some t ∧
          t.phase.handle = some ⟨0, 0, 38⟩ ∧ ∀ s ∈ t.proc.log.segments, s.index ≠ 0 := by
    decide +kernel
  have hlog := (Reached.opened (openLog_nil .perMessage 1)).run hp₀
  obtain ⟨herr, hinc, hrest⟩ := reader_survives_retention hlog (run_of_exec ht)
  exact ⟨p₀, t, hlog, ht, ⟨hhandle, hdropped⟩, herr, hinc, hrest _ hhandle hdropped⟩

/-- One call of `DropSegmentsBefore` removes the reader's segment and its successor: `Next` takes
the end of its segment from the third one, and decodes beyond the end of the file. -/
theorem reader_fails_after_drop :
    ∃ p₀ t, Reached p₀ ∧
      Run Reading.step (fun _ a => a.Intact) ⟨p₀, 0, .start, []⟩
        (readFirst ++ [.log (.drop 2), .log (.remove true), .log (.remove true), .read, .read,
          .read]) t ∧
      t.phase = .failed (.decode .eof) := by
  obtain ⟨p₀, hp₀, t, ht⟩ :
      ∃ p₀, Run Wal.step (fun p a => a.Intact ∧ a ≠ .remove false ∧ NameFits p a)
          (.empty .perMessage 1) threeSegments p₀ ∧
        ∃ t, Run Reading.step (fun _ a => a.Intact) ⟨p₀, 0, .start, []⟩
            (readFirst ++ [.log (.drop 2), .log (.remove true), .log (.remove true), .read, .read,
              .read]) t ∧
          t.phase = .failed (.decode .eof) := by
    decide +kernel
  exact ⟨p₀, t, (Reached.opened (openLog_nil .perMessage 1)).run hp₀, ht⟩

end ToyMQ.Wal
