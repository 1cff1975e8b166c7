import ToyMQ.Wal.Recovery

/-!
# The representation invariant of the log

`Shape` says what the log's data are at every moment: the segments, with the dropped ones, are
laid out one after the other from offset 0 on; together they hold exactly the records appended so
far, numbered without a gap; and `committed` lies in the active segment, between two records.
`Calls` says what the goroutines around it know: what the holder of the mutex is about to write,
what the committer has snapshotted, and where the records of waiting and finished appends end.

Every step keeps both, as long as no write stops in the middle of a frame (`inv_of_step`). An
fsync, a rotation or a removal may fail.
-/

namespace ToyMQ.Wal

open Lib List

/-! ## Offsets in a stream of records -/

/-- A byte offset of a stream that lies between two of its records. -/
def Boundary (rs : List Record) (b : ℕ) : Prop :=
  ∃ k ≤ rs.length, b = (codec.frames (rs.take k)).length

/-- The end of a stream is a boundary. -/
theorem boundary_length (rs : List Record) : Boundary rs (codec.frames rs).length :=
  ⟨rs.length, le_rfl, by rw [take_length]⟩

variable {rs : List Record}

/-- A boundary stays one when more is appended. -/
theorem Boundary.append {b : ℕ} (h : Boundary rs b) (rs' : List Record) :
    Boundary (rs ++ rs') b := by
  obtain ⟨k, hk, rfl⟩ := h
  exact ⟨k, by rw [length_append]; omega, by rw [take_append_of_le_length hk]⟩

/-- A record of a stream with the offset where its frame ends. -/
def Located (rs : List Record) (w : Record × ℕ) : Prop :=
  ∃ pre post, rs = pre ++ w.1 :: post ∧ w.2 = (codec.frames (pre ++ [w.1])).length

variable {w : Record × ℕ}

/-- A record stays where it is when more is appended. -/
theorem Located.append (h : Located rs w) (rs' : List Record) : Located (rs ++ rs') w := by
  obtain ⟨pre, post, rfl, hend⟩ := h
  exact ⟨pre, post ++ rs', by simp, hend⟩

/-- The last record ends where the stream does. -/
theorem located_last (rs : List Record) (rec : Record) :
    Located (rs ++ [rec]) (rec, (codec.frames (rs ++ [rec])).length) :=
  ⟨rs, [], rfl, rfl⟩

/-! ## The shape of the log -/

/-- The invariant of the log's data, for a stream whose first id is `id₀`. -/
structure Shape (id₀ : ℕ) (p : Proc) : Prop where
  /-- The segments continue one another from offset 0 on. -/
  layout : Layout id₀ 0 p.all
  ascending : Ascending p.all
  /-- The segments hold exactly what was appended. -/
  appended_eq : p.appended = stream p.all
  written_eq : p.log.written = (codec.frames p.appended).length
  next_eq : p.log.nextMsgID = id₀ + p.appended.length
  room : p.log.nextMsgID < 2 ^ 64
  base_le : p.log.active.baseByteOffset ≤ p.log.committed
  committed_le : p.log.committed ≤ p.log.written
  /-- `committed` lies between two records. -/
  boundary : Boundary p.appended p.log.committed
  syncFn_eq : p.log.syncFn = p.log.active.index
  /-- No file of the directory has the name of a segment to come. -/
  fresh : ∀ i, p.log.active.index < i → p.strays.find (segmentName i) = none
  nonempty : ∀ s ∈ p.older, s.records ≠ []

namespace Shape

variable {id₀ : ℕ} {p : Proc}

/-- The place and the content of the active segment. -/
theorem active (h : Shape id₀ p) :
    p.log.active.baseMsgID = id₀ + (stream p.older).length ∧
      p.log.active.baseByteOffset = (codec.frames (stream p.older)).length ∧
      p.log.active.Clean := by
  obtain ⟨hid, hoff, hclean, -⟩ := (layout_append.mp h.layout).2
  exact ⟨hid, hoff.trans (Nat.zero_add _), hclean⟩

/-- What the older segments hold, then what the active one holds. -/
theorem appended_split (h : Shape id₀ p) :
    p.appended = stream p.older ++ p.log.active.records := by
  rw [h.appended_eq, Proc.all, stream_append, stream_cons, stream_nil, append_nil]

/-- `written` is where the active segment ends. -/
theorem written_eq_endOffset (h : Shape id₀ p) : p.log.written = p.log.active.endOffset := by
  obtain ⟨-, hoff, hclean⟩ := h.active
  rw [h.written_eq, h.appended_split, codec.frames_append, length_append, Segment.endOffset,
    hoff, hclean.length_data]

/-- The size compared with the segment cap is that of the active file. -/
theorem localSize_eq (h : Shape id₀ p) :
    p.log.written - p.log.active.baseByteOffset = p.log.active.f.data.length := by
  rw [h.written_eq_endOffset, Segment.endOffset, Nat.add_sub_cancel_left]

/-- The active segment has the highest index. -/
theorem index_lt (h : Shape id₀ p) {s : Segment} (hs : s ∈ p.older) :
    s.index < p.log.active.index :=
  (pairwise_append.mp h.ascending).2.2 s hs _ (mem_singleton_self _)

/-- The records appended are numbered from the first id on. -/
theorem numbered (h : Shape id₀ p) : Numbered id₀ p.appended := by
  rw [h.appended_eq]
  exact h.layout.numbered

/-- Only a segment with a record is rotated. -/
theorem active_records_ne_nil (h : Shape id₀ p) {rec : Record}
    (hrot : p.log.shouldRotate rec = true) : p.log.active.records ≠ [] := by
  intro hnil
  have hsize := h.localSize_eq
  rw [h.active.2.2.length_data, hnil] at hsize
  simp [Log.shouldRotate, hsize] at hrot

end Shape

/-! ## The operations keep the shape -/

@[simp]
theorem index_syncAt (t : ℕ) (s : Segment) : (syncAt t s).index = s.index := by
  unfold syncAt
  split_ifs <;> rfl

@[simp]
theorem data_syncAt (t : ℕ) (s : Segment) : (syncAt t s).f.data = s.f.data := by
  unfold syncAt
  split_ifs <;> rfl

@[simp]
theorem records_syncAt (t : ℕ) (s : Segment) : (syncAt t s).records = s.records := by
  unfold syncAt
  split_ifs <;> rfl

@[simp]
theorem baseByteOffset_syncAt (t : ℕ) (s : Segment) :
    (syncAt t s).baseByteOffset = s.baseByteOffset := by
  unfold syncAt
  split_ifs <;> rfl

@[simp]
theorem baseMsgID_syncAt (t : ℕ) (s : Segment) : (syncAt t s).baseMsgID = s.baseMsgID := by
  unfold syncAt
  split_ifs <;> rfl

/-- An fsync keeps the stream. -/
@[simp]
theorem stream_map_syncAt (t : ℕ) (segs : List Segment) :
    stream (segs.map (syncAt t)) = stream segs := by
  simp [stream, flatMap_map]

/-- An fsync keeps the layout. -/
theorem Layout.syncAt {id off : ℕ} {segs : List Segment} (h : Layout id off segs) (t : ℕ) :
    Layout id off (segs.map (syncAt t)) := by
  refine h.map fun s _ hclean => ?_
  unfold Wal.syncAt
  split_ifs
  · exact ⟨rfl, rfl, rfl, hclean.sync⟩
  · exact ⟨rfl, rfl, rfl, hclean⟩

variable {s : Segment} {rec : Record}

/-- A write appends the frame of the record to the file. -/
theorem Segment.Clean.data_withRecord (h : s.Clean) (rec : Record) :
    (s.withRecord rec).f.data = codec.frames (s.records ++ [rec]) := by
  rw [codec.frames_append, ← h.data_eq, codec.frames_cons, codec.frames_nil, append_nil]
  rfl

/-- The record stands after the others. -/
theorem Segment.Clean.records_withRecord (h : s.Clean) (hfit : Fits rec) :
    (s.withRecord rec).records = s.records ++ [rec] := by
  refine Segment.records_of_data_eq (h.data_withRecord rec) ?_
  simpa [or_imp, forall_and] using ⟨h.fits, hfit⟩

/-- An fsync changes the files that are still open at most. -/
theorem all_syncSegment (p : Proc) (t : ℕ) :
    (p.syncSegment t).all = p.gone ++ p.linked.map (syncAt t) := by
  simp [Proc.syncSegment, Proc.all, Proc.older, Proc.linked, Log.segments]

namespace Shape

variable {id₀ : ℕ} {p : Proc}

/-- An fsync keeps the shape. -/
theorem syncSegment (h : Shape id₀ p) (t : ℕ) : Shape id₀ (p.syncSegment t) := by
  have hlay := h.layout
  have hasc := h.ascending
  have hstream : stream (p.syncSegment t).all = stream p.all := by
    rw [all_syncSegment, Proc.all_eq_gone_append, stream_append, stream_append,
      stream_map_syncAt]
  rw [Proc.all_eq_gone_append] at hlay hasc
  obtain ⟨hgone, hlinked⟩ := layout_append.mp hlay
  refine
    { layout := ?_
      ascending := ?_
      appended_eq := h.appended_eq.trans hstream.symm
      written_eq := h.written_eq
      next_eq := h.next_eq
      room := h.room
      base_le := ?_
      committed_le := h.committed_le
      boundary := h.boundary
      syncFn_eq := ?_
      fresh := ?_
      nonempty := ?_ }
  · rw [all_syncSegment]
    exact layout_append.mpr ⟨hgone, hlinked.syncAt t⟩
  · rw [all_syncSegment, Ascending, pairwise_append]
    obtain ⟨hg, hl, hgl⟩ := pairwise_append.mp hasc
    refine ⟨hg, pairwise_map.mpr (hl.imp fun {s s'} hlt => by simpa using hlt), ?_⟩
    intro s hs s' hs'
    obtain ⟨s'', hs'', rfl⟩ := List.mem_map.mp hs'
    simpa using hgl s hs s'' hs''
  · exact (baseByteOffset_syncAt t p.log.active).trans_le h.base_le
  · exact h.syncFn_eq.trans (index_syncAt t p.log.active).symm
  · intro i hi
    exact h.fresh i (by simpa [Proc.syncSegment] using hi)
  · intro s hs
    have hs' : s ∈ p.gone ∨ s ∈ (p.toDrop ++ p.log.sealed).map (syncAt t) := by
      simpa [Proc.older, Proc.syncSegment, mem_append] using hs
    rcases hs' with hgone | hmap
    · exact h.nonempty s (mem_append_left _ hgone)
    · obtain ⟨s', hs', rfl⟩ := List.mem_map.mp hmap
      rw [records_syncAt]
      exact h.nonempty s' (mem_append_right _ hs')

/-- Publishing an offset keeps the shape. -/
theorem commit (h : Shape id₀ p) {n : ℕ} (hbase : p.log.active.baseByteOffset ≤ n)
    (hle : n ≤ p.log.written) (hb : Boundary p.appended n) : Shape id₀ (p.commit n) :=
  { layout := h.layout, ascending := h.ascending, appended_eq := h.appended_eq,
    written_eq := h.written_eq, next_eq := h.next_eq, room := h.room, base_le := hbase,
    committed_le := hle, boundary := hb, syncFn_eq := h.syncFn_eq, fresh := h.fresh,
    nonempty := h.nonempty }

/-- `rotate` appends an empty segment. -/
theorem rotated (h : Shape id₀ p) (hcommitted : p.log.written ≤ p.log.committed)
    (hne : p.log.active.records ≠ []) : Shape id₀ p.rotated := by
  have hall : p.rotated.all = p.all ++ [p.nextSegment] := by
    simp [Proc.rotated, Proc.all, Proc.older]
  -- No file has the name of an index above the active one, so that the new file is empty.
  have hfile : p.nextSegment.f = File.empty := by
    rw [Proc.nextSegment, h.fresh _ (Nat.lt_succ_self _)]
    rfl
  have hrec : p.nextSegment.records = [] := by
    rw [Segment.records, hfile]
    exact codec.records_frames [] (by simp)
  have hclean : p.nextSegment.Clean :=
    Segment.clean_of_data_eq [] (by rw [hfile]; rfl) (by simp) trivial
      (by rw [hfile]; exact le_rfl)
  have holder : p.rotated.older = p.all := by
    simp [Proc.rotated, Proc.all, Proc.older]
  refine
    { layout := ?_
      ascending := ?_
      appended_eq := ?_
      written_eq := h.written_eq
      next_eq := h.next_eq
      room := h.room
      base_le := hcommitted
      committed_le := h.committed_le
      boundary := h.boundary
      syncFn_eq := rfl
      fresh := fun i hi => h.fresh i ((Nat.lt_succ_self _).trans hi)
      nonempty := ?_ }
  · rw [hall, layout_append, ← h.appended_eq]
    exact ⟨h.layout, h.next_eq, by rw [Nat.zero_add]; exact h.written_eq, hclean, trivial⟩
  · rw [hall, Ascending, pairwise_append]
    refine ⟨h.ascending, pairwise_singleton _ _, fun s hs s' hs' => ?_⟩
    rw [mem_singleton.mp hs']
    rcases mem_append.mp hs with holder | hactive
    · exact (h.index_lt holder).trans (Nat.lt_succ_self _)
    · rw [mem_singleton.mp hactive]
      exact Nat.lt_succ_self _
  · rw [hall, stream_append, ← h.appended_eq, stream_cons, hrec]
    simp [Proc.rotated]
  · intro s hs
    rw [holder] at hs
    rcases mem_append.mp hs with holder | hactive
    · exact h.nonempty s holder
    · rw [mem_singleton.mp hactive]
      exact hne

/-- A whole write appends the record to the active segment. -/
theorem wrote (h : Shape id₀ p) {rec : Record} (hfit : Fits rec)
    (hid : rec.msgID.toNat = p.log.nextMsgID) (hroom : p.log.nextMsgID + 1 < 2 ^ 64) :
    Shape id₀ (p.wrote rec) := by
  obtain ⟨hbaseid, hbaseoff, hclean⟩ := h.active
  have hdata := hclean.data_withRecord rec
  have hrec := hclean.records_withRecord hfit
  have hfits : ∀ r ∈ p.log.active.records ++ [rec], Fits r := by
    simpa [or_imp, forall_and] using ⟨hclean.fits, hfit⟩
  -- `nextMsgID` counts all records, hence also goes on where the active segment ends.
  have hnum : Numbered p.log.active.baseMsgID (p.log.active.records ++ [rec]) := by
    refine numbered_append.mpr ⟨hclean.numbered, ?_, trivial⟩
    rw [hid, h.next_eq, h.appended_split, length_append, hbaseid, Nat.add_assoc]
  have hclean' : (p.log.active.withRecord rec).Clean := by
    refine Segment.clean_of_data_eq _ hdata hfits hnum (hclean.synced_le.trans ?_)
    show p.log.active.f.data.length ≤ (p.log.active.f.data ++ codec.frame rec).length
    rw [length_append]
    exact Nat.le_add_right _ _
  have hlen : (codec.frames (p.appended ++ [rec])).length
      = p.log.written + (codec.frame rec).length := by
    rw [codec.frames_append, length_append, h.written_eq]
    simp
  refine
    { layout := ?_
      ascending := ?_
      appended_eq := ?_
      written_eq := hlen.symm
      next_eq := ?_
      room := hroom
      base_le := h.base_le
      committed_le := h.committed_le.trans (Nat.le_add_right _ _)
      boundary := h.boundary.append [rec]
      syncFn_eq := h.syncFn_eq
      fresh := h.fresh
      nonempty := h.nonempty }
  · obtain ⟨holder, -⟩ := layout_append.mp h.layout
    refine layout_append.mpr ⟨holder, hbaseid, ?_, hclean', trivial⟩
    rw [Nat.zero_add]
    exact hbaseoff
  · exact pairwise_append.mpr ⟨(pairwise_append.mp h.ascending).1,
      pairwise_singleton _ _, fun s hs s' hs' => by
        rw [mem_singleton.mp hs']
        exact h.index_lt hs⟩
  · show p.appended ++ [rec] = stream (p.older ++ [p.log.active.withRecord rec])
    rw [stream_append, stream_cons, hrec, stream_nil, append_nil, ← append_assoc,
      ← h.appended_split]
  · show p.log.nextMsgID + 1 = id₀ + (p.appended ++ [rec]).length
    rw [h.next_eq, length_append]
    rfl

end Shape

/-! ## The calls around the log -/

/-- A record that `Append` has stamped with the id `next` and is about to write. -/
structure Pending (next : ℕ) (rec : Record) : Prop where
  fits : Fits rec
  msgID_eq : rec.msgID.toNat = next
  room : next + 1 < 2 ^ 64

/-- What the holder of the mutex relies on. -/
def HolderOk (p : Proc) : Holder → Prop
  | .free => p.toDrop = []
  | .rotateSync rec => p.toDrop = [] ∧ Pending p.log.nextMsgID rec ∧ p.log.active.records ≠ []
  | .rotateCreate rec =>
    p.toDrop = [] ∧ Pending p.log.nextMsgID rec ∧ p.log.active.records ≠ [] ∧
      p.log.written ≤ p.log.committed
  | .write rec => p.toDrop = [] ∧ Pending p.log.nextMsgID rec
  | .fsync rec stop => p.toDrop = [] ∧ Located p.appended (rec, stop) ∧ stop = p.log.written
  | .removing => p.toDrop ≠ []

/-- An offset that the committer may publish: one of the stream's boundaries. -/
def Snap (p : Proc) (snap : ℕ) : Prop := snap ≤ p.log.written ∧ Boundary p.appended snap

variable {id₀ : ℕ} {p : Proc}

/-- Everything that was written may be published. -/
theorem Shape.snap_written (h : Shape id₀ p) : Snap p p.log.written :=
  ⟨le_rfl, h.written_eq ▸ boundary_length p.appended⟩

/-- What the committer relies on between the halves of `flush`. -/
def FlusherOk (p : Proc) : Flusher → Prop
  | .idle => True
  | .syncing snap _ => Snap p snap
  | .publish snap _ => Snap p snap

/-- The invariant of the goroutines that use the log. -/
structure Calls (p : Proc) : Prop where
  holder : HolderOk p p.holder
  flusher : FlusherOk p p.flusher
  /-- Each waiting appender knows where its record ends. -/
  waiting : ∀ w ∈ p.waiting, Located p.appended w
  /-- Each finished append ends at or below `committed`. -/
  acked : ∀ w ∈ p.acked, Located p.appended w ∧ w.2 ≤ p.log.committed

/-- The invariant of a log and the goroutines that use it. -/
structure Inv (id₀ : ℕ) (p : Proc) : Prop where
  shape : Shape id₀ p
  calls : Calls p

variable {p' : Proc}

/-- The shape depends only on the segments as a whole and on the log's counters: not on where the
slice is cut, nor on the goroutines, nor on the committer's error. -/
theorem Shape.of_older (h : Shape id₀ p)
    (hlog : p'.log = { p.log with commitErr := p'.log.commitErr, sealed := p'.log.sealed })
    (holder : p'.older = p.older)
    (hfresh : ∀ i, p.log.active.index < i → p'.strays.find (segmentName i) = none)
    (happended : p'.appended = p.appended) : Shape id₀ p' := by
  have hactive : p'.log.active = p.log.active := by rw [hlog]
  have hall : p'.all = p.all := by rw [Proc.all, holder, hactive, Proc.all]
  have hcommitted : p'.log.committed = p.log.committed := by rw [hlog]
  have hwritten : p'.log.written = p.log.written := by rw [hlog]
  have hnext : p'.log.nextMsgID = p.log.nextMsgID := by rw [hlog]
  have hsync : p'.log.syncFn = p.log.syncFn := by rw [hlog]
  constructor
  · rw [hall]; exact h.layout
  · rw [hall]; exact h.ascending
  · rw [hall, happended]; exact h.appended_eq
  · rw [hwritten, happended]; exact h.written_eq
  · rw [hnext, happended]; exact h.next_eq
  · rw [hnext]; exact h.room
  · rw [hactive, hcommitted]; exact h.base_le
  · rw [hcommitted, hwritten]; exact h.committed_le
  · rw [happended, hcommitted]; exact h.boundary
  · rw [hsync, hactive]; exact h.syncFn_eq
  · rw [hactive]; exact hfresh
  · rw [holder]; exact h.nonempty

/-- A step that leaves the data alone keeps the shape. -/
theorem Shape.congr (h : Shape id₀ p)
    (hlog : p'.log = { p.log with commitErr := p'.log.commitErr, sealed := p'.log.sealed })
    (holder : p'.older = p.older) (hstrays : p'.strays = p.strays)
    (happended : p'.appended = p.appended) : Shape id₀ p' :=
  h.of_older hlog holder (hstrays ▸ h.fresh) happended

/-- A step that only adds to the history of appends and to the two offsets. -/
structure Extends (p p' : Proc) : Prop where
  appended : p.appended <+: p'.appended
  committed : p.log.committed ≤ p'.log.committed
  written : p.log.written ≤ p'.log.written

/-- A step that changes neither the history nor the offsets. -/
theorem Extends.of_eq (happ : p'.appended = p.appended) (hcom : p'.log.committed = p.log.committed)
    (hwri : p'.log.written = p.log.written) : Extends p p' :=
  ⟨happ ▸ prefix_rfl, hcom.ge, hwri.ge⟩

/-- What may be published still may. -/
theorem Snap.extend {snap : ℕ} (h : Snap p snap) (he : Extends p p') : Snap p' snap := by
  obtain ⟨rs, hrs⟩ := he.appended
  exact ⟨h.1.trans he.written, hrs ▸ h.2.append rs⟩

/-- The committer's snapshot stays good. -/
theorem FlusherOk.extend {f : Flusher} (h : FlusherOk p f) (he : Extends p p') :
    FlusherOk p' f := by
  cases f with
  | idle => trivial
  | syncing | publish => exact Snap.extend h he

/-- A located record stays so. -/
theorem Located.extend (h : Located p.appended w) (he : Extends p p') : Located p'.appended w := by
  obtain ⟨rs, hrs⟩ := he.appended
  exact hrs ▸ h.append rs

/-- What the calls know survives a step that extends the log, with a new holder and committer
state, and with the appends that wait or finish because of the step. -/
theorem Calls.extend (h : Calls p) (he : Extends p p') (hholder : HolderOk p' p'.holder)
    (hflusher : FlusherOk p' p'.flusher)
    (hwaiting : ∀ w ∈ p'.waiting, w ∈ p.waiting ∨ Located p'.appended w)
    (hacked : ∀ w ∈ p'.acked, w ∈ p.acked ∨ Located p'.appended w ∧ w.2 ≤ p'.log.committed) :
    Calls p' := by
  refine ⟨hholder, hflusher, fun w hw => ?_, fun w hw => ?_⟩
  · rcases hwaiting w hw with hold | hnew
    · exact (h.waiting w hold).extend he
    · exact hnew
  · rcases hacked w hw with hold | hnew
    · obtain ⟨hloc, hle⟩ := h.acked w hold
      exact ⟨hloc.extend he, hle.trans he.committed⟩
    · exact hnew

/-- The stamped record of an `Append` with room is pending. -/
theorem pending_stamp (hfit : Fits (p.log.stamp rec)) (hroom : p.log.HasRoom (p.log.stamp rec)) :
    Pending p.log.nextMsgID (p.log.stamp rec) := by
  refine ⟨hfit, ?_, hroom.1⟩
  show (UInt64.ofNat p.log.nextMsgID).toNat = p.log.nextMsgID
  rw [UInt64.toNat_ofNat', Nat.mod_eq_of_lt (by have := hroom.1; omega)]

/-- The steps whose write, if any, is whole. -/
def Action.Intact (a : Action) : Prop := ∀ cut, a = .write cut → cut = none

instance : DecidablePred Action.Intact
  | .write none => isTrue (by simp [Action.Intact])
  | .write (some _) => isFalse (by simp [Action.Intact])
  | .append _ | .rotateSync _ | .rotateCreate _ | .fsync _ | .resume _ | .flushBegin
  | .flushSync _ | .flushEnd | .drop _ | .remove _ => isTrue (by simp [Action.Intact])

/-! ## Every step keeps the invariant -/

/-- Cutting the slice moves no segment. -/
theorem older_of_drop (hdrop : p.toDrop = []) (keepIndex : ℕ) :
    p.older = p.gone ++ (p.log.dropped keepIndex ++ p.log.kept keepIndex) := by
  rw [Proc.older, hdrop, nil_append, Log.dropped_append_kept]

/-- Removing a file moves no segment. -/
theorem older_of_remove {rest : List Segment} (hdrop : p.toDrop = s :: rest) :
    p.older = p.gone ++ [s] ++ (rest ++ p.log.sealed) := by
  rw [Proc.older, hdrop, append_assoc]
  rfl

namespace Inv

variable {id₀ : ℕ} {p p' : Proc}

/-- A call that gives the mutex up with an error. -/
theorem fail (h : Inv id₀ p) (rec : Record) (hdrop : p.toDrop = []) : Inv id₀ (p.fail rec) :=
  ⟨h.shape.congr rfl rfl rfl rfl,
    h.calls.extend (.of_eq rfl rfl rfl) hdrop h.calls.flusher (fun _ hw => .inl hw)
      fun _ hw => .inl hw⟩

/-- A call that moves on under the mutex. -/
theorem hold (h : Inv id₀ p) (holder : Holder) (hh : HolderOk p holder) :
    Inv id₀ { p with holder := holder } :=
  ⟨h.shape.congr rfl rfl rfl rfl,
    h.calls.extend (.of_eq rfl rfl rfl) (by cases holder <;> exact hh) h.calls.flusher
      (fun _ hw => .inl hw) fun _ hw => .inl hw⟩

variable {rec : Record}

/-- A call returns success for a record that ends within `committed`. -/
theorem succeed (h : Inv id₀ p) {stop : ℕ} (hdrop : p.toDrop = [])
    (hloc : Located p.appended (rec, stop)) (hle : stop ≤ p.log.committed) :
    Inv id₀ (p.succeed rec stop) := by
  refine ⟨h.shape.congr rfl rfl rfl rfl, h.calls.extend (.of_eq rfl rfl rfl) hdrop
    h.calls.flusher (fun _ hw => .inl hw) fun w hw => ?_⟩
  rcases mem_append.mp hw with hold | hnew
  · exact .inl hold
  · rw [mem_singleton.mp hnew]
    exact .inr ⟨hloc, hle⟩

/-- Publishing an offset of the stream from `committed` on. -/
theorem commit (h : Inv id₀ p) {n : ℕ} (hn : Snap p n) (hle : p.log.committed ≤ n) :
    Inv id₀ (p.commit n) := by
  have he : Extends p (p.commit n) := ⟨prefix_rfl, hle, le_rfl⟩
  refine ⟨h.shape.commit (h.shape.base_le.trans hle) hn.1 hn.2,
    h.calls.extend he ?_ (h.calls.flusher.extend he) (fun _ hw => .inl hw) fun _ hw => .inl hw⟩
  have hholder := h.calls.holder
  show HolderOk (p.commit n) p.holder
  cases hp : p.holder <;> rw [hp] at hholder
  case rotateCreate rec =>
    obtain ⟨hdrop, hpend, hne, hwritten⟩ := hholder
    exact ⟨hdrop, hpend, hne, hwritten.trans hle⟩
  all_goals exact hholder

/-- The durability fence after a whole write. -/
theorem fence (h : Inv id₀ { p with holder := .free })
    (hloc : Located p.appended (rec, p.log.written)) : Inv id₀ (p.fence rec) := by
  have hdrop : p.toDrop = [] := h.calls.holder
  rcases fence_cases p rec with ⟨hle, heq⟩ | heq | heq | ⟨-, heq⟩ | heq <;> rw [heq]
  · exact h.succeed hdrop hloc hle
  · exact h.fail rec hdrop
  · refine ⟨h.shape.congr rfl rfl rfl rfl, h.calls.extend (.of_eq rfl rfl rfl) hdrop
      h.calls.flusher (fun w hw => ?_) fun _ hw => .inl hw⟩
    rcases mem_append.mp hw with hold | hnew
    · exact .inl hold
    · rw [mem_singleton.mp hnew]
      exact .inr hloc
  · exact (h.commit h.shape.snap_written h.shape.committed_le).succeed hdrop hloc le_rfl
  · exact h.hold (.fsync rec p.log.written) ⟨hdrop, hloc, rfl⟩

/-- The write of a pending record. -/
theorem wrote (h : Inv id₀ p) (hdrop : p.toDrop = []) (hp : Pending p.log.nextMsgID rec) :
    Inv id₀ { p.wrote rec with holder := .free } := by
  have he : Extends p { p.wrote rec with holder := .free } :=
    ⟨prefix_append _ _, le_rfl, Nat.le_add_right _ _⟩
  exact ⟨(h.shape.wrote hp.fits hp.msgID_eq hp.room).congr rfl rfl rfl rfl,
    h.calls.extend he hdrop (h.calls.flusher.extend he) (fun _ hw => .inl hw)
      fun _ hw => .inl hw⟩

/-- An fsync changes nothing that a call relies on. -/
theorem syncSegment (h : Inv id₀ p) (t : ℕ) : Inv id₀ (p.syncSegment t) := by
  refine ⟨h.shape.syncSegment t, h.calls.extend (.of_eq rfl rfl rfl) ?_ h.calls.flusher
    (fun _ hw => .inl hw) fun _ hw => .inl hw⟩
  have hholder := h.calls.holder
  show HolderOk (p.syncSegment t) p.holder
  cases hp : p.holder <;> rw [hp] at hholder <;>
    simpa [HolderOk, Proc.syncSegment] using hholder

/-- The committer moves on. -/
theorem flush (h : Inv id₀ p) (flusher : Flusher) (hf : FlusherOk p flusher) :
    Inv id₀ { p with flusher := flusher } :=
  ⟨h.shape.congr rfl rfl rfl rfl,
    h.calls.extend (.of_eq rfl rfl rfl) h.calls.holder (hf.extend (.of_eq rfl rfl rfl))
      (fun _ hw => .inl hw) fun _ hw => .inl hw⟩

/-- A waiting appender leaves the queue. -/
theorem forget (h : Inv id₀ p) (i : ℕ) :
    Inv id₀ { p with waiting := p.waiting.eraseIdx i } :=
  ⟨h.shape.congr rfl rfl rfl rfl,
    h.calls.extend (.of_eq rfl rfl rfl) h.calls.holder h.calls.flusher
      (fun _ hw => .inl (mem_of_mem_eraseIdx hw)) fun _ hw => .inl hw⟩

end Inv

/-- Every step with whole writes keeps the invariant. -/
theorem inv_of_step {a : Action} (ha : a.Intact) (h : Inv id₀ p) (hstep : Step p a p') :
    Inv id₀ p' := by
  -- What a step may rely on is said by where the holder of the mutex and the committer are.
  have hholder := h.calls.holder
  have hflusher := h.calls.flusher
  cases hstep with
  | appendTooLarge hfree =>
    rw [hfree] at hholder
    exact h.fail _ hholder
  | appendRotateSync hfree hroom hfit hrot =>
    rw [hfree] at hholder
    exact h.hold (.rotateSync _)
      ⟨hholder, pending_stamp hfit hroom, h.shape.active_records_ne_nil hrot⟩
  | appendRotateCreate hfree hroom hfit hrot hle =>
    rw [hfree] at hholder
    exact h.hold (.rotateCreate _)
      ⟨hholder, pending_stamp hfit hroom, h.shape.active_records_ne_nil hrot, hle⟩
  | appendWrite hfree hroom hfit =>
    rw [hfree] at hholder
    exact h.hold (.write _) ⟨hholder, pending_stamp hfit hroom⟩
  | rotateSync hh =>
    rw [hh] at hholder
    obtain ⟨hdrop, hp, hne⟩ := hholder
    have hdrop' : (p.syncSegment p.log.active.index).toDrop = [] := by
      simp [Proc.syncSegment, hdrop]
    exact ((h.syncSegment p.log.active.index).commit h.shape.snap_written
      h.shape.committed_le).hold (.rotateCreate _)
      ⟨hdrop', hp, by simpa [Proc.syncSegment, Proc.commit] using hne, le_rfl⟩
  | rotateSyncFail hh | rotateCreateFail hh | fsyncFail hh =>
    rw [hh] at hholder
    exact h.fail _ hholder.1
  | rotateCreate hh =>
    rw [hh] at hholder
    obtain ⟨hdrop, hp, hne, hle⟩ := hholder
    exact ⟨(h.shape.rotated hle hne).congr rfl rfl rfl rfl,
      h.calls.extend (.of_eq rfl rfl rfl) ⟨hdrop, hp⟩ hflusher (fun _ hw => .inl hw)
        fun _ hw => .inl hw⟩
  | @write rec hh =>
    -- The record ends the stream, whatever the sync mode then does.
    rw [hh] at hholder
    have hwrote := h.wrote hholder.1 hholder.2
    refine hwrote.fence ?_
    rw [hwrote.shape.written_eq]
    exact located_last p.appended rec
  | writeTorn => cases ha _ rfl
  | fsync hh =>
    rw [hh] at hholder
    obtain ⟨hdrop, hloc, rfl⟩ := hholder
    have hdrop' : (p.syncSegment p.log.syncFn).toDrop = [] := by
      simp [Proc.syncSegment, hdrop]
    exact ((h.syncSegment p.log.syncFn).commit h.shape.snap_written
      h.shape.committed_le).succeed hdrop' hloc le_rfl
  | @resume i rec stop hfree hi hle =>
    rw [hfree] at hholder
    have hloc := h.calls.waiting _ (mem_of_getElem? hi)
    exact (h.forget i).succeed hholder hloc hle
  | @resumeFail i rec stop hfree =>
    rw [hfree] at hholder
    exact (h.forget i).fail rec hholder
  | flushBegin => exact h.flush (.syncing _ _) h.shape.snap_written
  | @flushSync snap target hf =>
    rw [hf] at hflusher
    exact (h.syncSegment target).flush (.publish snap true) hflusher
  | @flushSyncFail ok snap target hf =>
    rw [hf] at hflusher
    exact h.flush (.publish snap false) hflusher
  | @flushEnd snap hfree hf =>
    rw [hf] at hflusher
    split_ifs with hlt
    · exact (h.commit hflusher hlt.le).flush .idle trivial
    · exact h.flush .idle trivial
  | flushEndFail =>
    exact ⟨h.shape.congr rfl rfl rfl rfl, h.calls.extend (.of_eq rfl rfl rfl)
      hholder trivial (fun _ hw => .inl hw) fun _ hw => .inl hw⟩
  | dropNone => exact h
  | @drop keepIndex hfree hne =>
    rw [hfree] at hholder
    exact ⟨h.shape.congr rfl (older_of_drop hholder keepIndex).symm rfl rfl,
      h.calls.extend (.of_eq rfl rfl rfl) hne hflusher (fun _ hw => .inl hw)
        fun _ hw => .inl hw⟩
  | @remove ok s rest hh hdrop =>
    have holder := older_of_remove hdrop
    have hs : s ∈ p.older := by
      rw [holder]
      simp
    refine ⟨h.shape.of_older rfl holder.symm (fun i hi => ?_) rfl, h.calls.extend
      (.of_eq rfl rfl rfl) ?_ hflusher (fun _ hw => .inl hw) fun _ hw => .inl hw⟩
    · -- A file that could not be removed has an index below the active one.
      have hne : (segmentName i == segmentName s.index) = false := beq_false_of_ne fun heq =>
        absurd (segmentName_injective heq) ((h.shape.index_lt hs).trans hi).ne'
      have hfind := h.shape.fresh i hi
      cases ok
      · simpa [Dir.find, lookup_append, lookup_cons, hne] using hfind
      · exact hfind
    · by_cases hrest : rest = []
      · simp [hrest, HolderOk]
      · simp [hrest, HolderOk]

/-- A run with whole writes keeps the invariant. -/
theorem inv_of_run {ok : Proc → Action → Prop} (hok : ∀ p a, ok p a → a.Intact) {as : List Action}
    (h : Inv id₀ p) (hrun : Run step ok p as p') : Inv id₀ p' :=
  hrun.invariant h fun _ _ _ ha hi hstep => inv_of_step (hok _ _ ha) hi (step_sound hstep)

/-! ## A log that was just opened -/

/-- The process that `Open` starts over a layout. -/
theorem inv_start {mode : SyncMode} {segmentBytes : ℕ} {strays : Dir} {sealed : List Segment}
    {active : Segment} (visited : List Record) (id : ℕ)
    (hlay : Layout (firstID visited) 0 (sealed ++ [active]))
    (hasc : Ascending (sealed ++ [active])) (hstream : visited = stream (sealed ++ [active]))
    (hnum : Numbered id visited) (hroom : id + visited.length < 2 ^ 64)
    (hfresh : ∀ i, active.index < i → strays.find (segmentName i) = none)
    (hne : ∀ s ∈ sealed, s.records ≠ []) :
    Inv (firstID visited)
      (Proc.start mode segmentBytes strays sealed active
        ⟨(codec.frames visited).length, visited⟩) := by
  have hnext := nextIDAfter_of_numbered hnum hroom
  have hbase : active.baseByteOffset ≤ (codec.frames visited).length := by
    rw [(Layout.base hlay).2, hstream, stream_append, codec.frames_append, length_append,
      Nat.zero_add]
    exact Nat.le_add_right _ _
  have hnextlt : firstID visited + visited.length < 2 ^ 64 := by
    by_cases hnil : visited = []
    · rw [hnil]
      exact Nat.two_pow_pos 64
    · rwa [firstID_of_numbered hnum hnil]
  refine ⟨?_, ?_⟩
  · exact
      { layout := hlay, ascending := hasc, appended_eq := hstream, written_eq := rfl
        next_eq := hnext, room := hnext.trans_lt hnextlt, base_le := hbase
        committed_le := le_rfl, boundary := boundary_length visited, syncFn_eq := rfl
        fresh := hfresh, nonempty := hne }
  · exact ⟨rfl, trivial, by simp [Proc.start], by simp [Proc.start]⟩

end ToyMQ.Wal
