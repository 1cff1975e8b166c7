import ToyMQ.Wal.Log

/-!
# Opening a log directory

`openLog` follows `Open` and `recover`: it discovers the segment files, scans each of them from
the oldest on, hands every record to the recovery visitor, and cuts a torn tail off the active
segment. Damage in a sealed segment is an error. The id and the offset where the log continues
come from the records that were found.

The visitor's records are kept as a list, and the source's pair `lastID`, `anyRecord` is the last
element of that list.

`openLog_spec` is what the rest of the development uses: over clean sealed segments and an active
file cut at any byte, opening succeeds, visits exactly the records that lie wholly before the cut,
and places the segments one after the other.
-/

namespace ToyMQ.Wal

open Lib List

/-! ## Discovery -/

/-- A segment as `discoverSegments` opens it, before recovery places it in the stream. -/
def Segment.found (index : ℕ) (f : File) : Segment := ⟨index, 0, 0, 0, 0, f⟩

/-- `discoverSegments`: the segment files of a directory, in ascending order of their index. -/
def discoverSegments (d : Dir) : List Segment :=
  (d.filterMap fun e => (segmentIndex e.1).map fun i => Segment.found i e.2).insertionSort
    fun s s' => s.index ≤ s'.index

/-! ## The recovery scan -/

/-- The state of the recovery loop. -/
structure Scan where
  /-- The durable bytes of the segments scanned so far. -/
  globalPos : ℕ
  /-- The records handed to the visitor so far. -/
  visited : List Record
deriving DecidableEq, Repr

def nextIDAfter (visited : List Record) : ℕ :=
  match visited.getLast? with
  | none => 0
  | some rec => (rec.msgID + 1).toNat

/-- Why a directory cannot be opened. -/
structure OpenError where
  /-- The sealed segment that is damaged. -/
  index : ℕ
  /-- The offset of the bad frame. -/
  offset : ℕ
  /-- What the frame fails with. -/
  cause : DecodeError
deriving DecidableEq, Repr

/-- A segment with its place in the stream and the two maxima rebuilt from its records. -/
def Segment.placed (s : Segment) (acc : Scan) (recs : List Record) : Segment :=
  { s with
    baseByteOffset := acc.globalPos
    baseMsgID :=
      match recs with
      | [] => nextIDAfter acc.visited
      | rec :: _ => rec.msgID.toNat
    maxTsNs := recs.foldl (fun m rec => if m < rec.tsNs then rec.tsNs else m) s.maxTsNs
    maxVisibleAtNs :=
      recs.foldl (fun m rec => if m < rec.visibleAtNs then rec.visibleAtNs else m)
        s.maxVisibleAtNs }

/-- One turn of `recover`: `recoverSegment`, then the placement of the segment. -/
def recoverSegment (acc : Scan) (s : Segment) (isActive : Bool) :
    Except OpenError (Segment × Scan) :=
  let res := codec.scan s.f.data
  let recs := res.1.map Prod.fst
  let localGood := (res.1.map Prod.snd).sum
  let acc' : Scan := ⟨acc.globalPos + localGood, acc.visited ++ recs⟩
  if res.2 = .eof then .ok (s.placed acc recs, acc')
  else if isActive then .ok ({ s with f := s.f.truncate localGood }.placed acc recs, acc')
  else .error ⟨s.index, localGood, res.2⟩

/-- `recover` over the sealed segments. -/
def recoverSealed (acc : Scan) : List Segment → Except OpenError (List Segment × Scan)
  | [] => .ok ([], acc)
  | s :: rest =>
    match recoverSegment acc s false with
    | .error e => .error e
    | .ok (s', acc') =>
      match recoverSealed acc' rest with
      | .error e => .error e
      | .ok (rest', acc'') => .ok (s' :: rest', acc'')

/-- The process that `Open` starts from its recovered segments. -/
def Proc.start (mode : SyncMode) (segmentBytes : ℕ) (strays : Dir) (sealed : List Segment)
    (active : Segment) (acc : Scan) : Proc :=
  { log :=
      { sealed, active, nextMsgID := nextIDAfter acc.visited, written := acc.globalPos,
        committed := acc.globalPos, syncMode := mode, syncFn := active.index, commitErr := false,
        segmentBytes }
    holder := .free, waiting := [], flusher := .idle, toDrop := [], gone := [], strays
    appended := acc.visited, acked := [], failed := [] }

/-- `Open`: the process over a directory, whose `appended` is what the visitor saw. -/
def openLog (mode : SyncMode) (segmentBytes : ℕ) (d : Dir) : Except OpenError Proc :=
  let found := discoverSegments d
  let active := found.getLast?.getD (Segment.found 0 File.empty)
  let strays := d.filter fun e => (segmentIndex e.1).isNone
  match recoverSealed ⟨0, []⟩ found.dropLast with
  | .error e => .error e
  | .ok (sealed, acc) =>
    match recoverSegment acc active true with
    | .error e => .error e
    | .ok (active, acc) => .ok (Proc.start mode segmentBytes strays sealed active acc)

variable {d : Dir}

/-- Whatever `Open` finds, it starts a process on it. -/
theorem start_of_openLog {mode : SyncMode} {segmentBytes : ℕ} {p : Proc}
    (h : openLog mode segmentBytes d = .ok p) :
    ∃ strays sealed active acc, p = .start mode segmentBytes strays sealed active acc := by
  dsimp only [openLog] at h
  split at h
  · cases h
  · split at h
    · cases h
    · cases h
      exact ⟨_, _, _, _, rfl⟩

def Segment.entry (s : Segment) : Bytes × File := (segmentName s.index, s.f)

/-- The directory of a running process. -/
def Proc.dir (p : Proc) : Dir := p.strays ++ p.linked.map Segment.entry

/-! ## What discovery finds -/

def Ascending (segs : List Segment) : Prop := segs.Pairwise fun s s' => s.index < s'.index

variable {segs : List Segment} {s : Segment} {rs : List Record} {k : ℕ} {f : File}

/-- Of the files of segments in ascending order, discovery finds those whose index has at most six
digits, in that order; other entries that are no segment names do not matter. -/
theorem discoverSegments_entries {strays : Dir} (hstrays : ∀ e ∈ strays, segmentIndex e.1 = none)
    (hasc : Ascending segs) :
    discoverSegments (strays ++ segs.map Segment.entry)
      = (segs.filter fun s => s.index < nameLimit).map fun s => Segment.found s.index s.f := by
  have hpick : (segs.map Segment.entry).filterMap
        (fun e => (segmentIndex e.1).map fun i => Segment.found i e.2)
      = (segs.filter fun s => s.index < nameLimit).map fun s => Segment.found s.index s.f := by
    clear hasc
    induction segs with
    | nil => rfl
    | cons s segs ih =>
      rw [map_cons, filterMap_cons, ih]
      by_cases hlt : s.index < nameLimit
      · rw [filter_cons_of_pos (by simpa using hlt), Segment.entry,
          segmentIndex_segmentName hlt]
        rfl
      · rw [filter_cons_of_neg (by simpa using hlt), Segment.entry,
          segmentIndex_segmentName_of_le (Nat.le_of_not_lt hlt)]
        rfl
  have hnone : strays.filterMap (fun e => (segmentIndex e.1).map fun i => Segment.found i e.2)
      = [] := by
    rw [filterMap_eq_nil_iff]
    intro e he
    rw [hstrays e he, Option.map_none]
  rw [discoverSegments, filterMap_append, hnone, hpick, nil_append]
  apply List.Pairwise.insertionSort_eq
  refine pairwise_map.mpr ((hasc.filter _).imp fun {s s'} hlt => ?_)
  exact hlt.le

/-! ## What the scan finds -/

@[simp]
theorem Segment.f_placed (s : Segment) (acc : Scan) (recs : List Record) :
    (s.placed acc recs).f = s.f := rfl

@[simp]
theorem Segment.index_placed (s : Segment) (acc : Scan) (recs : List Record) :
    (s.placed acc recs).index = s.index := rfl

@[simp]
theorem Segment.records_placed (s : Segment) (acc : Scan) (recs : List Record) :
    (s.placed acc recs).records = s.records := rfl

/-- A file of whole frames is recovered as it is. -/
theorem recoverSegment_of_frames (acc : Scan) (isActive : Bool) (hdata : s.f.data = codec.frames rs)
    (hfit : ∀ r ∈ rs, Fits r) :
    recoverSegment acc s isActive =
      .ok (s.placed acc rs,
        ⟨acc.globalPos + (codec.frames rs).length, acc.visited ++ rs⟩) := by
  have hscan : codec.scan s.f.data = (codec.sized rs, .eof) := by
    rw [hdata]
    exact codec.scan_frames rs hfit
  simp only [recoverSegment, hscan, codec.map_fst_sized, codec.sum_snd_sized, if_true]

/-- The active file, cut at any byte, is recovered with the records wholly before the cut, and its
torn tail is cut off. -/
theorem recoverSegment_of_take (acc : Scan) (hdata : s.f.data = (codec.frames rs).take k)
    (hfit : ∀ r ∈ rs, Fits r) (hsynced : s.f.synced ≤ s.f.data.length) :
    recoverSegment acc s true =
      .ok ({ s with f := s.f.truncate (codec.frames (rs.take (codec.whole k rs))).length }.placed
          acc (rs.take (codec.whole k rs)),
        ⟨acc.globalPos + (codec.frames (rs.take (codec.whole k rs))).length,
          acc.visited ++ rs.take (codec.whole k rs)⟩) := by
  have hscan := codec.scan_take_frames k rs hfit
  rw [← hdata] at hscan
  simp only [recoverSegment, hscan, codec.map_fst_sized, codec.sum_snd_sized, if_true]
  by_cases hcut : s.f.data.length = (codec.frames (rs.take (codec.whole k rs))).length
  · -- On a boundary nothing is truncated.
    have hkeep : s.f.truncate (codec.frames (rs.take (codec.whole k rs))).length = s.f := by
      rw [File.truncate, ← hcut, take_length, min_eq_left hsynced]
    rw [if_pos hcut, codec_eof, if_pos rfl, hkeep]
  · rw [if_neg hcut, codec_torn, if_neg (by decide)]

/-- The bytes that recovery leaves in the active file. -/
theorem data_truncate_of_take (hdata : f.data = (codec.frames rs).take k) :
    (f.truncate (codec.frames (rs.take (codec.whole k rs))).length).data
      = codec.frames (rs.take (codec.whole k rs)) := by
  obtain ⟨part, hcut, -⟩ := codec.take_frames k rs
  rw [File.truncate, hdata, hcut, take_left]

/-- The id that a recovered stream starts at; 0 when no record was found. -/
def firstID (visited : List Record) : ℕ :=
  match visited with
  | [] => 0
  | rec :: _ => rec.msgID.toNat

/-- Numbered records start at their first id. -/
theorem firstID_of_numbered {id : ℕ} (hnum : Numbered id rs) (hne : rs ≠ []) : firstID rs = id := by
  cases rs with
  | nil => exact absurd rfl hne
  | cons => exact hnum.1

/-- The id after numbered records. -/
theorem nextIDAfter_of_numbered {id : ℕ} (hnum : Numbered id rs) (hroom : id + rs.length < 2 ^ 64) :
    nextIDAfter rs = firstID rs + rs.length := by
  by_cases hne : rs = []
  · rw [hne]
    rfl
  have hlen : 0 < rs.length := length_pos_iff.mpr hne
  have hlast : (rs.getLast hne).msgID.toNat = id + (rs.length - 1) := by
    apply hnum.msgID_eq
    rw [← getLast?_eq_getElem?, getLast?_eq_getLast_of_ne_nil hne]
  rw [nextIDAfter, getLast?_eq_getLast_of_ne_nil hne, firstID_of_numbered hnum hne]
  show ((rs.getLast hne).msgID + 1).toNat = id + rs.length
  rw [UInt64.toNat_add, hlast]
  show (id + (rs.length - 1) + 1) % 2 ^ 64 = id + rs.length
  rw [Nat.mod_eq_of_lt (by omega)]
  omega

/-- A sealed segment that recovery accepts as it is. -/
structure Segment.Whole (s : Segment) : Prop where
  /-- The file is exactly the frames of its records. -/
  data_eq : s.f.data = codec.frames s.records
  /-- Every record fits a frame. -/
  fits : ∀ r ∈ s.records, Fits r
  /-- There is a record. -/
  ne_nil : s.records ≠ []
  /-- What is durable is part of the file. -/
  synced_le : s.f.synced ≤ s.f.data.length

/-- A placed segment of numbered records is clean. -/
theorem Segment.clean_placed (acc : Scan) {id : ℕ} (hdata : s.f.data = codec.frames rs)
    (hfit : ∀ r ∈ rs, Fits r) (hnum : Numbered id rs)
    (hbase : rs = [] → nextIDAfter acc.visited = id) (hsynced : s.f.synced ≤ s.f.data.length) :
    (s.placed acc rs).baseMsgID = id ∧ (s.placed acc rs).Clean := by
  have hid : (s.placed acc rs).baseMsgID = id := by
    cases rs with
    | nil => exact hbase rfl
    | cons => exact hnum.1
  exact ⟨hid, clean_of_data_eq rs hdata hfit (hid ▸ hnum) hsynced⟩

/-- Sealed segments are kept as they are, one after the other. -/
theorem recoverSealed_spec {id : ℕ} (acc : Scan) (hwhole : ∀ s ∈ segs, s.Whole)
    (hnum : Numbered id (stream segs)) :
    ∃ segs', recoverSealed acc segs =
        .ok (segs', ⟨acc.globalPos + (codec.frames (stream segs)).length,
          acc.visited ++ stream segs⟩) ∧
      Layout id acc.globalPos segs' ∧
      segs'.map (fun s => (s.index, s.f)) = segs.map (fun s => (s.index, s.f)) ∧
      stream segs' = stream segs := by
  induction segs generalizing id acc with
  | nil => exact ⟨[], by simp [recoverSealed], trivial, rfl, rfl⟩
  | cons s segs ih =>
    obtain ⟨hs, hrest⟩ := forall_mem_cons.mp hwhole
    obtain ⟨hnums, hnumrest⟩ := numbered_append.mp hnum
    obtain ⟨hid, hclean⟩ := Segment.clean_placed acc hs.data_eq hs.fits hnums
      (fun hnil => absurd hnil hs.ne_nil) hs.synced_le
    obtain ⟨segs', hrec, hlay, hmap, hstream⟩ :=
      ih ⟨acc.globalPos + (codec.frames s.records).length, acc.visited ++ s.records⟩ hrest
        hnumrest
    refine ⟨s.placed acc s.records :: segs', ?_, ⟨hid, rfl, hclean, ?_⟩, ?_, ?_⟩
    · rw [recoverSealed, recoverSegment_of_frames acc false hs.data_eq hs.fits]
      simp [hrec, Nat.add_assoc]
    · rw [Segment.records_placed, Segment.f_placed, hs.data_eq]
      exact hlay
    · simpa using hmap
    · simp [hstream]

variable {sealed : List Segment}

/-- Opening a directory whose sealed segments are whole and whose active file is cut at any byte:
the records before the cut are visited, the torn tail is cut off, and the segments are placed one
after the other, from the first id found on. -/
theorem openLog_spec {active : Segment} {visited : List Record} {id : ℕ} (mode : SyncMode)
    (segmentBytes : ℕ) (hfound : discoverSegments d = sealed ++ [active])
    (hwhole : ∀ s ∈ sealed, s.Whole) (hdata : active.f.data = (codec.frames rs).take k)
    (hfit : ∀ r ∈ rs, Fits r) (hsynced : active.f.synced ≤ active.f.data.length)
    (hvisited : visited = stream sealed ++ rs.take (codec.whole k rs)) (hnum : Numbered id visited)
    (hroom : id + visited.length < 2 ^ 64) :
    ∃ sealed' active', openLog mode segmentBytes d =
        .ok (Proc.start mode segmentBytes (d.filter fun e => (segmentIndex e.1).isNone) sealed'
          active' ⟨(codec.frames visited).length, visited⟩) ∧
      Layout (firstID visited) 0 (sealed' ++ [active']) ∧
      sealed'.map (fun s => (s.index, s.f)) = sealed.map (fun s => (s.index, s.f)) ∧
      stream sealed' = stream sealed ∧
      active'.index = active.index ∧
      active'.f = active.f.truncate (codec.frames (rs.take (codec.whole k rs))).length ∧
      active'.records = rs.take (codec.whole k rs) := by
  -- The ids that recovery assigns do not depend on where the numbering is said to start.
  have hnum' : Numbered (firstID visited) visited := by
    by_cases hnil : visited = []
    · rw [hnil]
      trivial
    · rwa [firstID_of_numbered hnum hnil]
  rw [hvisited] at hnum'
  obtain ⟨hnums, hnumcut⟩ := numbered_append.mp hnum'
  rw [← hvisited] at hnums hnumcut
  obtain ⟨sealed', hrec, hlay, hmap, hstream⟩ := recoverSealed_spec ⟨0, []⟩ hwhole hnums
  have hfitcut : ∀ r ∈ rs.take (codec.whole k rs), Fits r := fun r hr =>
    hfit r (mem_of_mem_take hr)
  have hdatacut := data_truncate_of_take hdata
  have hbase : rs.take (codec.whole k rs) = [] →
      nextIDAfter (stream sealed) = firstID visited + (stream sealed).length := by
    intro hnil
    rw [hnil, append_nil] at hvisited
    rw [← hvisited]
    exact nextIDAfter_of_numbered hnum hroom
  let cut : Segment :=
    { active with f := active.f.truncate (codec.frames (rs.take (codec.whole k rs))).length }
  let acc : Scan := ⟨(codec.frames (stream sealed)).length, stream sealed⟩
  obtain ⟨hid, hclean⟩ := Segment.clean_placed (s := cut) acc hdatacut hfitcut hnumcut
    hbase (by rw [hdatacut]; exact min_le_right _ _)
  refine ⟨sealed', cut.placed acc (rs.take (codec.whole k rs)), ?_,
    layout_append.mpr ⟨hlay, ?_⟩, hmap, hstream, rfl, rfl,
    Segment.records_of_data_eq hdatacut hfitcut⟩
  · simp only [openLog, hfound, dropLast_concat, getLast?_concat, Option.getD_some, hrec,
      recoverSegment_of_take _ hdata hfit hsynced, hvisited, codec.frames_append,
      length_append, Nat.zero_add, nil_append, cut, acc]
  · rw [hstream]
    exact ⟨hid, (Nat.zero_add _).symm, hclean, trivial⟩

/-- Opening a directory again after recovery has cut the torn tail off the active file gives the
same result: the sealed files are as they were, and the cut file ends on a frame. -/
theorem openLog_truncated {d' : Dir} {i : ℕ} (mode : SyncMode) (segmentBytes : ℕ)
    (hfound : discoverSegments d = sealed ++ [Segment.found i f])
    (hfound' : discoverSegments d' = sealed ++ [Segment.found i
      (f.truncate (codec.frames (rs.take (codec.whole k rs))).length)])
    (hstrays : d'.filter (fun e => (segmentIndex e.1).isNone)
      = d.filter (fun e => (segmentIndex e.1).isNone)) (hdata : f.data = (codec.frames rs).take k)
    (hfit : ∀ r ∈ rs, Fits r) (hsynced : f.synced ≤ f.data.length) :
    openLog mode segmentBytes d' = openLog mode segmentBytes d := by
  have hfitcut : ∀ r ∈ rs.take (codec.whole k rs), Fits r := fun r hr =>
    hfit r (mem_of_mem_take hr)
  have hagain : ∀ acc : Scan, recoverSegment acc (Segment.found i
        (f.truncate (codec.frames (rs.take (codec.whole k rs))).length)) true
      = recoverSegment acc (Segment.found i f) true := fun acc => by
    rw [recoverSegment_of_frames acc true (data_truncate_of_take hdata) hfitcut,
      recoverSegment_of_take acc hdata hfit hsynced]
    rfl
  simp only [openLog, hfound, hfound', hstrays, dropLast_concat, getLast?_concat,
    Option.getD_some, hagain]

end ToyMQ.Wal
