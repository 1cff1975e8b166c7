import ToyMQ.Broker.TopicDirs
import ToyMQ.Wal.Recovery

/-!
# Interrupted topic creation

`openTopicLocked` makes the directory of a topic, writes its `meta.json` when there is more than one
partition, and opens the partitions one by one. A crash or an error can stop it between any two
operations of the file system, and within the write of the file.

`creationOps` are the operations in their order, a write by its bytes, and `stoppedAt` is the disk
after the first `k` of them. `found_before` to `found_written` say what `topicPartitionCount` finds
after each. The creation can be repeated unless the count that is found is wrong
(`Fresh.allOrNothing`). `Shows.create` says that all operations together are what
`TopicDirs.openTopicLocked` records.
-/

namespace ToyMQ.Broker

open Lib List

/-! ## The disk -/

/-- Directories, the ones above them included, and files by their paths. -/
structure Disk where
  dirs : List Path
  files : AList fun _ : Path => Bytes

/-- Operations of the file system that are done or not done. -/
inductive DiskOp where
  /-- One directory of an `os.MkdirAll`, if it is not there. -/
  | mkdir (p : Path)
  /-- The start of an `os.WriteFile`: the file is there and empty. -/
  | create (p : Path)
  /-- One byte of an `os.WriteFile`. -/
  | write (p : Path) (b : UInt8)
  /-- `wal.Open` on a directory: without a segment file the first one is created. -/
  | openSegment (dir : Path)
deriving DecidableEq

namespace Disk

/-- Whether a path is a directory, as the root and the working directory always are. -/
def isDir (d : Disk) (p : Path) : Bool := p.elems == [] || d.dirs.any fun q => p.AtOrAbove q

/-- The files in a directory. -/
def list (d : Disk) (dir : Path) : Wal.Dir :=
  d.files.entries.filterMap fun e => (dir.entryToward e.1).bind fun name =>
    if e.1 = { dir with elems := dir.elems ++ [name] } then some (name, ⟨e.2, 0⟩) else none

def apply (d : Disk) : DiskOp → Disk
  | .mkdir p => { d with dirs := p :: d.dirs }
  | .create p => { d with files := d.files.insert p [] }
  | .write p b => { d with files := d.files.insert p ((d.files.lookup p).getD [] ++ [b]) }
  | .openSegment dir =>
    if Wal.discoverSegments (d.list dir) = [] then
      { d with files := d.files.insert (walFile dir 0) [] }
    else d

def applyAll (d : Disk) (ops : List DiskOp) : Disk := ops.foldl apply d

end Disk

/-- `os.MkdirAll`, from the top. -/
def mkdirs (p : Path) : List DiskOp :=
  (List.range p.elems.length).map fun i => .mkdir { p with elems := p.elems.take (i + 1) }

/-- `os.WriteFile`. -/
def writeFile (p : Path) (data : Bytes) : List DiskOp := .create p :: data.map (.write p)

/-! ## The descriptor of a topic -/

/-- The text `meta.json`. -/
def metaName : Bytes := [109, 101, 116, 97, 46, 106, 115, 111, 110]

def metaFile (topicDir : Path) : Path := topicDir.join metaName

/-- The text `{"partitions":`. -/
def metaHead : Bytes := [123, 34, 112, 97, 114, 116, 105, 116, 105, 111, 110, 115, 34, 58]

/-- What `json.Marshal` makes of a `topicMeta`. -/
def metaText (partitions : ℕ) : Bytes := metaHead ++ (paddedDecimal 1 partitions ++ [125])

/-- `json.Unmarshal` into a `topicMeta`, for what `json.Marshal` writes and for parts of it. -/
def parseMeta (data : Bytes) : Option ℕ :=
  let rest := data.drop metaHead.length
  let digits := rest.takeWhile isDigit
  if metaHead <+: data ∧ digits ≠ [] ∧ rest.drop digits.length = [125] then
    some (digitsValue digits)
  else none

/-- The text is read back. -/
theorem parseMeta_metaText (n : ℕ) : parseMeta (metaText n) = some n := by
  have hdigits : (paddedDecimal 1 n ++ [125]).takeWhile isDigit = paddedDecimal 1 n := by
    rw [takeWhile_append_of_pos fun b hb => isDigit_of_mem_paddedDecimal hb]
    exact append_nil _
  unfold parseMeta metaText
  dsimp only
  rw [drop_left, hdigits, drop_left,
    if_pos ⟨prefix_append _ _, paddedDecimal_ne_nil n, rfl⟩, digitsValue_paddedDecimal]

theorem parseMeta_take {n k : ℕ} (hk : k < (metaText n).length) :
    parseMeta ((metaText n).take k) = none := by
  refine if_neg fun h => ?_
  have hbrace : (125 : UInt8) ∈ ((metaText n).take k).drop metaHead.length :=
    mem_of_mem_drop (h.2.2 ▸ mem_singleton_self _)
  have hlen : k - metaHead.length ≤ (paddedDecimal 1 n).length := by
    simp only [metaText, length_append, length_singleton] at hk
    omega
  rw [drop_take, metaText, drop_left, take_append_of_le_length hlen] at hbrace
  exact absurd (isDigit_of_mem_paddedDecimal (mem_of_mem_take hbrace)) (by decide)

/-! ## Opening and creating a topic -/

inductive CreateError where
  /-- The `meta.json` does not parse. -/
  | parseMeta
  | badMeta (partitions : ℤ)
  | topicExists (count want : ℤ)
  /-- The log of a partition is damaged. -/
  | wal (e : Wal.OpenError)
  /-- The `offsets.json` of a partition does not parse. -/
  | offsets
deriving DecidableEq

/-- The options of a broker that opening a topic reads, with the reader of `offsets.json`. -/
structure OpenOptions where
  config : Config
  mode : Wal.SyncMode
  segmentBytes : ℕ
  decodes : Bytes → Bool

/-- The operations of opening the log in a directory. -/
def openOps (dir : Path) : List DiskOp := mkdirs dir ++ [.openSegment dir]

/-- The operations of `writeTopicMeta`. -/
def metaOps (topicDir : Path) (partitions : ℕ) : List DiskOp :=
  mkdirs topicDir ++ writeFile (metaFile topicDir) (metaText partitions)

namespace Disk

variable (o : OpenOptions)

/-- `topicPartitionCount`: none for a topic that is not on disk. -/
def topicPartitionCount (d : Disk) (topicDir : Path) : Except CreateError (Option ℤ) :=
  match d.files.lookup (metaFile topicDir) with
  | some data =>
    match parseMeta data with
    | none => .error .parseMeta
    | some partitions =>
      if (partitions : ℤ) < 1 then .error (.badMeta partitions) else .ok (some partitions)
  | none => .ok (if d.isDir topicDir then some 1 else none)

/-- `openPartition`. -/
def openPartition (d : Disk) (dir : Path) : Except CreateError Disk :=
  let d := d.applyAll (openOps dir)
  match Wal.openLog o.mode o.segmentBytes (d.list dir) with
  | .error e => .error (.wal e)
  | .ok _ =>
    match d.files.lookup (offsetsFile dir) with
    | none => .ok d
    | some data => if o.decodes data then .ok d else .error .offsets

/-- The loop of `openTopicLocked`, with the number of partitions that it opens. -/
def openPartitions (d : Disk) (topicDir : Path) (count : ℕ) : Except CreateError (ℕ × Disk) :=
  ((partitionDirs topicDir count).foldlM (openPartition o) d).map fun d => (count, d)

/-- `openTopicLocked`, when no operation fails. -/
def openTopicLocked (d : Disk) (topicDir : Path) (wantCount : ℤ) :
    Except CreateError (ℕ × Disk) :=
  match d.topicPartitionCount topicDir with
  | .error e => .error e
  | .ok (some diskCount) =>
    if 0 < wantCount ∧ diskCount ≠ wantCount then .error (.topicExists diskCount wantCount)
    else d.openPartitions o topicDir (if diskCount < 1 then 1 else diskCount).toNat
  | .ok none =>
    let count := o.config.partitionCount wantCount
    let d := if 1 < count then d.applyAll (metaOps topicDir count) else d
    d.openPartitions o topicDir count

/-- `createTopicLocal` on a broker that has started on this disk: it has opened the topic if there
was a directory. -/
def createAfterRestart (d : Disk) (topicDir : Path) (partitions : ℤ) :
    Except CreateError (ℕ × Disk) :=
  if d.isDir topicDir then
    match d.openTopicLocked o topicDir 0 with
    | .error e => .error e
    | .ok (count, d) =>
      if (count : ℤ) ≠ partitions then .error (.topicExists count partitions) else .ok (count, d)
  else d.openTopicLocked o topicDir partitions

end Disk

/-- The operations of `openTopicLocked` for a topic that is not on disk. -/
def creationOps (topicDir : Path) (count : ℕ) : List DiskOp :=
  (if 1 < count then metaOps topicDir count else []) ++
    (partitionDirs topicDir count).flatMap openOps

/-- The disk when the creation is interrupted after `k` operations. -/
def Disk.stoppedAt (d : Disk) (topicDir : Path) (count k : ℕ) : Disk :=
  d.applyAll ((creationOps topicDir count).take k)

/-- There is nothing at the place of a topic. -/
structure Disk.Absent (d : Disk) (topicDir : Path) : Prop where
  elems : topicDir.elems ≠ []
  dirs : ∀ q ∈ d.dirs, ¬ topicDir.AtOrAbove q
  files : ∀ p ∈ d.files, ¬ topicDir.AtOrAbove p

/-- The topic is not on disk or has all its partitions, and it can be created again, by the same
process or after a restart. -/
structure AllOrNothing (o : OpenOptions) (d : Disk) (topicDir : Path) (count : ℕ) : Prop where
  found : d.topicPartitionCount topicDir = .ok none ∨
    d.topicPartitionCount topicDir = .ok (some (count : ℤ))
  again : ∃ d', d.openTopicLocked o topicDir count = .ok (count, d')
  restarted : ∃ d', d.createAfterRestart o topicDir count = .ok (count, d')

/-! ## Opening partitions -/

/-- The operations that a creation can consist of: no file is written but the descriptor. -/
def DiskOp.Creates (topicDir : Path) : DiskOp → Prop
  | .mkdir _ => True
  | .create p => p = metaFile topicDir
  | .write p _ => p = metaFile topicDir
  | .openSegment _ => True

/-- The operations that make directories and open logs. -/
inductive DiskOp.Opens : DiskOp → Prop where
  | mkdir (p : Path) : Opens (.mkdir p)
  | openSegment (dir : Path) : Opens (.openSegment dir)

theorem DiskOp.Opens.creates {op : DiskOp} {topicDir : Path} (h : op.Opens) :
    op.Creates topicDir := by
  cases h with
  | mkdir | openSegment => trivial

/-- Below the directory of the topic there are only its descriptor and empty first segments. -/
def Disk.Fresh (d : Disk) (topicDir : Path) : Prop :=
  ∀ p data, d.files.lookup p = some data → topicDir.AtOrAbove p →
    p = metaFile topicDir ∨ data = [] ∧ ∃ dir, p = walFile dir 0

theorem plain_metaName : Plain metaName := ⟨by decide, by decide, by decide, by decide⟩

theorem plain_offsetsName : Plain offsetsName := ⟨by decide, by decide, by decide, by decide⟩

theorem plain_segmentName_zero : Plain (Wal.segmentName 0) :=
  ⟨by decide, by decide, by decide, by decide⟩

theorem join_ne_join {p q : Path} {elem elem' : Bytes} (h : Plain elem) (h' : Plain elem')
    (hne : elem ≠ elem') : p.join elem ≠ q.join elem' := by
  intro heq
  rw [Path.join_of_plain p h, Path.join_of_plain q h', Lib.Path.mk.injEq] at heq
  exact hne (singleton_injective (append_inj_right' heq.2 rfl))

theorem walFile_ne_metaFile (dir topicDir : Path) : walFile dir 0 ≠ metaFile topicDir :=
  join_ne_join plain_segmentName_zero plain_metaName (by decide)

namespace Disk

variable {d : Disk} {topicDir dir : Path} {count : ℕ} {ops ops' : List DiskOp}

theorem applyAll_append (d : Disk) (ops ops' : List DiskOp) :
    d.applyAll (ops ++ ops') = (d.applyAll ops).applyAll ops' :=
  foldl_append

variable {p : Path} {name : Bytes}

/-- The descriptor is written, or a first segment is made. -/
theorem Fresh.insert (h : d.Fresh topicDir) {data : Bytes}
    (hp : p = metaFile topicDir ∨ data = [] ∧ ∃ dir, p = walFile dir 0) :
    ({ d with files := d.files.insert p data } : Disk).Fresh topicDir := by
  intro q data' hq habove
  by_cases heq : q = p
  · rw [heq, AList.lookup_insert] at hq
    cases hq
    rw [heq]
    exact hp
  · exact h q data' ((AList.lookup_insert_ne heq).symm.trans hq) habove

theorem Fresh.apply {op : DiskOp} (h : d.Fresh topicDir) (hop : op.Creates topicDir) :
    (d.apply op).Fresh topicDir := by
  cases op with
  | mkdir => exact h
  | create | write => exact h.insert (.inl hop)
  | openSegment dir =>
    simp only [Disk.apply]
    split_ifs with hnone
    · exact h.insert (.inr ⟨rfl, dir, rfl⟩)
    · exact h

theorem Fresh.applyAll (h : d.Fresh topicDir) (hops : ∀ op ∈ ops, op.Creates topicDir) :
    (d.applyAll ops).Fresh topicDir := by
  induction ops generalizing d with
  | nil => exact h
  | cons op ops ih =>
    exact ih (h.apply (hops op mem_cons_self)) fun x hx => hops x (mem_cons_of_mem op hx)

theorem opens_mkdirs (p : Path) : ∀ op ∈ mkdirs p, op.Opens := by
  intro op hop
  obtain ⟨i, -, rfl⟩ := List.mem_map.mp hop
  exact .mkdir _

theorem opens_openOps (dir : Path) : ∀ op ∈ openOps dir, op.Opens := by
  intro op hop
  rcases mem_append.mp hop with hop | hop
  · exact opens_mkdirs dir op hop
  · rw [mem_singleton.mp hop]
    exact .openSegment dir

theorem creates_openOps (dir : Path) : ∀ op ∈ openOps dir, op.Creates topicDir :=
  fun op hop => (opens_openOps dir op hop).creates

theorem creates_metaOps (topicDir : Path) (n : ℕ) :
    ∀ op ∈ metaOps topicDir n, op.Creates topicDir := by
  intro op hop
  rcases mem_append.mp hop with hop | hop
  · exact (opens_mkdirs topicDir op hop).creates
  · rcases mem_cons.mp hop with rfl | hop
    · rfl
    · obtain ⟨b, -, rfl⟩ := List.mem_map.mp hop
      rfl

/-- A file that is listed lies in the directory. -/
theorem lookup_of_mem_list {file : Wal.File} (h : (name, file) ∈ d.list dir) :
    d.files.lookup { dir with elems := dir.elems ++ [name] } = some file.data := by
  obtain ⟨e, he, hname⟩ := mem_filterMap.mp h
  obtain ⟨name', -, hlisted⟩ := Option.bind_eq_some_iff.mp hname
  split_ifs at hlisted with hpath
  cases hlisted
  exact AList.mem_lookup_iff.mpr (hpath ▸ he)

theorem exists_recoverSegment {s : Wal.Segment} (acc : Wal.Scan) (isActive : Bool)
    (h : s.f.data = []) : ∃ r, Wal.recoverSegment acc s isActive = .ok r := by
  unfold Wal.recoverSegment
  rw [h]
  exact ⟨_, rfl⟩

theorem exists_recoverSealed {segs : List Wal.Segment} (acc : Wal.Scan)
    (h : ∀ s ∈ segs, s.f.data = []) : ∃ r, Wal.recoverSealed acc segs = .ok r := by
  induction segs generalizing acc with
  | nil => exact ⟨_, rfl⟩
  | cons s segs ih =>
    obtain ⟨⟨s', acc'⟩, hfirst⟩ := exists_recoverSegment acc false (h s mem_cons_self)
    obtain ⟨r, hrest⟩ := ih acc' fun t ht => h t (mem_cons_of_mem s ht)
    rw [Wal.recoverSealed, hfirst]
    dsimp only
    rw [hrest]
    exact ⟨_, rfl⟩

/-- A log whose segments are all empty can be opened. -/
theorem exists_openLog (mode : Wal.SyncMode) (segmentBytes : ℕ) {entries : Wal.Dir}
    (h : ∀ s ∈ Wal.discoverSegments entries, s.f.data = []) :
    ∃ p, Wal.openLog mode segmentBytes entries = .ok p := by
  obtain ⟨⟨sealed, acc⟩, hsealed⟩ := exists_recoverSealed ⟨0, []⟩ fun s hs =>
    h s (mem_of_mem_dropLast hs)
  have hlast : ((Wal.discoverSegments entries).getLast?.getD
      (Wal.Segment.found 0 Wal.File.empty)).f.data = [] := by
    cases hfound : (Wal.discoverSegments entries).getLast? with
    | none => rfl
    | some s => exact h s (mem_of_getLast? hfound)
  obtain ⟨⟨active, acc'⟩, hactive⟩ := exists_recoverSegment acc true hlast
  unfold Wal.openLog
  dsimp only
  rw [hsealed]
  dsimp only
  rw [hactive]
  exact ⟨_, rfl⟩

theorem Fresh.data_discoverSegments (h : d.Fresh topicDir) (habove : topicDir.AtOrAbove dir) :
    ∀ s ∈ Wal.discoverSegments (d.list dir), s.f.data = [] := by
  intro s hs
  obtain ⟨⟨name, file⟩, hfile, hfound⟩ :=
    mem_filterMap.mp ((perm_insertionSort _ _).mem_iff.mp hs)
  obtain ⟨i, hindex, rfl⟩ := Option.map_eq_some_iff.mp hfound
  have hlookup := lookup_of_mem_list hfile
  rcases h _ _ hlookup (habove.trans ⟨rfl, prefix_append _ _⟩) with hmeta | ⟨hempty, -⟩
  · -- The descriptor is not named like a segment.
    rw [metaFile, Path.join_of_plain _ plain_metaName, Lib.Path.mk.injEq] at hmeta
    have hname : name = metaName :=
      singleton_injective (append_inj_right' hmeta.2 rfl)
    have hnone : Wal.segmentIndex metaName = none := by decide +kernel
    rw [hname] at hindex
    exact absurd (hindex.symm.trans hnone) (Option.some_ne_none i)
  · exact hempty

/-- There are no offsets yet. -/
theorem Fresh.lookup_offsetsFile (h : d.Fresh topicDir) (habove : topicDir.AtOrAbove dir) :
    d.files.lookup (offsetsFile dir) = none := by
  cases hlookup : d.files.lookup (offsetsFile dir) with
  | none => rfl
  | some =>
    rcases h _ _ hlookup (habove.trans (atOrAbove_offsetsFile dir)) with hmeta | ⟨-, dir', hseg⟩
    · exact absurd hmeta (join_ne_join plain_offsetsName plain_metaName (by decide))
    · exact absurd hseg (join_ne_join plain_offsetsName plain_segmentName_zero (by decide))

variable (o : OpenOptions)

theorem Fresh.openPartition (h : d.Fresh topicDir) (habove : topicDir.AtOrAbove dir) :
    d.openPartition o dir = .ok (d.applyAll (openOps dir)) := by
  have hfresh : (d.applyAll (openOps dir)).Fresh topicDir := h.applyAll (creates_openOps dir)
  obtain ⟨p, hopen⟩ := exists_openLog o.mode o.segmentBytes (hfresh.data_discoverSegments habove)
  unfold Disk.openPartition
  dsimp only
  rw [hopen]
  rw [hfresh.lookup_offsetsFile habove]

theorem Fresh.foldlM_openPartition {dirs : List Path} (h : d.Fresh topicDir)
    (hdirs : ∀ dir ∈ dirs, topicDir.AtOrAbove dir) :
    dirs.foldlM (Disk.openPartition o) d = .ok (d.applyAll (dirs.flatMap openOps)) := by
  induction dirs generalizing d with
  | nil => rfl
  | cons dir dirs ih =>
    rw [foldlM_cons, h.openPartition o (hdirs dir mem_cons_self), flatMap_cons,
      applyAll_append]
    exact ih (h.applyAll (creates_openOps dir)) fun x hx => hdirs x (mem_cons_of_mem dir hx)

theorem Fresh.openPartitions (h : d.Fresh topicDir) (count : ℕ) :
    d.openPartitions o topicDir count =
      .ok (count, d.applyAll ((partitionDirs topicDir count).flatMap openOps)) := by
  have hdirs : ∀ dir ∈ partitionDirs topicDir count, topicDir.AtOrAbove dir := fun dir hdir => by
    obtain ⟨i, -, rfl⟩ := List.mem_map.mp hdir
    exact topicDir_atOrAbove_partitionDir topicDir count i
  unfold Disk.openPartitions
  rw [h.foldlM_openPartition o hdirs]
  rfl

theorem partitionCount_of_pos (cfg : Config) (h : 1 ≤ count) :
    cfg.partitionCount count = count := by
  unfold Config.partitionCount
  dsimp only
  rw [if_pos (show (0 : ℤ) < count by omega), if_neg (show ¬ (count : ℤ) < 1 by omega),
    Int.toNat_natCast]

theorem Fresh.openTopicLocked_of_none (h : d.Fresh topicDir) (hpos : 1 ≤ count)
    (hfound : d.topicPartitionCount topicDir = .ok none) :
    d.openTopicLocked o topicDir count =
      .ok (count, d.applyAll (creationOps topicDir count)) := by
  unfold Disk.openTopicLocked creationOps
  rw [hfound]
  dsimp only
  rw [partitionCount_of_pos o.config hpos, applyAll_append]
  split_ifs
  · exact (h.applyAll (creates_metaOps topicDir count)).openPartitions o count
  · exact h.openPartitions o count

theorem Fresh.openTopicLocked_of_some {want : ℤ} (h : d.Fresh topicDir) (hpos : 1 ≤ count)
    (hwant : want = count ∨ want = 0)
    (hfound : d.topicPartitionCount topicDir = .ok (some (count : ℤ))) :
    d.openTopicLocked o topicDir want =
      .ok (count, d.applyAll ((partitionDirs topicDir count).flatMap openOps)) := by
  unfold Disk.openTopicLocked
  rw [hfound]
  dsimp only
  rw [if_neg (show ¬ (0 < want ∧ (count : ℤ) ≠ want) by omega),
    if_neg (show ¬ (count : ℤ) < 1 by omega), Int.toNat_natCast]
  exact h.openPartitions o count

theorem of_topicPartitionCount_eq_none (h : d.topicPartitionCount topicDir = .ok none) :
    d.files.lookup (metaFile topicDir) = none ∧ ¬ d.isDir topicDir := by
  unfold Disk.topicPartitionCount at h
  split at h
  · split at h
    · cases h
    · split_ifs at h
      cases h
  next hmeta =>
    refine ⟨hmeta, fun hdir => ?_⟩
    rw [if_pos hdir] at h
    cases h

theorem Fresh.allOrNothing (h : d.Fresh topicDir) (hpos : 1 ≤ count)
    (hfound : d.topicPartitionCount topicDir = .ok none ∨
      d.topicPartitionCount topicDir = .ok (some (count : ℤ))) :
    AllOrNothing o d topicDir count := by
  have hagain : ∃ d', d.openTopicLocked o topicDir count = .ok (count, d') := by
    rcases hfound with hfound | hfound
    · exact ⟨_, h.openTopicLocked_of_none o hpos hfound⟩
    · exact ⟨_, h.openTopicLocked_of_some o hpos (.inl rfl) hfound⟩
  refine ⟨hfound, hagain, ?_⟩
  unfold Disk.createAfterRestart
  split_ifs with hdir
  · -- The directory alone would count as a topic.
    have hsome := hfound.resolve_left fun hnone => (of_topicPartitionCount_eq_none hnone).2 hdir
    rw [h.openTopicLocked_of_some o hpos (.inr rfl) hsome]
    dsimp only
    rw [if_neg fun hne => hne rfl]
    exact ⟨_, rfl⟩
  · exact hagain

/-! ## What is found after an interruption -/

/-- A directory is there if it was made. -/
theorem mem_dirs_applyAll {q : Path} :
    q ∈ (d.applyAll ops).dirs ↔ q ∈ d.dirs ∨ .mkdir q ∈ ops := by
  induction ops generalizing d with
  | nil => simp [applyAll]
  | cons op ops ih =>
    have happly : q ∈ (d.apply op).dirs ↔ q ∈ d.dirs ∨ .mkdir q = op := by
      cases op with
      | mkdir => simp [Disk.apply, or_comm]
      | create | write => simp [Disk.apply]
      | openSegment =>
        simp only [Disk.apply]
        split_ifs <;> simp
    rw [mem_cons, ← or_assoc, ← happly]
    exact ih

theorem mkdir_mem_mkdirs (h : p.elems ≠ []) : .mkdir p ∈ mkdirs p := by
  have hlen : 0 < p.elems.length := length_pos_of_ne_nil h
  refine List.mem_map.mpr ⟨p.elems.length - 1, mem_range.mpr (by omega), ?_⟩
  rw [Nat.sub_add_cancel hlen, take_length]

theorem isDir_of_mkdir_mem (h : .mkdir topicDir ∈ ops) : (d.applyAll ops).isDir topicDir := by
  have hmem : topicDir ∈ (d.applyAll ops).dirs := mem_dirs_applyAll.mpr (.inr h)
  unfold Disk.isDir
  rw [List.any_eq_true.mpr ⟨topicDir, hmem, decide_eq_true (.refl topicDir)⟩, Bool.or_true]

/-- As long as the last directory is not made there is none. -/
theorem Absent.isDir_take {k : ℕ} (h : d.Absent topicDir) (hk : k < topicDir.elems.length) :
    (d.applyAll ((mkdirs topicDir).take k)).isDir topicDir = false := by
  have hnone : ∀ q ∈ (d.applyAll ((mkdirs topicDir).take k)).dirs, ¬ topicDir.AtOrAbove q := by
    intro q hq habove
    rcases mem_dirs_applyAll.mp hq with hold | hmade
    · exact h.dirs q hold habove
    · rw [mkdirs, ← map_take, take_range] at hmade
      obtain ⟨i, hi, hmkdir⟩ := List.mem_map.mp hmade
      cases hmkdir
      have hlen := habove.2.length_le
      rw [mem_range] at hi
      rw [length_take] at hlen
      omega
  unfold Disk.isDir
  rw [Bool.or_eq_false_iff]
  refine ⟨beq_false_of_ne h.elems, List.any_eq_false.mpr fun q hq => ?_⟩
  rw [decide_eq_true_iff]
  exact hnone q hq

theorem Absent.fresh (h : d.Absent topicDir) : d.Fresh topicDir := by
  intro p data hp habove
  exact absurd habove (h.files p (AList.lookup_isSome.mp (hp ▸ rfl)))

theorem Absent.lookup_metaFile (h : d.Absent topicDir) :
    d.files.lookup (metaFile topicDir) = none :=
  AList.lookup_eq_none.mpr fun hmem =>
    h.files _ hmem (Path.atOrAbove_join topicDir plain_metaName)

theorem lookup_metaFile_applyAll (hops : ∀ op ∈ ops, op.Opens) :
    (d.applyAll ops).files.lookup (metaFile topicDir) = d.files.lookup (metaFile topicDir) := by
  induction ops generalizing d with
  | nil => rfl
  | cons op ops ih =>
    refine (ih fun x hx => hops x (mem_cons_of_mem op hx)).trans ?_
    cases hops op mem_cons_self with
    | mkdir => rfl
    | openSegment dir =>
      simp only [Disk.apply]
      split_ifs
      · exact AList.lookup_insert_ne (walFile_ne_metaFile dir topicDir).symm
      · rfl

theorem lookup_writes (data : Bytes) (p : Path) {written : Bytes}
    (h : d.files.lookup p = some written) :
    (d.applyAll (data.map (.write p))).files.lookup p = some (written ++ data) := by
  induction data generalizing d written with
  | nil => rw [append_nil, ← h]; rfl
  | cons b data ih =>
    have hfirst : (d.apply (.write p b)).files.lookup p = some (written ++ [b]) := by
      simp only [Disk.apply]
      rw [AList.lookup_insert, h]
      rfl
    rw [append_cons]
    exact ih hfirst

/-- A file of which a part is written. -/
theorem lookup_take_writeFile (data : Bytes) (p : Path) (k : ℕ) :
    (d.applyAll ((writeFile p data).take (k + 1))).files.lookup p = some (data.take k) := by
  have hcreated : (d.apply (.create p)).files.lookup p = some [] := AList.lookup_insert _
  rw [writeFile, take_succ_cons, ← map_take]
  exact lookup_writes (data.take k) p hcreated

theorem topicPartitionCount_of_none (h : d.files.lookup (metaFile topicDir) = none) :
    d.topicPartitionCount topicDir = .ok (if d.isDir topicDir then some 1 else none) := by
  unfold Disk.topicPartitionCount
  rw [h]

theorem length_mkdirs (p : Path) : (mkdirs p).length = p.elems.length := by
  rw [mkdirs, length_map, length_range]

theorem creationOps_one (topicDir : Path) : creationOps topicDir 1 = openOps topicDir := by
  rw [creationOps, if_neg (by decide), nil_append]
  exact append_nil _

theorem creationOps_many (topicDir : Path) (h : 1 < count) :
    creationOps topicDir count = mkdirs topicDir ++
      (writeFile (metaFile topicDir) (metaText count) ++
        (partitionDirs topicDir count).flatMap openOps) := by
  rw [creationOps, if_pos h, metaOps, append_assoc]

/-- The directories of the topic are made first. -/
theorem mkdirs_prefix_creationOps (topicDir : Path) (h : 1 ≤ count) :
    mkdirs topicDir <+: creationOps topicDir count := by
  by_cases hmany : 1 < count
  · rw [creationOps_many topicDir hmany]
    exact prefix_append _ _
  · rw [show count = 1 by omega, creationOps_one]
    exact prefix_append _ _

theorem Fresh.stoppedAt (h : d.Fresh topicDir) (count k : ℕ) :
    (d.stoppedAt topicDir count k).Fresh topicDir := by
  refine h.applyAll fun op hop => ?_
  rcases mem_append.mp (mem_of_mem_take hop) with hop | hop
  · split_ifs at hop
    · exact creates_metaOps topicDir count op hop
    · cases hop
  · obtain ⟨dir, -, hop⟩ := mem_flatMap.mp hop
    exact creates_openOps dir op hop

variable {k : ℕ}

/-- Before the directory is made there is no topic. -/
theorem Absent.found_before (h : d.Absent topicDir) (hpos : 1 ≤ count)
    (hk : k < topicDir.elems.length) :
    (d.stoppedAt topicDir count k).topicPartitionCount topicDir = .ok none := by
  obtain ⟨rest, hrest⟩ := mkdirs_prefix_creationOps topicDir hpos
  have hops : (creationOps topicDir count).take k = (mkdirs topicDir).take k := by
    rw [← hrest, take_append_of_le_length (by rw [length_mkdirs]; omega)]
  unfold stoppedAt
  rw [hops, topicPartitionCount_of_none, h.isDir_take hk]
  · rfl
  · rw [lookup_metaFile_applyAll fun op hop => opens_mkdirs _ op (mem_of_mem_take hop)]
    exact h.lookup_metaFile

theorem Absent.found_one (h : d.Absent topicDir) (hops : ∀ op ∈ ops, op.Opens)
    (hmade : .mkdir topicDir ∈ ops) :
    (d.applyAll ops).topicPartitionCount topicDir = .ok (some 1) := by
  rw [topicPartitionCount_of_none, if_pos (isDir_of_mkdir_mem hmade)]
  rw [lookup_metaFile_applyAll hops]
  exact h.lookup_metaFile

theorem Absent.found_flat (h : d.Absent topicDir) (hk : topicDir.elems.length ≤ k) :
    (d.stoppedAt topicDir 1 k).topicPartitionCount topicDir = .ok (some 1) := by
  unfold stoppedAt
  rw [creationOps_one]
  refine h.found_one (fun op hop => opens_openOps _ op (mem_of_mem_take hop)) ?_
  rw [openOps, take_append, take_of_length_le (by rw [length_mkdirs]; omega)]
  exact mem_append_left _ (mkdir_mem_mkdirs h.elems)

theorem Absent.found_unwritten (h : d.Absent topicDir) (hmany : 1 < count) :
    (d.stoppedAt topicDir count topicDir.elems.length).topicPartitionCount topicDir =
      .ok (some 1) := by
  unfold stoppedAt
  rw [creationOps_many topicDir hmany, ← length_mkdirs, take_left]
  exact h.found_one (opens_mkdirs topicDir) (mkdir_mem_mkdirs h.elems)

theorem length_writeFile (p : Path) (data : Bytes) :
    (writeFile p data).length = data.length + 1 := by
  rw [writeFile, length_cons, length_map]

theorem found_partly (d : Disk) (topicDir : Path) (hmany : 1 < count)
    (hk : topicDir.elems.length < k)
    (hk' : k < topicDir.elems.length + 1 + (metaText count).length) :
    (d.stoppedAt topicDir count k).topicPartitionCount topicDir = .error .parseMeta := by
  obtain ⟨j, rfl⟩ := Nat.exists_eq_add_of_lt hk
  have hlen := length_writeFile (metaFile topicDir) (metaText count)
  have hlookup : (d.stoppedAt topicDir count (topicDir.elems.length + j + 1)).files.lookup
      (metaFile topicDir) = some ((metaText count).take j) := by
    unfold stoppedAt
    rw [creationOps_many topicDir hmany, Nat.add_assoc, ← length_mkdirs,
      take_length_add_append, take_append_of_le_length (by omega), applyAll_append]
    exact lookup_take_writeFile (metaText count) (metaFile topicDir) j
  unfold Disk.topicPartitionCount
  rw [hlookup]
  dsimp only
  rw [parseMeta_take (by omega)]

/-- The operations after the descriptor leave it whole. -/
theorem lookup_metaFile_stoppedAt (d : Disk) (topicDir : Path) (hmany : 1 < count)
    (hk : topicDir.elems.length + 1 + (metaText count).length ≤ k) :
    (d.stoppedAt topicDir count k).files.lookup (metaFile topicDir) = some (metaText count) := by
  have hlen := length_writeFile (metaFile topicDir) (metaText count)
  unfold stoppedAt
  rw [creationOps_many topicDir hmany, take_append,
    take_of_length_le (by rw [length_mkdirs]; omega), take_append,
    take_of_length_le (by rw [length_mkdirs]; omega), applyAll_append, applyAll_append,
    lookup_metaFile_applyAll]
  · have hwritten := lookup_take_writeFile (d := d.applyAll (mkdirs topicDir)) (metaText count)
      (metaFile topicDir) (metaText count).length
    rw [← hlen, take_length, take_length] at hwritten
    exact hwritten
  · intro op hop
    obtain ⟨dir, -, hop⟩ := mem_flatMap.mp (mem_of_mem_take hop)
    exact opens_openOps dir op hop

/-- With its descriptor the topic has its partitions. -/
theorem found_written (d : Disk) (topicDir : Path) (hmany : 1 < count)
    (hk : topicDir.elems.length + 1 + (metaText count).length ≤ k) :
    (d.stoppedAt topicDir count k).topicPartitionCount topicDir = .ok (some (count : ℤ)) := by
  unfold Disk.topicPartitionCount
  rw [d.lookup_metaFile_stoppedAt topicDir hmany hk]
  dsimp only
  rw [parseMeta_metaText]
  dsimp only
  rw [if_neg (by omega)]

/-! ## The directories of a creation that is not interrupted -/

/-- The disk shows the directory and the descriptor that a topic has in the model of the data
directory. -/
structure Shows (d : Disk) (data : DataDir) (topicDir : Path) : Prop where
  isDir : d.isDir topicDir = data.isDir topicDir
  descriptor : d.files.lookup (metaFile topicDir) =
    (data.metas.lookup topicDir).map fun partitions => metaText partitions.toNat
  positive : ∀ partitions, data.metas.lookup topicDir = some partitions → 1 ≤ partitions

/-- The two models find the same count. -/
theorem Shows.topicPartitionCount {data : DataDir} (h : d.Shows data topicDir) :
    ∃ found, d.topicPartitionCount topicDir = .ok found ∧
      data.topicPartitionCount topicDir = .ok found := by
  unfold Disk.topicPartitionCount DataDir.topicPartitionCount
  rw [h.descriptor, h.isDir]
  cases hmeta : data.metas.lookup topicDir with
  | none => exact ⟨_, rfl, rfl⟩
  | some partitions =>
    have hpos := h.positive partitions hmeta
    refine ⟨some partitions, ?_, if_neg (by omega)⟩
    rw [Option.map_some]
    dsimp only
    rw [parseMeta_metaText]
    dsimp only
    rw [Int.toNat_of_nonneg (by omega), if_neg (by omega)]

theorem Shows.create {b : TopicDirs} (h : d.Shows b.disk (Broker.topicDir b.dataDir name))
    (helems : (Broker.topicDir b.dataDir name).elems ≠ []) (hpos : 1 ≤ count)
    (hfound : d.topicPartitionCount (Broker.topicDir b.dataDir name) = .ok none) :
    (d.applyAll (creationOps (Broker.topicDir b.dataDir name) count)).Shows
      (b.openTopicLocked name count).1.disk (Broker.topicDir b.dataDir name) := by
  have hnone : b.disk.topicPartitionCount (Broker.topicDir b.dataDir name) = .ok none := by
    obtain ⟨found, hdisk, hdata⟩ := h.topicPartitionCount
    cases hfound.symm.trans hdisk
    exact hdata
  have hmeta := (of_topicPartitionCount_eq_none hfound).1
  have hdisk : (b.openTopicLocked name count).1.disk =
      (partitionDirs (Broker.topicDir b.dataDir name) count).foldl DataDir.mkdirAll
        (if 1 < count then b.disk.writeTopicMeta (Broker.topicDir b.dataDir name) count
          else b.disk) := by
    unfold TopicDirs.openTopicLocked
    rw [hnone]
    rw [partitionCount_of_pos b.config hpos]
    rfl
  have hfirst : .mkdir (Broker.topicDir b.dataDir name) ∈
      creationOps (Broker.topicDir b.dataDir name) count :=
    (mkdirs_prefix_creationOps _ hpos).subset (mkdir_mem_mkdirs helems)
  have hmetas : (b.openTopicLocked name count).1.disk.metas.lookup
      (Broker.topicDir b.dataDir name) = if 1 < count then some (count : ℤ) else none := by
    rw [hdisk, DataDir.metas_mkdirAll]
    split_ifs
    · exact AList.lookup_insert _
    · rw [h.descriptor, Option.map_eq_none_iff] at hmeta
      exact hmeta
  refine ⟨?_, ?_, ?_⟩
  · have hpart : partitionDir (Broker.topicDir b.dataDir name) count 0 ∈
        (b.openTopicLocked name count).1.disk.dirs := by
      rw [hdisk, DataDir.dirs_mkdirAll]
      exact mem_append_left _ (mem_reverse.mpr
        (List.mem_map_of_mem (mem_range.mpr hpos)))
    rw [isDir_of_mkdir_mem hfirst]
    exact (List.any_eq_true.mpr ⟨_, hpart,
      decide_eq_true (topicDir_atOrAbove_partitionDir _ count 0)⟩).symm
  · rw [hmetas]
    by_cases hmany : 1 < count
    · have hwritten := d.lookup_metaFile_stoppedAt (Broker.topicDir b.dataDir name) hmany
        (Nat.le_add_right _ (creationOps (Broker.topicDir b.dataDir name) count).length)
      rw [stoppedAt, take_of_length_le (Nat.le_add_left _ _)] at hwritten
      rw [if_pos hmany, hwritten]
      rfl
    · have hone : count = 1 := by omega
      rw [if_neg hmany, hone, creationOps_one, lookup_metaFile_applyAll (opens_openOps _), hmeta]
      rfl
  · intro partitions hpartitions
    rw [hmetas] at hpartitions
    split_ifs at hpartitions
    cases hpartitions
    omega

end Disk

/-- Creating a topic is all or nothing, at whatever operation it is interrupted, just when the topic
has one partition or it is not interrupted between the creation of its directory and the last byte
of its descriptor. -/
theorem creation_all_or_nothing_iff (o : OpenOptions) {d : Disk} {topicDir : Path} {count : ℕ}
    (habsent : d.Absent topicDir) (hpos : 1 ≤ count) (k : ℕ) :
    AllOrNothing o (d.stoppedAt topicDir count k) topicDir count ↔
      count = 1 ∨ k < topicDir.elems.length ∨
        topicDir.elems.length + 1 + (metaText count).length ≤ k := by
  constructor
  · intro h
    by_contra hcond
    have hmany : 1 < count := by omega
    have hfound := h.found
    rcases Nat.lt_or_ge topicDir.elems.length k with hk | hk
    · rw [d.found_partly topicDir hmany hk (by omega)] at hfound
      rcases hfound with hfound | hfound
      · cases hfound
      · cases hfound
    · rw [show k = topicDir.elems.length by omega, habsent.found_unwritten hmany] at hfound
      rcases hfound with hfound | hfound
      · cases hfound
      · have hcount : (1 : ℤ) = count := Option.some.inj (Except.ok.inj hfound)
        omega
  · intro hcond
    refine (habsent.fresh.stoppedAt count k).allOrNothing o hpos ?_
    rcases Nat.lt_or_ge k topicDir.elems.length with hk | hk
    · exact .inl (habsent.found_before hpos hk)
    · right
      by_cases hmany : 1 < count
      · exact d.found_written topicDir hmany (by omega)
      · have hone : count = 1 := by omega
        rw [hone]
        exact habsent.found_flat hk

/-- Options of a broker. -/
def plainOptions : OpenOptions := ⟨⟨8, 1, 8, 0⟩, .perMessage, 0, fun _ => false⟩

theorem absent_empty : (Disk.mk [] ∅).Absent (topicDir [100] [116]) :=
  ⟨by decide, fun q hq => absurd hq not_mem_nil, fun p hp => absurd hp (AList.notMem_empty p)⟩

/-- A topic of two partitions, `d/topics/t`, interrupted in its first partition. -/
theorem creation_all_or_nothing_iff_opening :
    AllOrNothing plainOptions ((Disk.mk [] ∅).stoppedAt (topicDir [100] [116]) 2 22)
      (topicDir [100] [116]) 2 :=
  (creation_all_or_nothing_iff plainOptions absent_empty (by decide) 22).mpr
    (.inr (.inr (by decide +kernel)))

/-- Stopped after its directory is made, the topic of two partitions is there with one, and creating
it again is refused. -/
theorem half_created_topic :
    let d := (Disk.mk [] ∅).stoppedAt (topicDir [100] [116]) 2 3
    d.topicPartitionCount (topicDir [100] [116]) = .ok (some 1) ∧
      d.openTopicLocked plainOptions (topicDir [100] [116]) 2 = .error (.topicExists 1 2) ∧
      ¬ AllOrNothing plainOptions d (topicDir [100] [116]) 2 := by
  intro d
  have hfound : d.topicPartitionCount (topicDir [100] [116]) = .ok (some 1) :=
    absent_empty.found_unwritten (by decide)
  have hrefused : d.openTopicLocked plainOptions (topicDir [100] [116]) 2 =
      .error (.topicExists 1 2) := by
    unfold Disk.openTopicLocked
    rw [hfound]
    rfl
  refine ⟨hfound, hrefused, fun h => ?_⟩
  obtain ⟨d', hagain⟩ := h.again
  cases hrefused.symm.trans hagain

end ToyMQ.Broker
