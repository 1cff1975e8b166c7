import ToyMQ.Broker.Node
import ToyMQ.Lib.Path
import ToyMQ.Lib.Run
import ToyMQ.Wal.Segment

/-!
# Where the partitions of a topic are stored

A broker keeps the partitions of a topic below `<dataDir>/topics/<name>`. A topic with one
partition has it in that directory itself; a topic with more has them in numbered directories
below, beside a `meta.json` that holds their number. When the broker starts it takes every
directory below `topics` for a topic and reads its partition count back.

`Stored d counts` says that the disk holds exactly the topics of `counts`. It is kept by opening a
topic whose name is plain (`Stored.openTopicLocked`), so that in every run over plain names the
open topics are those on disk (`laid_of_run`), no two partitions share a place
(`Laid.eq_of_above`), and a restart opens every partition where it was (`Laid.newBroker`).
-/

namespace ToyMQ.Broker

open Lib List Option

/-! ## The model -/

/-- The part of the file system that says which topics there are. The files of the logs and the
offsets are left out: they lie in the directories that are made for them. -/
structure DataDir where
  /-- The directories made; the directories above them exist with them. -/
  dirs : List Path
  /-- The number in each `meta.json`, by the directory that holds the file. -/
  metas : AList fun _ : Path => ℤ

/-- Whether a path is a directory. -/
def DataDir.isDir (d : DataDir) (p : Path) : Bool := d.dirs.any fun q => p.AtOrAbove q

/-- `os.MkdirAll`. -/
def DataDir.mkdirAll (d : DataDir) (p : Path) : DataDir := { d with dirs := p :: d.dirs }

/-- The names of the directories in `p`, as `os.ReadDir` lists them; their order is left open. -/
def DataDir.entries (d : DataDir) (p : Path) : List Bytes := (d.dirs.filterMap p.entryToward).dedup

inductive OpenError where
  /-- The `meta.json` of the topic holds a number below one. -/
  | badMeta (partitions : ℤ)
  /-- The topic is on disk, or open, with another partition count. -/
  | topicExists (count want : ℤ)
deriving DecidableEq, Repr

/-- `topicPartitionCount`: none for a topic that is not on disk. -/
def DataDir.topicPartitionCount (d : DataDir) (topicDir : Path) : Except OpenError (Option ℤ) :=
  match d.metas.lookup topicDir with
  | some partitions =>
    if partitions < 1 then .error (.badMeta partitions) else .ok (some partitions)
  -- Without the file the topic is a flat one, if there is a directory.
  | none => .ok (if d.isDir topicDir then some 1 else none)

/-- `writeTopicMeta`. -/
def DataDir.writeTopicMeta (d : DataDir) (topicDir : Path) (partitions : ℤ) : DataDir :=
  { d.mkdirAll topicDir with metas := d.metas.insert topicDir partitions }

/-- A broker, with the directories of the partitions of its open topics. -/
structure TopicDirs where
  dataDir : Bytes
  config : Config
  topics : AList fun _ : Bytes => List Path
  disk : DataDir

/-- `filepath.Join(dataDir, "topics")`. -/
def topicsDir (dataDir : Bytes) : Path := (Path.clean dataDir).join [116, 111, 112, 105, 99, 115]

/-- `filepath.Join(dataDir, "topics", name)`. -/
def topicDir (dataDir name : Bytes) : Path := (topicsDir dataDir).join name

/-- The directory of partition `i` of a topic with `count` of them. -/
def partitionDir (topicDir : Path) (count i : ℕ) : Path :=
  if 1 < count then topicDir.join (paddedDecimal 1 i) else topicDir

def partitionDirs (topicDir : Path) (count : ℕ) : List Path :=
  (List.range count).map (partitionDir topicDir count)

/-- The end of `openTopicLocked`: opening a log makes its directory. -/
def TopicDirs.openPartitions (b : TopicDirs) (name : Bytes) (count : ℕ) :
    TopicDirs × Except OpenError (List Path) :=
  let parts := partitionDirs (topicDir b.dataDir name) count
  ({ b with topics := b.topics.insert name parts, disk := parts.foldl DataDir.mkdirAll b.disk },
    .ok parts)

/-- `openTopicLocked`. -/
def TopicDirs.openTopicLocked (b : TopicDirs) (name : Bytes) (wantCount : ℤ) :
    TopicDirs × Except OpenError (List Path) :=
  match b.disk.topicPartitionCount (topicDir b.dataDir name) with
  | .error e => (b, .error e)
  | .ok (some diskCount) =>
    if 0 < wantCount ∧ diskCount ≠ wantCount then (b, .error (.topicExists diskCount wantCount))
    else b.openPartitions name (if diskCount < 1 then 1 else diskCount).toNat
  | .ok none =>
    let count := b.config.partitionCount wantCount
    -- A flat topic has no `meta.json`.
    let disk :=
      if 1 < count then b.disk.writeTopicMeta (topicDir b.dataDir name) count else b.disk
    TopicDirs.openPartitions { b with disk := disk } name count

/-- `getOrCreateTopic`. -/
def TopicDirs.getOrCreateTopic (b : TopicDirs) (name : Bytes) :
    TopicDirs × Except OpenError (List Path) :=
  match b.topics.lookup name with
  | some parts => (b, .ok parts)
  | none => b.openTopicLocked name 0

/-- `createTopicLocal`. -/
def TopicDirs.createTopicLocal (b : TopicDirs) (name : Bytes) (partitions : ℤ) :
    TopicDirs × Except OpenError Unit :=
  match b.topics.lookup name with
  | some parts =>
    if (parts.length : ℤ) ≠ partitions then (b, .error (.topicExists parts.length partitions))
    else (b, .ok ())
  | none =>
    let r := b.openTopicLocked name partitions
    (r.1, r.2.map fun _ => ())

/-- One round of the loop of `newBroker`, which gives up on the first topic that does not open. -/
def TopicDirs.openEntry (b : TopicDirs) (name : Bytes) : Except OpenError TopicDirs :=
  match b.getOrCreateTopic name with
  | (_, .error e) => .error e
  | (b', .ok _) => .ok b'

/-- `newBroker`: every directory below `topics` is opened as a topic. -/
def newBroker (dataDir : Bytes) (config : Config) (disk : DataDir) : Except OpenError TopicDirs :=
  (disk.entries (topicsDir dataDir)).foldlM TopicDirs.openEntry ⟨dataDir, config, ∅, disk⟩

/-- The directory of a partition of an open topic. -/
def TopicDirs.dir? (b : TopicDirs) (topic : Bytes) (i : ℕ) : Option Path :=
  (b.topics.lookup topic).bind fun parts => parts[i]?

/-- A segment file of the log in a directory. -/
def walFile (dir : Path) (index : ℕ) : Path := dir.join (Wal.segmentName index)

/-- The text `offsets.json`. -/
def offsetsName : Bytes := [111, 102, 102, 115, 101, 116, 115, 46, 106, 115, 111, 110]

def offsetsFile (dir : Path) : Path := dir.join offsetsName

/-- What happens to a broker's topics. -/
inductive TopicEvent where
  | getOrCreateTopic (name : Bytes)
  | createTopicLocal (name : Bytes) (partitions : ℤ)
  /-- The broker stops, and starts again on its data directory with some options. -/
  | restart (config : Config)
deriving DecidableEq, Repr

def TopicEvent.name? : TopicEvent → Option Bytes
  | .getOrCreateTopic name => some name
  | .createTopicLocal name _ => some name
  | .restart _ => none

/-- One event. A broker that does not start takes no further step. -/
def TopicDirs.step (b : TopicDirs) : TopicEvent → Option TopicDirs
  | .getOrCreateTopic name => some (b.getOrCreateTopic name).1
  | .createTopicLocal name partitions => some (b.createTopicLocal name partitions).1
  | .restart config => (newBroker b.dataDir config b.disk).toOption

/-- A broker on a data directory that does not exist yet. -/
def TopicDirs.new (dataDir : Bytes) (config : Config) : TopicDirs := ⟨dataDir, config, ∅, ⟨[], ∅⟩⟩

/-! ## Directories of plain names -/

variable {name dataDir : Bytes} {q : Path} {count i : ℕ}

theorem topicsDir_atOrAbove (dataDir : Bytes) (h : Plain name) :
    (topicsDir dataDir).AtOrAbove (topicDir dataDir name) :=
  Path.atOrAbove_join _ h

theorem eq_of_topicDir {name' : Bytes} (h : Plain name) (h' : Plain name')
    (habove : (topicDir dataDir name).AtOrAbove q)
    (habove' : (topicDir dataDir name').AtOrAbove q) : name = name' :=
  Path.eq_of_children h h' habove habove'

/-- The partitions of a topic lie in its directory. -/
theorem topicDir_atOrAbove_partitionDir (topicDir : Path) (count i : ℕ) :
    topicDir.AtOrAbove (partitionDir topicDir count i) := by
  unfold partitionDir
  split_ifs
  · exact Path.atOrAbove_join _ (plain_paddedDecimal Nat.one_pos i)
  · exact .refl topicDir

theorem eq_of_partitionDir {topicDir : Path} {j : ℕ} (hi : i < count) (hj : j < count)
    (h : (partitionDir topicDir count i).AtOrAbove q)
    (h' : (partitionDir topicDir count j).AtOrAbove q) : i = j := by
  unfold partitionDir at h h'
  split_ifs at h h' with hcount
  · have heq : paddedDecimal 1 i = paddedDecimal 1 j :=
      Path.eq_of_children (plain_paddedDecimal Nat.one_pos i) (plain_paddedDecimal Nat.one_pos j)
        h h'
    rw [← digitsValue_paddedDecimal 1 i, heq, digitsValue_paddedDecimal]
  · omega

theorem atOrAbove_walFile (dir : Path) (index : ℕ) : dir.AtOrAbove (walFile dir index) := by
  have hnum := plain_paddedDecimal (w := 6) (by omega) index
  have hlong : ∀ elem : Bytes, elem.length < 4 → Wal.segmentName index ≠ elem := by
    intro elem hlen heq
    rw [← heq, Wal.segmentName, length_append] at hlen
    exact absurd hlen (by simp [Wal.segmentExt])
  refine Path.atOrAbove_join dir ⟨hlong [] (by decide), fun hmem => ?_, hlong dot (by decide),
    hlong dotDot (by decide)⟩
  rcases mem_append.mp hmem with hmem | hmem
  · exact hnum.single hmem
  · exact absurd hmem (by decide)

theorem atOrAbove_offsetsFile (dir : Path) : dir.AtOrAbove (offsetsFile dir) :=
  Path.atOrAbove_join dir ⟨by decide, by decide, by decide, by decide⟩

theorem length_partitionDirs (topicDir : Path) (count : ℕ) :
    (partitionDirs topicDir count).length = count := by
  rw [partitionDirs, length_map, length_range]

/-- The directory at a place of the list of all of them. -/
theorem of_getElem?_partitionDirs {topicDir : Path}
    (h : (partitionDirs topicDir count)[i]? = some q) :
    i < count ∧ q = partitionDir topicDir count i := by
  obtain ⟨hi, rfl⟩ := List.getElem?_eq_some_iff.mp h
  rw [length_partitionDirs] at hi
  exact ⟨hi, by simp [partitionDirs]⟩

/-! ## What the disk holds -/

theorem DataDir.dirs_mkdirAll (d : DataDir) (ps : List Path) :
    (ps.foldl DataDir.mkdirAll d).dirs = ps.reverse ++ d.dirs := by
  induction ps generalizing d with
  | nil => rfl
  | cons p ps ih =>
    rw [foldl_cons, ih, reverse_cons, append_assoc]
    rfl

theorem DataDir.metas_mkdirAll (d : DataDir) (ps : List Path) :
    (ps.foldl DataDir.mkdirAll d).metas = d.metas := by
  induction ps generalizing d with
  | nil => rfl
  | cons p ps ih =>
    rw [foldl_cons, ih]
    rfl

/-- The disk `d` holds the topics of `counts`, each with its number of partitions. -/
structure Stored (dataDir : Bytes) (d : DataDir) (counts : Bytes → Option ℕ) : Prop where
  plain : ∀ {name : Bytes} {count : ℕ}, counts name = some count → Plain name ∧ 1 ≤ count
  /-- Every directory is that of a topic or below it. -/
  dirs : ∀ q ∈ d.dirs, ∃ name count, counts name = some count ∧ (topicDir dataDir name).AtOrAbove q
  made : ∀ {name : Bytes} {count : ℕ}, counts name = some count → d.isDir (topicDir dataDir name)
  metas : ∀ {name : Bytes}, Plain name → d.metas.lookup (topicDir dataDir name) =
    (counts name).bind fun count => if 1 < count then some (count : ℤ) else none

theorem stored_empty (dataDir : Bytes) : Stored dataDir ⟨[], ∅⟩ fun _ => none :=
  ⟨nofun, nofun, nofun, fun _ => rfl⟩

namespace Stored

variable {dataDir name : Bytes} {d : DataDir} {counts : Bytes → Option ℕ}

theorem isDir_eq (h : Stored dataDir d counts) (hname : Plain name) :
    d.isDir (topicDir dataDir name) = (counts name).isSome := by
  cases hcount : counts name with
  | some => exact h.made hcount
  | none =>
    -- What lies at or below the directory would belong to a topic of this name.
    refine Bool.eq_false_iff.mpr fun hdir => ?_
    obtain ⟨q, hq, habove⟩ := List.any_eq_true.mp hdir
    obtain ⟨other, count, hother, habove'⟩ := h.dirs q hq
    have heq : name = other :=
      eq_of_topicDir hname (h.plain hother).1 (of_decide_eq_true habove) habove'
    rw [heq, hother] at hcount
    cases hcount

theorem topicPartitionCount_eq (h : Stored dataDir d counts) (hname : Plain name) :
    d.topicPartitionCount (topicDir dataDir name) =
      .ok ((counts name).map fun count : ℕ => (count : ℤ)) := by
  have hmetas := h.metas hname
  have hdir := h.isDir_eq hname
  unfold DataDir.topicPartitionCount
  cases hcount : counts name with
  | none =>
    rw [hcount] at hmetas hdir
    rw [hmetas, hdir]
    rfl
  | some count =>
    have hpos : 1 ≤ count := (h.plain hcount).2
    rw [hcount] at hmetas hdir
    rw [hmetas, hdir]
    simp only [bind_some, map_some, isSome_some, if_true]
    by_cases hmany : 1 < count
    · rw [if_pos hmany]
      exact if_neg (by omega)
    · -- One partition has left no file, and the directory stands for it.
      rw [if_neg hmany, show count = 1 by omega]
      rfl

theorem add {d' : DataDir} {count : ℕ} (h : Stored dataDir d counts) (hname : Plain name)
    (hpos : 1 ≤ count)
    (hdirs : ∀ q ∈ d'.dirs, q ∈ d.dirs ∨ (topicDir dataDir name).AtOrAbove q)
    (hkept : ∀ q ∈ d.dirs, q ∈ d'.dirs)
    (hmeta : d'.metas.lookup (topicDir dataDir name) = if 1 < count then some (count : ℤ) else none)
    (hmetas : ∀ p, p ≠ topicDir dataDir name → d'.metas.lookup p = d.metas.lookup p) :
    Stored dataDir ((partitionDirs (topicDir dataDir name) count).foldl DataDir.mkdirAll d')
      (Function.update counts name (some count)) := by
  have hmem : ∀ q, q ∈ ((partitionDirs (topicDir dataDir name) count).foldl
      DataDir.mkdirAll d').dirs ↔ q ∈ partitionDirs (topicDir dataDir name) count ∨ q ∈ d'.dirs :=
    fun q => by rw [DataDir.dirs_mkdirAll, mem_append, mem_reverse]
  have hbelow : ∀ q ∈ partitionDirs (topicDir dataDir name) count,
      (topicDir dataDir name).AtOrAbove q := fun q hq => by
    obtain ⟨i, -, rfl⟩ := List.mem_map.mp hq
    exact topicDir_atOrAbove_partitionDir _ count i
  refine ⟨?_, ?_, ?_, ?_⟩
  · intro other count' hother
    by_cases heq : other = name
    · rw [heq, Function.update_self, some_inj] at hother
      exact ⟨heq ▸ hname, hother ▸ hpos⟩
    · rw [Function.update_of_ne heq] at hother
      exact h.plain hother
  · intro q hq
    have hthis : (topicDir dataDir name).AtOrAbove q → ∃ other count',
        Function.update counts name (some count) other = some count' ∧
          (topicDir dataDir other).AtOrAbove q := fun habove =>
      ⟨name, count, Function.update_self .., habove⟩
    rcases (hmem q).mp hq with hq | hq
    · exact hthis (hbelow q hq)
    · rcases hdirs q hq with hold | habove
      · obtain ⟨other, count', hother, habove⟩ := h.dirs q hold
        by_cases heq : other = name
        · exact hthis (heq ▸ habove)
        · exact ⟨other, count', (Function.update_of_ne heq ..).trans hother, habove⟩
      · exact hthis habove
  · intro other count' hother
    by_cases heq : other = name
    · -- The first partition of the topic is there.
      have hfirst : partitionDir (topicDir dataDir name) count 0 ∈
          partitionDirs (topicDir dataDir name) count :=
        List.mem_map_of_mem (mem_range.mpr hpos)
      exact List.any_eq_true.mpr ⟨_, (hmem _).mpr (.inl hfirst),
        decide_eq_true (heq ▸ hbelow _ hfirst)⟩
    · rw [Function.update_of_ne heq] at hother
      obtain ⟨q, hq, habove⟩ := List.any_eq_true.mp (h.made hother)
      exact List.any_eq_true.mpr ⟨q, (hmem q).mpr (.inr (hkept q hq)), habove⟩
  · intro other hother
    rw [DataDir.metas_mkdirAll]
    by_cases heq : other = name
    · rw [heq, Function.update_self, hmeta]
      rfl
    · have hne : topicDir dataDir other ≠ topicDir dataDir name := fun hsame =>
        heq (eq_of_topicDir hother hname (.refl _) (by rw [hsame]; exact .refl _))
      rw [Function.update_of_ne heq, hmetas _ hne, h.metas hother]

end Stored

theorem one_le_partitionCount (cfg : Config) (wantCount : ℤ) :
    1 ≤ cfg.partitionCount wantCount := by
  unfold Config.partitionCount
  dsimp only
  split_ifs <;> omega

/-! ## Opening a topic -/

/-- The disk holds the topics of `counts`, and the open ones among them have their partitions
where they are stored. -/
structure Opened (counts : Bytes → Option ℕ) (b : TopicDirs) : Prop where
  stored : Stored b.dataDir b.disk counts
  parts : ∀ {name : Bytes} {parts : List Path}, b.topics.lookup name = some parts →
    ∃ count, counts name = some count ∧ parts = partitionDirs (topicDir b.dataDir name) count

/-- The broker `b'` is `b` with a topic of `count` partitions registered. -/
structure Registered (b : TopicDirs) (name : Bytes) (count : ℕ) (b' : TopicDirs) : Prop where
  dataDir : b'.dataDir = b.dataDir
  config : b'.config = b.config
  topics : b'.topics = b.topics.insert name (partitionDirs (topicDir b.dataDir name) count)

namespace Opened

variable {counts : Bytes → Option ℕ} {b b' : TopicDirs} {name : Bytes} {count : ℕ}

/-- A topic is registered that is on disk. -/
theorem register (h : Opened counts b) (hreg : Registered b name count b')
    (hstored : Stored b.dataDir b'.disk (Function.update counts name (some count))) :
    Opened (Function.update counts name (some count)) b' := by
  refine ⟨hreg.dataDir ▸ hstored, ?_⟩
  intro other parts hother
  -- The other topics are where they were.
  rw [hreg.dataDir]
  rw [hreg.topics] at hother
  by_cases heq : other = name
  · subst heq
    rw [AList.lookup_insert, some_inj] at hother
    exact ⟨count, Function.update_self .., hother.symm⟩
  · rw [AList.lookup_insert_ne heq] at hother
    obtain ⟨count', hcount, hparts⟩ := h.parts hother
    exact ⟨count', (Function.update_of_ne heq ..).trans hcount, hparts⟩

theorem openTopicLocked_of_some (h : Opened counts b) (hcount : counts name = some count)
    (wantCount : ℤ) (hwant : 0 < wantCount → (count : ℤ) = wantCount) :
    ∃ b', b.openTopicLocked name wantCount =
        (b', .ok (partitionDirs (topicDir b.dataDir name) count)) ∧
      Registered b name count b' ∧ Opened counts b' := by
  obtain ⟨hname, hpos⟩ := h.stored.plain hcount
  have hsame : Function.update counts name (some count) = counts := by
    rw [← hcount, Function.update_eq_self]
  have hmeta := (h.stored.metas hname).trans (by rw [hcount, bind_some])
  have hstored := h.stored.add hname hpos (fun q hq => .inl hq) (fun q hq => hq) hmeta
    fun p _ => rfl
  have hreg : Registered b name count (b.openPartitions name count).1 := ⟨rfl, rfl, rfl⟩
  refine ⟨_, ?_, hreg, hsame ▸ h.register hreg hstored⟩
  unfold TopicDirs.openTopicLocked
  rw [h.stored.topicPartitionCount_eq hname, hcount]
  dsimp only [map_some]
  rw [if_neg fun hbad => hbad.2 (hwant hbad.1), if_neg (by omega), Int.toNat_natCast]
  rfl

theorem openTopicLocked_of_none (h : Opened counts b) (hname : Plain name)
    (hnone : counts name = none) (wantCount : ℤ)
    (hcount : count = b.config.partitionCount wantCount) :
    ∃ b', b.openTopicLocked name wantCount =
        (b', .ok (partitionDirs (topicDir b.dataDir name) count)) ∧
      Registered b name count b' ∧ Opened (Function.update counts name (some count)) b' := by
  have hpos : 1 ≤ count := hcount ▸ one_le_partitionCount b.config wantCount
  have hread := h.stored.topicPartitionCount_eq hname
  have hmeta := h.stored.metas hname
  rw [hnone] at hread hmeta
  unfold TopicDirs.openTopicLocked
  rw [hread]
  dsimp only [map_none]
  rw [← hcount]
  by_cases hmany : 1 < count
  · -- The file is written first, and makes the directory of the topic.
    rw [if_pos hmany]
    generalize hdisk : b.disk.writeTopicMeta (topicDir b.dataDir name) count = d
    have hdirs : ∀ q ∈ d.dirs, q ∈ b.disk.dirs ∨ (topicDir b.dataDir name).AtOrAbove q := by
      intro q hq
      rw [← hdisk] at hq
      rcases mem_cons.mp hq with rfl | hold
      · exact .inr (.refl _)
      · exact .inl hold
    have hwritten : d.metas.lookup (topicDir b.dataDir name) =
        if 1 < count then some (count : ℤ) else none := by
      rw [← hdisk, if_pos hmany]
      exact AList.lookup_insert _
    have hothers : ∀ p, p ≠ topicDir b.dataDir name → d.metas.lookup p = b.disk.metas.lookup p := by
      intro p hp
      rw [← hdisk]
      exact AList.lookup_insert_ne hp
    have hstored := h.stored.add hname hpos hdirs
      (fun q hq => hdisk ▸ mem_cons_of_mem _ hq) hwritten hothers
    have hreg : Registered b name count
        (TopicDirs.openPartitions { b with disk := d } name count).1 := ⟨rfl, rfl, rfl⟩
    exact ⟨_, rfl, hreg, h.register hreg hstored⟩
  · rw [if_neg hmany]
    have hstored := h.stored.add hname hpos (fun q hq => .inl hq) (fun q hq => hq)
      (hmeta.trans (if_neg hmany).symm) fun p _ => rfl
    have hreg : Registered b name count (b.openPartitions name count).1 := ⟨rfl, rfl, rfl⟩
    exact ⟨_, rfl, hreg, h.register hreg hstored⟩

theorem openEntry (h : Opened counts b) (hcount : counts name = some count) :
    ∃ b', b.openEntry name = .ok b' ∧ b'.dataDir = b.dataDir ∧ Opened counts b' ∧
      (b'.topics.lookup name).isSome ∧
      ∀ other, (b.topics.lookup other).isSome → (b'.topics.lookup other).isSome := by
  unfold TopicDirs.openEntry TopicDirs.getOrCreateTopic
  cases hlookup : b.topics.lookup name with
  | some => exact ⟨b, rfl, rfl, h, by rw [hlookup]; rfl, fun _ hother => hother⟩
  | none =>
    obtain ⟨b', hopen, hreg, hopened⟩ :=
      h.openTopicLocked_of_some hcount 0 fun hpos => absurd hpos (lt_irrefl 0)
    refine ⟨b', by rw [hopen], hreg.dataDir, hopened, ?_, fun other hother => ?_⟩
    · rw [hreg.topics, AList.lookup_insert]
      rfl
    · rw [hreg.topics]
      by_cases heq : other = name
      · rw [heq, AList.lookup_insert]
        rfl
      · rwa [AList.lookup_insert_ne heq]

/-- The loop of the scan over names of topics. -/
theorem foldlM_openEntry {names : List Bytes} (h : Opened counts b)
    (hnames : ∀ name ∈ names, ∃ count, counts name = some count) :
    ∃ b', names.foldlM TopicDirs.openEntry b = .ok b' ∧ b'.dataDir = b.dataDir ∧
      Opened counts b' ∧
      ∀ name, name ∈ names ∨ (b.topics.lookup name).isSome → (b'.topics.lookup name).isSome := by
  induction names generalizing b with
  | nil => exact ⟨b, rfl, rfl, h, fun name hname => hname.resolve_left not_mem_nil⟩
  | cons first names ih =>
    -- The rest is opened by a broker that has the first name and what was open before.
    obtain ⟨count, hcount⟩ := hnames first mem_cons_self
    obtain ⟨b₁, hfirst, hdir₁, hopened₁, hfound, hkept⟩ := h.openEntry hcount
    obtain ⟨b', hrest, hdir, hopened, hall⟩ :=
      ih hopened₁ fun name hname => hnames name (mem_cons_of_mem _ hname)
    refine ⟨b', ?_, hdir.trans hdir₁, hopened, fun name hname => hall name ?_⟩
    · rw [foldlM_cons, hfirst]
      exact hrest
    · rcases hname with hmem | hopen
      · rcases mem_cons.mp hmem with rfl | hmem
        · exact .inr hfound
        · exact .inl hmem
      · exact .inr (hkept name hopen)

end Opened

theorem Stored.mem_entries {d : DataDir} {counts : Bytes → Option ℕ} (h : Stored dataDir d counts) :
    name ∈ d.entries (topicsDir dataDir) ↔ ∃ count, counts name = some count := by
  rw [DataDir.entries, mem_dedup, mem_filterMap]
  constructor
  · rintro ⟨q, hq, hentry⟩
    obtain ⟨topic, count, hcount, habove⟩ := h.dirs q hq
    have htopic := Path.entryToward_of_join (h.plain hcount).1 habove
    rw [hentry, some_inj] at htopic
    exact ⟨count, htopic ▸ hcount⟩
  · rintro ⟨count, hcount⟩
    obtain ⟨q, hq, habove⟩ := List.any_eq_true.mp (h.made hcount)
    exact ⟨q, hq, Path.entryToward_of_join (h.plain hcount).1 (of_decide_eq_true habove)⟩

/-! ## Runs -/

/-- Every topic on disk is open, with its partitions where they are stored. -/
structure Laid (counts : Bytes → Option ℕ) (b : TopicDirs) : Prop extends Opened counts b where
  all : ∀ {name : Bytes} {count : ℕ}, counts name = some count → (b.topics.lookup name).isSome

namespace Laid

variable {counts : Bytes → Option ℕ} {b b' : TopicDirs} {name : Bytes} {count : ℕ}

/-- The partitions of a topic, by what is on disk. -/
theorem lookup_eq (h : Laid counts b) (name : Bytes) :
    b.topics.lookup name = (counts name).map (partitionDirs (topicDir b.dataDir name)) := by
  cases hlookup : b.topics.lookup name with
  | some parts =>
    obtain ⟨count, hcount, rfl⟩ := h.parts hlookup
    rw [hcount]
    rfl
  | none =>
    cases hcount : counts name with
    | none => rfl
    | some =>
      have hopen := h.all hcount
      rw [hlookup] at hopen
      cases hopen

theorem counts_of_lookup_none (h : Laid counts b) (hnone : b.topics.lookup name = none) :
    counts name = none := by
  rwa [h.lookup_eq, map_eq_none_iff] at hnone

/-- A topic is opened that is not open. -/
theorem openTopicLocked (h : Laid counts b) (hname : Plain name)
    (hnone : b.topics.lookup name = none) (wantCount : ℤ) :
    ∃ b' counts', b.openTopicLocked name wantCount =
        (b', .ok (partitionDirs (topicDir b.dataDir name) (b.config.partitionCount wantCount))) ∧
      Registered b name (b.config.partitionCount wantCount) b' ∧ Laid counts' b' := by
  obtain ⟨b', hopen, hreg, hopened⟩ :=
    h.openTopicLocked_of_none hname (h.counts_of_lookup_none hnone) wantCount rfl
  refine ⟨b', _, hopen, hreg, hopened, ?_⟩
  intro other count hcount
  rw [hreg.topics]
  by_cases heq : other = name
  · rw [heq, AList.lookup_insert]
    rfl
  · rw [Function.update_of_ne heq] at hcount
    rw [AList.lookup_insert_ne heq]
    exact h.all hcount

/-- A restart opens every topic with its partitions where they were. -/
theorem newBroker (h : Laid counts b) (config : Config) :
    ∃ b', newBroker b.dataDir config b.disk = .ok b' ∧ b'.dataDir = b.dataDir ∧
      Laid counts b' := by
  -- The scan starts with no topic open, on a disk that holds all of them.
  have hstart : Opened counts ⟨b.dataDir, config, ∅, b.disk⟩ := ⟨h.stored, nofun⟩
  obtain ⟨b', hscan, hdir, hopened, hall⟩ :=
    hstart.foldlM_openEntry fun name => h.stored.mem_entries.mp
  exact ⟨b', hscan, hdir, hopened, fun hcount =>
    hall _ (.inl (h.stored.mem_entries.mpr ⟨_, hcount⟩))⟩

theorem getOrCreateTopic (h : Laid counts b) (hname : Plain name) :
    (b.getOrCreateTopic name).1.dataDir = b.dataDir ∧
      ∃ counts', Laid counts' (b.getOrCreateTopic name).1 := by
  unfold TopicDirs.getOrCreateTopic
  cases hlookup : b.topics.lookup name with
  | some => exact ⟨rfl, counts, h⟩
  | none =>
    obtain ⟨b', counts', hopen, hreg, hlaid⟩ := h.openTopicLocked hname hlookup 0
    rw [hopen]
    exact ⟨hreg.dataDir, counts', hlaid⟩

theorem createTopicLocal (h : Laid counts b) (hname : Plain name) (partitions : ℤ) :
    (b.createTopicLocal name partitions).1.dataDir = b.dataDir ∧
      ∃ counts', Laid counts' (b.createTopicLocal name partitions).1 := by
  unfold TopicDirs.createTopicLocal
  cases hlookup : b.topics.lookup name with
  | some =>
    dsimp only
    split_ifs
    · exact ⟨rfl, counts, h⟩
    · exact ⟨rfl, counts, h⟩
  | none =>
    obtain ⟨b', counts', hopen, hreg, hlaid⟩ := h.openTopicLocked hname hlookup partitions
    rw [hopen]
    exact ⟨hreg.dataDir, counts', hlaid⟩

/-- The open topics stay those on disk. -/
theorem step {a : TopicEvent} (h : Laid counts b) (hname : ∀ name ∈ a.name?, Plain name)
    (hstep : b.step a = some b') : b'.dataDir = b.dataDir ∧ ∃ counts', Laid counts' b' := by
  cases a with
  | getOrCreateTopic name =>
    cases hstep
    exact h.getOrCreateTopic (hname name rfl)
  | createTopicLocal name partitions =>
    cases hstep
    exact h.createTopicLocal (hname name rfl) partitions
  | restart config =>
    obtain ⟨b₁, hnew, hdir, hlaid⟩ := h.newBroker config
    rw [TopicDirs.step, hnew] at hstep
    cases hstep
    exact ⟨hdir, counts, hlaid⟩

variable {i : ℕ} {q p : Path}

/-- The place of a partition that is open. -/
theorem of_dir? (h : Laid counts b) (hq : b.dir? name i = some q) :
    ∃ count, counts name = some count ∧ i < count ∧
      q = partitionDir (topicDir b.dataDir name) count i := by
  obtain ⟨parts, hparts, hi⟩ := bind_eq_some_iff.mp hq
  obtain ⟨count, hcount, rfl⟩ := h.parts hparts
  exact ⟨count, hcount, of_getElem?_partitionDirs hi⟩

/-- Whatever lies in the directories of two partitions, they are the same partition. -/
theorem eq_of_above {name' : Bytes} {i' : ℕ} {p' : Path} (h : Laid counts b)
    (hp : b.dir? name i = some p) (hp' : b.dir? name' i' = some p') (habove : p.AtOrAbove q)
    (habove' : p'.AtOrAbove q) : name = name' ∧ i = i' := by
  obtain ⟨count, hcount, hi, rfl⟩ := h.of_dir? hp
  obtain ⟨count', hcount', hi', rfl⟩ := h.of_dir? hp'
  have hname : name = name' :=
    eq_of_topicDir (h.stored.plain hcount).1 (h.stored.plain hcount').1
      ((topicDir_atOrAbove_partitionDir _ count i).trans habove)
      ((topicDir_atOrAbove_partitionDir _ count' i').trans habove')
  subst hname
  -- One topic has one count, so that both directories are of the same layout.
  rw [hcount, some_inj] at hcount'
  subst hcount'
  exact ⟨rfl, eq_of_partitionDir hi hi' habove habove'⟩

theorem below_topicsDir (h : Laid counts b) (hp : b.dir? name i = some p) :
    (topicsDir b.dataDir).AtOrAbove p ∧ p ≠ topicsDir b.dataDir := by
  obtain ⟨count, hcount, -, rfl⟩ := h.of_dir? hp
  have hname := (h.stored.plain hcount).1
  have hbelow := topicDir_atOrAbove_partitionDir (topicDir b.dataDir name) count i
  refine ⟨(topicsDir_atOrAbove b.dataDir hname).trans hbelow, fun heq => ?_⟩
  -- The directory of the topic would be above that of all topics.
  rw [heq] at hbelow
  exact Path.not_join_atOrAbove _ hname hbelow

end Laid

theorem laid_of_run {config : Config} {as : List TopicEvent} {b : TopicDirs}
    {ok : TopicDirs → TopicEvent → Prop} (hok : ∀ b a, ok b a → ∀ name ∈ a.name?, Plain name)
    (h : Run TopicDirs.step ok (.new dataDir config) as b) :
    b.dataDir = dataDir ∧ ∃ counts, Laid counts b := by
  have hnew : Laid (fun _ => none) (.new dataDir config) := ⟨⟨stored_empty dataDir, nofun⟩, nofun⟩
  refine h.invariant (I := fun b => b.dataDir = dataDir ∧ ∃ counts, Laid counts b)
    ⟨rfl, _, hnew⟩ ?_
  rintro b a b' ha ⟨rfl, counts, hlaid⟩ hstep
  exact hlaid.step (hok b a ha) hstep

/-! ## The topics in memory -/

/-- The model of the topics in memory has the topics that are open here, with as many
partitions. -/
structure Agree (n : Node) (b : TopicDirs) : Prop where
  config : n.config = b.config
  counts : ∀ name, (n.topics.lookup name).map (fun t => t.partitions.length) =
    (b.topics.lookup name).map List.length

namespace Agree

variable {n : Node} {b b' : TopicDirs} {counts : Bytes → Option ℕ} {name : Bytes}

theorem lookup_cases (h : Agree n b) (name : Bytes) :
    (n.topics.lookup name = none ∧ b.topics.lookup name = none) ∨
      ∃ t parts, n.topics.lookup name = some t ∧ b.topics.lookup name = some parts ∧
        t.partitions.length = parts.length := by
  have hcounts := h.counts name
  cases ht : n.topics.lookup name with
  | none =>
    rw [ht] at hcounts
    exact .inl ⟨rfl, map_eq_none_iff.mp hcounts.symm⟩
  | some t =>
    rw [ht] at hcounts
    obtain ⟨parts, hparts, hlen⟩ := map_eq_some_iff.mp hcounts.symm
    exact .inr ⟨t, parts, rfl, hparts, hlen.symm⟩

/-- A topic is opened on both sides. -/
theorem openTopic {wantCount : ℤ} (h : Agree n b)
    (hreg : Registered b name (b.config.partitionCount wantCount) b') :
    Agree { n with topics := n.topics.insert name (n.config.openTopic wantCount) } b' := by
  refine ⟨h.config.trans hreg.config.symm, fun other => ?_⟩
  rw [hreg.topics]
  by_cases heq : other = name
  · rw [heq, AList.lookup_insert, AList.lookup_insert, map_some, map_some,
      length_partitionDirs, h.config]
    exact congrArg some length_replicate
  · rw [AList.lookup_insert_ne heq, AList.lookup_insert_ne heq]
    exact h.counts other

theorem getOrCreateTopic (h : Agree n b) (hlaid : Laid counts b) (hname : Plain name) :
    Agree (n.getOrCreateTopic name).1 (b.getOrCreateTopic name).1 := by
  unfold Node.getOrCreateTopic TopicDirs.getOrCreateTopic
  rcases h.lookup_cases name with ⟨hn, hb⟩ | ⟨t, parts, hn, hb, -⟩
  · obtain ⟨b', -, hopen, hreg, -⟩ := hlaid.openTopicLocked hname hb 0
    rw [hn, hb]
    rw [hopen]
    exact h.openTopic hreg
  · rw [hn, hb]
    exact h

theorem createTopicLocal (h : Agree n b) (hlaid : Laid counts b) (hname : Plain name)
    (partitions : ℤ) :
    Agree (n.createTopicLocal name partitions).1 (b.createTopicLocal name partitions).1 ∧
      (n.createTopicLocal name partitions).2.toOption =
        (b.createTopicLocal name partitions).2.toOption := by
  unfold Node.createTopicLocal TopicDirs.createTopicLocal
  rcases h.lookup_cases name with ⟨hn, hb⟩ | ⟨t, parts, hn, hb, hlen⟩
  · obtain ⟨b', -, hopen, hreg, -⟩ := hlaid.openTopicLocked hname hb partitions
    rw [hn, hb]
    rw [hopen]
    exact ⟨h.openTopic hreg, rfl⟩
  · rw [hn, hb]
    dsimp only
    rw [hlen]
    split_ifs <;> exact ⟨h, rfl⟩

end Agree

end ToyMQ.Broker
