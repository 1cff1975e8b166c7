import ToyMQ.Lib.Run
import ToyMQ.Wal.Segment

/-!
# The write-ahead log as a transition system

`Log` has the fields of the source's struct; `Proc` adds what the goroutines around it hold: who
has the mutex and how far that call has come, the appenders that wait for a group commit, the
committer between the two halves of `flush`, and the segments that `DropSegmentsBefore` has cut
from the slice. `step` is one atomic step of any of them: an `Append` is cut where it touches a
file, since a crash can fall there, and a `flush` where it gives the mutex up.

Each I/O operation carries its outcome in the action. The counters are natural numbers here and
64-bit in the source: `HasRoom` keeps an append within the range where the two agree.

`Step` lists what a step can do, and `step_sound` says that `step` does nothing else. The
invariants of the log are proved over `Step`.
-/

namespace ToyMQ.Wal

open Lib

/-- `SyncMode`: when `Append` forces data to disk. -/
inductive SyncMode where
  | perMessage
  | batched
  | none
deriving DecidableEq, Repr

/-- The files of a directory by name. -/
abbrev Dir := List (Bytes × File)

/-- The file of a directory entry, when the name exists. -/
def Dir.find (d : Dir) (name : Bytes) : Option File := List.lookup name d

/-- The log. A log always has an active segment, so the slice of the source is kept as the
sealed segments and the active one. -/
structure Log where
  sealed : List Segment
  active : Segment
  nextMsgID : ℕ
  /-- Logical bytes written; may exceed `committed` before an fsync. -/
  written : ℕ
  /-- Logical bytes that are durable and visible to readers. -/
  committed : ℕ
  syncMode : SyncMode
  /-- The segment whose `Sync` the field `syncFn` is, by index. -/
  syncFn : ℕ
  /-- Set by the committer on a failed fsync. -/
  commitErr : Bool
  /-- The soft size cap of a segment; 0 disables rotation. -/
  segmentBytes : ℕ
deriving DecidableEq, Repr

/-- The slice `segments`, ordered by index, the active segment last. -/
def Log.segments (l : Log) : List Segment := l.sealed ++ [l.active]

/-- What the goroutine that holds the mutex is about to do. -/
inductive Holder where
  /-- Nobody holds the mutex. -/
  | free
  /-- `rotate`, before the fsync of the segment it seals. -/
  | rotateSync (rec : Record)
  /-- `rotate`, before it creates the next file. -/
  | rotateCreate (rec : Record)
  /-- `Append`, before it writes the frame of `rec`. -/
  | write (rec : Record)
  /-- `Append` in per-message mode, before the fsync of the record that ends at `stop`. -/
  | fsync (rec : Record) (stop : ℕ)
  /-- `DropSegmentsBefore`, in its loop over `toDrop`. -/
  | removing
deriving DecidableEq, Repr

/-- Where the group committer is in `flush`. -/
inductive Flusher where
  | idle
  /-- It has snapshotted the write offset and the segment to sync, and released the mutex. -/
  | syncing (snap target : ℕ)
  /-- Its fsync has returned; it has not taken the mutex again. -/
  | publish (snap : ℕ) (ok : Bool)
deriving DecidableEq, Repr

/-- A log with the goroutines that use it, and a history of what they did. -/
structure Proc where
  log : Log
  holder : Holder
  /-- Appenders in `cond.Wait`, each with its record and end offset. -/
  waiting : List (Record × ℕ)
  flusher : Flusher
  /-- Segments cut from the slice whose files are still to be removed. -/
  toDrop : List Segment
  /-- Segments whose files were removed; a reader may still hold them. -/
  gone : List Segment
  /-- Other files in the directory. -/
  strays : Dir
  /-- Every record written so far, with its id (history). -/
  appended : List Record
  /-- The appends that returned success, with their end offsets (history). -/
  acked : List (Record × ℕ)
  /-- The records of the appends that returned an error (history). -/
  failed : List Record
deriving DecidableEq, Repr

/-- The segments before the active one, oldest first, with the dropped ones. -/
def Proc.older (p : Proc) : List Segment := p.gone ++ (p.toDrop ++ p.log.sealed)

/-- All segments of the process, oldest first, with the dropped ones. -/
def Proc.all (p : Proc) : List Segment := p.older ++ [p.log.active]

/-- The segments whose file has a name in the directory. -/
def Proc.linked (p : Proc) : List Segment := p.toDrop ++ p.log.segments

theorem Proc.all_eq_gone_append (p : Proc) : p.all = p.gone ++ p.linked := by
  simp [Proc.all, Proc.older, Proc.linked, Log.segments]

/-- One atomic step of a goroutine, with the outcome of its I/O. -/
inductive Action where
  /-- `Append` takes the mutex and decides whether to rotate. -/
  | append (rec : Record)
  /-- The fsync of `rotate`. -/
  | rotateSync (ok : Bool)
  /-- `rotate` opens the next file. -/
  | rotateCreate (ok : Bool)
  /-- The write of `Append`: all of the frame, or only so many bytes before an error. -/
  | write (cut : Option ℕ)
  /-- The inline fsync of per-message mode. -/
  | fsync (ok : Bool)
  /-- A waiting appender wakes up and finds its answer. -/
  | resume (i : ℕ)
  /-- The first half of `flush`. -/
  | flushBegin
  /-- The fsync of `flush`, outside the mutex. -/
  | flushSync (ok : Bool)
  /-- The second half of `flush`. -/
  | flushEnd
  /-- `DropSegmentsBefore` cuts the slice. -/
  | drop (keepIndex : ℕ)
  /-- `DropSegmentsBefore` closes and removes one file. -/
  | remove (ok : Bool)
deriving DecidableEq, Repr

/-- The 64-bit counters stay in range for one more record. -/
def Log.HasRoom (l : Log) (rec : Record) : Prop :=
  l.nextMsgID + 1 < 2 ^ 64 ∧ l.written + (codec.frame rec).length < 2 ^ 64

instance (l : Log) (rec : Record) : Decidable (l.HasRoom rec) :=
  inferInstanceAs (Decidable (_ ∧ _))

/-- The record with the id that `Append` assigns. -/
def Log.stamp (l : Log) (rec : Record) : Record :=
  { rec with msgID := UInt64.ofNat l.nextMsgID }

/-- Whether `Append` rolls to a fresh segment before it writes `rec`. -/
def Log.shouldRotate (l : Log) (rec : Record) : Bool :=
  let localSize := l.written - l.active.baseByteOffset
  0 < l.segmentBytes && (0 < localSize && l.segmentBytes < localSize + (codec.frame rec).length)

/-- The fsync of the segment with index `target` in a list of segments. -/
def syncAt (target : ℕ) (s : Segment) : Segment := if s.index = target then s.sync else s

/-- A successful fsync of an open descriptor. -/
def Proc.syncSegment (p : Proc) (target : ℕ) : Proc :=
  { p with
    toDrop := p.toDrop.map (syncAt target)
    log := { p.log with
      sealed := p.log.sealed.map (syncAt target)
      active := syncAt target p.log.active } }

/-- Whether the descriptor of a segment is open: `DropSegmentsBefore` closes the ones it drops. -/
def Proc.isOpen (p : Proc) (target : ℕ) : Bool := p.linked.any fun s => s.index == target

/-- The call that holds the mutex returns success. -/
def Proc.succeed (p : Proc) (rec : Record) (stop : ℕ) : Proc :=
  { p with holder := .free, acked := p.acked ++ [(rec, stop)] }

/-- The call that holds the mutex returns an error. -/
def Proc.fail (p : Proc) (rec : Record) : Proc :=
  { p with holder := .free, failed := p.failed ++ [rec] }

/-- The new segment of `rotate`. Its file is opened without truncation, so that a file which
already has the name keeps its data. -/
def Proc.nextSegment (p : Proc) : Segment :=
  { index := p.log.active.index + 1
    baseMsgID := p.log.nextMsgID
    baseByteOffset := p.log.written
    maxTsNs := 0
    maxVisibleAtNs := 0
    f := (p.strays.find (segmentName (p.log.active.index + 1))).getD File.empty }

/-- `rotate` appends the new segment to the slice and repoints `syncFn`. -/
def Proc.rotated (p : Proc) : Proc :=
  { p with
    log := { p.log with
      sealed := p.log.sealed ++ [p.log.active]
      active := p.nextSegment
      syncFn := p.nextSegment.index } }

/-- The active segment after a record was written to it. -/
def Segment.withRecord (s : Segment) (rec : Record) : Segment :=
  { s with
    f := s.f.append (codec.frame rec)
    maxTsNs := if s.maxTsNs < rec.tsNs then rec.tsNs else s.maxTsNs
    maxVisibleAtNs := if s.maxVisibleAtNs < rec.visibleAtNs then rec.visibleAtNs
      else s.maxVisibleAtNs }

/-- The log after the frame of `rec` was written in full. -/
def Proc.wrote (p : Proc) (rec : Record) : Proc :=
  { p with
    log := { p.log with
      active := p.log.active.withRecord rec
      nextMsgID := p.log.nextMsgID + 1
      written := p.log.written + (codec.frame rec).length }
    appended := p.appended ++ [rec] }

/-- `committed.Store`. -/
def Proc.commit (p : Proc) (n : ℕ) : Proc := { p with log := { p.log with committed := n } }

/-! ## The steps -/

/-- `Append` under the mutex, up to its first I/O. -/
def Proc.append (p : Proc) (rec : Record) : Option Proc :=
  if p.holder ≠ .free ∨ ¬ p.log.HasRoom (p.log.stamp rec) then none
  else if ¬ Fits (p.log.stamp rec) then some (p.fail (p.log.stamp rec))
  else if p.log.shouldRotate (p.log.stamp rec) then
    if p.log.committed < p.log.written then
      some { p with holder := .rotateSync (p.log.stamp rec) }
    else some { p with holder := .rotateCreate (p.log.stamp rec) }
  else some { p with holder := .write (p.log.stamp rec) }

/-- `Append` after the write of `rec`: the durability fence of each mode. -/
def Proc.fence (p : Proc) (rec : Record) : Proc :=
  match p.log.syncMode with
  | .batched =>
    if p.log.written ≤ p.log.committed then p.succeed rec p.log.written
    else if p.log.commitErr then p.fail rec
    else { p with holder := .free, waiting := p.waiting ++ [(rec, p.log.written)] }
  | .none => (p.commit p.log.written).succeed rec p.log.written
  | .perMessage => { p with holder := .fsync rec p.log.written }

/-- A write that stopped after `k` bytes: the bytes stay in the file and no counter moves. -/
def Proc.torn (p : Proc) (rec : Record) (k : ℕ) : Proc :=
  { p with log := { p.log with
      active := { p.log.active with
        f := p.log.active.f.append ((codec.frame rec).take k) } } }

/-- A waiting appender checks its predicate again. -/
def Proc.resume (p : Proc) (i : ℕ) : Option Proc :=
  if p.holder ≠ .free then none
  else
    match p.waiting[i]? with
    | none => none
    | some (rec, stop) =>
      if stop ≤ p.log.committed then
        some ({ p with waiting := p.waiting.eraseIdx i }.succeed rec stop)
      else if p.log.commitErr then some ({ p with waiting := p.waiting.eraseIdx i }.fail rec)
      else none

/-- The first half of `flush`; with nothing to flush the call returns at once. -/
def Proc.flushBegin (p : Proc) : Option Proc :=
  if p.holder ≠ .free ∨ p.flusher ≠ .idle ∨ p.log.syncMode ≠ .batched then none
  else if p.log.written ≤ p.log.committed ∨ p.log.commitErr then none
  else some { p with flusher := .syncing p.log.written p.log.syncFn }

/-- The second half of `flush`. -/
def Proc.flushEnd (p : Proc) : Option Proc :=
  match p.holder, p.flusher with
  | .free, .publish _ false =>
    some { p with flusher := .idle, log := { p.log with commitErr := true } }
  | .free, .publish snap true =>
    some { p with
      flusher := .idle
      log := { p.log with committed := if p.log.committed < snap then snap else p.log.committed } }
  | _, _ => none

/-- The sealed segments that `DropSegmentsBefore` drops. `keepIndex` is clamped to the active
index, and the cut is the first segment that is not below it. -/
def Log.dropped (l : Log) (keepIndex : ℕ) : List Segment :=
  l.sealed.takeWhile fun s => s.index < min keepIndex l.active.index

/-- The sealed segments that `DropSegmentsBefore` keeps. -/
def Log.kept (l : Log) (keepIndex : ℕ) : List Segment :=
  l.sealed.dropWhile fun s => s.index < min keepIndex l.active.index

theorem Log.dropped_append_kept (l : Log) (keepIndex : ℕ) :
    l.dropped keepIndex ++ l.kept keepIndex = l.sealed :=
  List.takeWhile_append_dropWhile

/-- `DropSegmentsBefore` cuts the slice. -/
def Proc.drop (p : Proc) (keepIndex : ℕ) : Option Proc :=
  if p.holder ≠ .free then none
  else if p.log.dropped keepIndex = [] then some p
  else
    some { p with
      holder := .removing
      toDrop := p.log.dropped keepIndex
      log := { p.log with sealed := p.log.kept keepIndex } }

/-- One turn of the removal loop of `DropSegmentsBefore`. A file that cannot be removed stays in
the directory. -/
def Proc.remove (p : Proc) (ok : Bool) : Option Proc :=
  match p.holder, p.toDrop with
  | .removing, s :: rest =>
    some { p with
      holder := if rest = [] then .free else .removing
      toDrop := rest
      gone := p.gone ++ [s]
      strays := if ok then p.strays else p.strays ++ [(segmentName s.index, s.f)] }
  | _, _ => none

/-- One atomic step of the log's goroutines. -/
def step (p : Proc) : Action → Option Proc
  | .append rec => p.append rec
  | .rotateSync ok =>
    match p.holder, ok with
    | .rotateSync rec, true =>
      some { (p.syncSegment p.log.active.index).commit p.log.written with
        holder := .rotateCreate rec }
    | .rotateSync rec, false => some (p.fail rec)
    | _, _ => none
  | .rotateCreate ok =>
    match p.holder, ok with
    | .rotateCreate rec, true => some { p.rotated with holder := .write rec }
    | .rotateCreate rec, false => some (p.fail rec)
    | _, _ => none
  | .write cut =>
    match p.holder, cut with
    | .write rec, none => some ((p.wrote rec).fence rec)
    | .write rec, some k =>
      if k ≤ (codec.frame rec).length then some ((p.torn rec k).fail rec) else none
    | _, _ => none
  | .fsync ok =>
    match p.holder, ok with
    | .fsync rec stop, true =>
      some (((p.syncSegment p.log.syncFn).commit stop).succeed rec stop)
    | .fsync rec _, false => some (p.fail rec)
    | _, _ => none
  | .resume i => p.resume i
  | .flushBegin => p.flushBegin
  | .flushSync ok =>
    match p.flusher with
    | .syncing snap target =>
      if ok && p.isOpen target then
        some { p.syncSegment target with flusher := .publish snap true }
      else some { p with flusher := .publish snap false }
    | _ => none
  | .flushEnd => p.flushEnd
  | .drop keepIndex => p.drop keepIndex
  | .remove ok => p.remove ok

/-! ## What a step can do -/

/-- The rules of a step, one for each outcome of each call. -/
inductive Step (p : Proc) : Action → Proc → Prop where
  /-- `Append` rejects a record that does not fit a frame. -/
  | appendTooLarge {rec : Record} (hfree : p.holder = .free)
      (hfit : ¬ Fits (p.log.stamp rec)) : Step p (.append rec) (p.fail (p.log.stamp rec))
  /-- `Append` has to rotate and bytes of the active segment are not committed. -/
  | appendRotateSync {rec : Record} (hfree : p.holder = .free)
      (hroom : p.log.HasRoom (p.log.stamp rec)) (hfit : Fits (p.log.stamp rec))
      (hrot : p.log.shouldRotate (p.log.stamp rec) = true)
      (hlt : p.log.committed < p.log.written) :
      Step p (.append rec) { p with holder := .rotateSync (p.log.stamp rec) }
  /-- `Append` has to rotate and all bytes are committed. -/
  | appendRotateCreate {rec : Record} (hfree : p.holder = .free)
      (hroom : p.log.HasRoom (p.log.stamp rec)) (hfit : Fits (p.log.stamp rec))
      (hrot : p.log.shouldRotate (p.log.stamp rec) = true)
      (hle : p.log.written ≤ p.log.committed) :
      Step p (.append rec) { p with holder := .rotateCreate (p.log.stamp rec) }
  /-- `Append` writes to the active segment. -/
  | appendWrite {rec : Record} (hfree : p.holder = .free)
      (hroom : p.log.HasRoom (p.log.stamp rec)) (hfit : Fits (p.log.stamp rec)) :
      Step p (.append rec) { p with holder := .write (p.log.stamp rec) }
  | rotateSync {rec : Record} (hh : p.holder = .rotateSync rec) :
      Step p (.rotateSync true)
        { (p.syncSegment p.log.active.index).commit p.log.written with
          holder := .rotateCreate rec }
  | rotateSyncFail {rec : Record} (hh : p.holder = .rotateSync rec) :
      Step p (.rotateSync false) (p.fail rec)
  | rotateCreate {rec : Record} (hh : p.holder = .rotateCreate rec) :
      Step p (.rotateCreate true) { p.rotated with holder := .write rec }
  | rotateCreateFail {rec : Record} (hh : p.holder = .rotateCreate rec) :
      Step p (.rotateCreate false) (p.fail rec)
  | write {rec : Record} (hh : p.holder = .write rec) :
      Step p (.write none) ((p.wrote rec).fence rec)
  | writeTorn {rec : Record} {k : ℕ} (hh : p.holder = .write rec)
      (hk : k ≤ (codec.frame rec).length) : Step p (.write (some k)) ((p.torn rec k).fail rec)
  | fsync {rec : Record} {stop : ℕ} (hh : p.holder = .fsync rec stop) :
      Step p (.fsync true) (((p.syncSegment p.log.syncFn).commit stop).succeed rec stop)
  | fsyncFail {rec : Record} {stop : ℕ} (hh : p.holder = .fsync rec stop) :
      Step p (.fsync false) (p.fail rec)
  | resume {i : ℕ} {rec : Record} {stop : ℕ} (hfree : p.holder = .free)
      (hi : p.waiting[i]? = some (rec, stop)) (hle : stop ≤ p.log.committed) :
      Step p (.resume i) ({ p with waiting := p.waiting.eraseIdx i }.succeed rec stop)
  | resumeFail {i : ℕ} {rec : Record} {stop : ℕ} (hfree : p.holder = .free)
      (hi : p.waiting[i]? = some (rec, stop)) (herr : p.log.commitErr = true) :
      Step p (.resume i) ({ p with waiting := p.waiting.eraseIdx i }.fail rec)
  | flushBegin (hfree : p.holder = .free) (hidle : p.flusher = .idle)
      (hmode : p.log.syncMode = .batched) (hlt : p.log.committed < p.log.written) :
      Step p .flushBegin { p with flusher := .syncing p.log.written p.log.syncFn }
  | flushSync {snap target : ℕ} (hf : p.flusher = .syncing snap target)
      (hopen : p.isOpen target = true) :
      Step p (.flushSync true) { p.syncSegment target with flusher := .publish snap true }
  | flushSyncFail {ok : Bool} {snap target : ℕ} (hf : p.flusher = .syncing snap target)
      (hfail : ok = false ∨ p.isOpen target = false) :
      Step p (.flushSync ok) { p with flusher := .publish snap false }
  | flushEnd {snap : ℕ} (hfree : p.holder = .free) (hf : p.flusher = .publish snap true) :
      Step p .flushEnd { p with
        flusher := .idle
        log := { p.log with
          committed := if p.log.committed < snap then snap else p.log.committed } }
  | flushEndFail {snap : ℕ} (hfree : p.holder = .free) (hf : p.flusher = .publish snap false) :
      Step p .flushEnd { p with flusher := .idle, log := { p.log with commitErr := true } }
  | dropNone {keepIndex : ℕ} (hfree : p.holder = .free) : Step p (.drop keepIndex) p
  | drop {keepIndex : ℕ} (hfree : p.holder = .free) (hne : p.log.dropped keepIndex ≠ []) :
      Step p (.drop keepIndex) { p with
        holder := .removing
        toDrop := p.log.dropped keepIndex
        log := { p.log with sealed := p.log.kept keepIndex } }
  | remove {ok : Bool} {s : Segment} {rest : List Segment} (hh : p.holder = .removing)
      (hdrop : p.toDrop = s :: rest) :
      Step p (.remove ok) { p with
        holder := if rest = [] then .free else .removing
        toDrop := rest
        gone := p.gone ++ [s]
        strays := if ok then p.strays else p.strays ++ [(segmentName s.index, s.f)] }

/-- What the fence of `Append` can do: return, wait, or go on to the inline fsync. -/
theorem fence_cases (p : Proc) (rec : Record) :
    (p.log.written ≤ p.log.committed ∧ p.fence rec = p.succeed rec p.log.written) ∨
    p.fence rec = p.fail rec ∨
    p.fence rec = { p with holder := .free, waiting := p.waiting ++ [(rec, p.log.written)] } ∨
    (p.log.syncMode = .none ∧
      p.fence rec = (p.commit p.log.written).succeed rec p.log.written) ∨
    p.fence rec = { p with holder := .fsync rec p.log.written } := by
  unfold Proc.fence
  split
  · split_ifs with hle herr
    · exact .inl ⟨hle, rfl⟩
    · exact .inr (.inl rfl)
    · exact .inr (.inr (.inl rfl))
  · next hmode => exact .inr (.inr (.inr (.inl ⟨hmode, rfl⟩)))
  · exact .inr (.inr (.inr (.inr rfl)))

variable {p p' : Proc}

theorem append_sound {rec : Record} (h : p.append rec = some p') : Step p (.append rec) p' := by
  unfold Proc.append at h
  split_ifs at h with hguard hfit hrot hlt
  all_goals
    obtain ⟨hfree, hroom⟩ := not_or.mp hguard
    obtain rfl := Option.some.inj h
  · exact .appendRotateSync (not_not.mp hfree) (not_not.mp hroom) hfit hrot hlt
  · exact .appendRotateCreate (not_not.mp hfree) (not_not.mp hroom) hfit hrot
      (Nat.le_of_not_lt hlt)
  · exact .appendWrite (not_not.mp hfree) (not_not.mp hroom) hfit
  · exact .appendTooLarge (not_not.mp hfree) hfit

theorem resume_sound {i : ℕ} (h : p.resume i = some p') : Step p (.resume i) p' := by
  rcases hi : p.waiting[i]? with _ | ⟨rec, stop⟩
  · simp [Proc.resume, hi] at h
  · simp only [Proc.resume, hi] at h
    split_ifs at h with hfree hle herr
    · obtain rfl := Option.some.inj h
      exact .resume (not_not.mp hfree) hi hle
    · obtain rfl := Option.some.inj h
      exact .resumeFail (not_not.mp hfree) hi herr

theorem drop_sound {keepIndex : ℕ} (h : p.drop keepIndex = some p') :
    Step p (.drop keepIndex) p' := by
  unfold Proc.drop at h
  split_ifs at h with hfree hnil
  · obtain rfl := Option.some.inj h
    exact .dropNone (not_not.mp hfree)
  · obtain rfl := Option.some.inj h
    exact .drop (not_not.mp hfree) hnil

/-- Every step of the log is one of the rules. -/
theorem step_sound {a : Action} (h : step p a = some p') : Step p a p' := by
  cases a with
  | append => exact append_sound h
  | resume => exact resume_sound h
  | drop => exact drop_sound h
  | rotateSync =>
    simp only [step] at h
    split at h <;> cases h
    · next hh => exact .rotateSync hh
    · next hh => exact .rotateSyncFail hh
  | rotateCreate =>
    simp only [step] at h
    split at h <;> cases h
    · next hh => exact .rotateCreate hh
    · next hh => exact .rotateCreateFail hh
  | write =>
    simp only [step] at h
    split at h
    · next hh => cases h; exact .write hh
    · next hh =>
      split_ifs at h with hk
      cases h
      exact .writeTorn hh hk
    · cases h
  | fsync =>
    simp only [step] at h
    split at h <;> cases h
    · next hh => exact .fsync hh
    · next hh => exact .fsyncFail hh
  | flushBegin =>
    simp only [step, Proc.flushBegin] at h
    split_ifs at h with hguard hnothing
    obtain ⟨hfree, hidle, hmode⟩ := by simpa only [not_or, not_not] using hguard
    cases h
    exact .flushBegin hfree hidle hmode (Nat.lt_of_not_le (not_or.mp hnothing).1)
  | flushSync =>
    simp only [step] at h
    split at h
    · next hf =>
      split_ifs at h with hok
      · obtain ⟨rfl, hopen⟩ := Bool.and_eq_true_iff.mp hok
        cases h
        exact .flushSync hf hopen
      · cases h
        exact .flushSyncFail hf (Bool.and_eq_false_iff.mp (Bool.eq_false_iff.mpr hok))
    · cases h
  | flushEnd =>
    simp only [step, Proc.flushEnd] at h
    split at h <;> cases h
    · next hfree hf => exact .flushEndFail hfree hf
    · next hfree hf => exact .flushEnd hfree hf
  | remove =>
    simp only [step, Proc.remove] at h
    split at h <;> cases h
    next hh hdrop => exact .remove hh hdrop

end ToyMQ.Wal
