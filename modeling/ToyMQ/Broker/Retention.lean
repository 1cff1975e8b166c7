import Mathlib.Data.List.TakeWhile
import ToyMQ.Wal.Representation

/-!
# The retention sweep

`sweepPartitionRetention` takes a snapshot of a partition's segments, decides from it which index
to keep from, and asks the log to drop what lies below. The decision combines three scans: the byte
budget, the age policy, and the guard that keeps messages whose time has not come. Between the
snapshot and the drop the log may have grown.

Each scan has one lemma that says what it returns (`keepIndexByBytes_spec`, `le_of_unfired`).
`Grown` is what the steps between do to the slice: they add segments at its end, and touch no file
but the last of the snapshot's. The two meet in `sweep_safe_and_tight`.

The sweep trusts `maxVisibleAtNs`, which `unfired_dropped_past_name_limit` shows to be wrong once
the log has come to the first index of seven digits for the second time.
-/

namespace ToyMQ.Wal

/-- `SegmentInfo`. -/
structure SegmentInfo where
  index : ℕ
  baseMsgID : ℕ
  /-- The readable length. -/
  bytes : ℕ
  /-- The newest record timestamp; 0 if the segment is empty. -/
  maxTsNs : UInt64
  /-- The highest `visibleAtNs`; 0 if no record is delayed. -/
  maxVisibleAtNs : UInt64
  /-- Whether this is the one writable segment. -/
  active : Bool
deriving DecidableEq, Repr

/-- `SegmentInfos`: a snapshot of every segment, oldest first. -/
def Log.segmentInfos (l : Log) : List SegmentInfo :=
  l.segments.map fun seg =>
    let res := l.readableLen seg.index seg.baseByteOffset
    ⟨seg.index, seg.baseMsgID, res.1, seg.maxTsNs, seg.maxVisibleAtNs, res.2⟩

end ToyMQ.Wal

namespace ToyMQ.Broker

open Lib List
open Wal (SegmentInfo Segment Proc Action Log Record)

/-! ## The decision -/

def firstIndex (segs : List SegmentInfo) : ℕ := (segs.head?.map SegmentInfo.index).getD 0

/-- The index of the newest segment, the active one. -/
def lastIndex (segs : List SegmentInfo) : ℕ := (segs.getLast?.map SegmentInfo.index).getD 0

/-- The loop of `keepIndexByBytes`, over the segments that are left, newest first. -/
def keepFromNewest (retainBytes : ℕ) : ℕ → ℕ → List SegmentInfo → ℕ
  | _, keepFrom, [] => keepFrom
  | total, keepFrom, s :: rest =>
    if retainBytes < total + s.bytes then keepFrom
    else keepFromNewest retainBytes (total + s.bytes) s.index rest

/-- `keepIndexByBytes`: the oldest index that keeps the total within `retainBytes`, counted from
the newest segment on; 0 disables the policy. -/
def keepIndexByBytes (segs : List SegmentInfo) (retainBytes : ℕ) : ℕ :=
  if retainBytes = 0 then firstIndex segs
  else keepFromNewest retainBytes 0 (lastIndex segs) segs.reverse

/-- The loop of `keepIndexByAge`. -/
def keepFromOldest (cutoff : UInt64) (keepFrom : ℕ) : List SegmentInfo → ℕ
  | [] => keepFrom
  | s :: rest =>
    if s.active then keepFrom
    else if s.maxTsNs = 0 ∨ cutoff ≤ s.maxTsNs then s.index
    else keepFromOldest cutoff keepFrom rest

/-- `keepIndexByAge`: the oldest index whose newest record is within `retainDur` of `now`; a
duration that is not positive disables the policy. The instant is a count of nanoseconds in 64 bits,
as the source compares it. -/
def keepIndexByAge (segs : List SegmentInfo) (retainDur : ℤ) (now : UInt64) : ℕ :=
  if retainDur ≤ 0 then firstIndex segs
  else keepFromOldest (now - UInt64.ofNat retainDur.toNat) (lastIndex segs) segs

/-- `oldestUnfiredDelaySegment`: the oldest segment that holds a message delayed beyond `now`. -/
def oldestUnfiredDelaySegment (segs : List SegmentInfo) (now : UInt64) : Option ℕ :=
  (segs.find? fun s => now < s.maxVisibleAtNs).map SegmentInfo.index

/-- `retentionKeepIndex`: the lowest index to keep, and whether anything is to be dropped. -/
def retentionKeepIndex (segs : List SegmentInfo) (retainBytes : ℕ) (retainDur : ℤ)
    (now : UInt64) : ℕ × Bool :=
  if segs = [] then (0, false)
  else
    let activeIdx := lastIndex segs
    let keep := keepIndexByBytes segs retainBytes
    let ageFloor := keepIndexByAge segs retainDur now
    let keep := if keep < ageFloor then ageFloor else keep
    let keep := if activeIdx < keep then activeIdx else keep
    let keep :=
      match oldestUnfiredDelaySegment segs now with
      | some delayFloor => if delayFloor < keep then delayFloor else keep
      | none => keep
    (keep, decide (firstIndex segs < keep))

/-! ## What the scans return -/

/-- The sizes of segments, added up. -/
def totalBytes (segs : List SegmentInfo) : ℕ := (segs.map SegmentInfo.bytes).sum

theorem keepFromNewest_spec (retainBytes total keepFrom : ℕ) (segs : List SegmentInfo) :
    ∃ taken rest, segs = taken ++ rest ∧
      keepFromNewest retainBytes total keepFrom segs
        = (taken.getLast?.map SegmentInfo.index).getD keepFrom ∧
      (taken ≠ [] → total + totalBytes taken ≤ retainBytes) ∧
      ∀ s rest', rest = s :: rest' → retainBytes < total + totalBytes taken + s.bytes := by
  induction segs generalizing total keepFrom with
  | nil => exact ⟨[], [], rfl, rfl, fun h => absurd rfl h, nofun⟩
  | cons s segs ih =>
    rw [keepFromNewest]
    split_ifs with hover
    · refine ⟨[], s :: segs, rfl, rfl, fun h => absurd rfl h, fun s' rest' heq => ?_⟩
      obtain ⟨rfl, -⟩ := List.cons.inj heq
      exact hover
    · obtain ⟨taken, rest, hsplit, hkeep, hfit, hnext⟩ := ih (total + s.bytes) s.index
      have hsum : totalBytes (s :: taken) = s.bytes + totalBytes taken := by simp [totalBytes]
      refine ⟨s :: taken, rest, by rw [hsplit, cons_append], ?_, fun _ => ?_, ?_⟩
      · rw [hkeep]
        cases taken with
        | nil => rfl
        | cons => rfl
      · rw [hsum]
        by_cases hnil : taken = []
        · rw [hnil]
          simp only [totalBytes, map_nil, sum_nil]
          omega
        · have := hfit hnil
          omega
      · intro s' rest' heq
        have := hnext s' rest' heq
        rw [hsum]
        omega

variable {segs : List SegmentInfo} {retainBytes : ℕ} {now : UInt64}

/-- Under the byte policy the snapshot splits into what is dropped and what is kept: what is kept
is within the budget or just the active segment, and the newest segment dropped would exceed it. -/
theorem keepIndexByBytes_spec (hne : segs ≠ []) (hretain : 0 < retainBytes) :
    ∃ dropped first kept, segs = dropped ++ first :: kept ∧
      keepIndexByBytes segs retainBytes = first.index ∧
      (totalBytes (first :: kept) ≤ retainBytes ∨ kept = []) ∧
      ∀ older newest, dropped = older ++ [newest] →
        retainBytes < newest.bytes + totalBytes (first :: kept) := by
  obtain ⟨front, last, rfl⟩ : ∃ front last, segs = front ++ [last] :=
    ⟨_, _, (dropLast_append_getLast hne).symm⟩
  obtain ⟨taken, rest, hsplit, hkeep, hfit, hnext⟩ :=
    keepFromNewest_spec retainBytes 0 (lastIndex (front ++ [last])) (front ++ [last]).reverse
  have hindex : keepIndexByBytes (front ++ [last]) retainBytes
      = (taken.getLast?.map SegmentInfo.index).getD (lastIndex (front ++ [last])) := by
    rw [keepIndexByBytes, if_neg (by omega), hkeep]
  have hrev : front ++ [last] = rest.reverse ++ taken.reverse := by
    rw [← reverse_append, ← hsplit, reverse_reverse]
  rcases eq_nil_or_concat taken with rfl | ⟨newer, oldest, rfl⟩
  · -- The active segment alone exceeds the budget.
    refine ⟨front, last, [], rfl, ?_, .inr rfl, fun older newest _ => ?_⟩
    · rw [hindex, lastIndex, getLast?_concat]
      rfl
    · rw [reverse_append, reverse_singleton, singleton_append,
        nil_append] at hsplit
      have := hnext last front.reverse hsplit.symm
      simp only [totalBytes, map_nil, sum_nil, map_cons, sum_cons] at this ⊢
      omega
  · rw [concat_eq_append] at hrev hindex hfit hnext
    have hsum : totalBytes (oldest :: newer.reverse) = totalBytes (newer ++ [oldest]) := by
      simp only [totalBytes, map_cons, sum_cons, map_append, sum_append,
        map_reverse, sum_reverse, map_nil, sum_nil]
      omega
    refine ⟨rest.reverse, oldest, newer.reverse, ?_, ?_, .inl ?_, fun older newest heq => ?_⟩
    · rw [hrev, reverse_append, reverse_singleton]
      rfl
    · rw [hindex, getLast?_concat]
      rfl
    · rw [hsum]
      have := hfit (by simp)
      omega
    · have hrest : rest = newest :: older.reverse := by
        rw [← reverse_reverse rest, heq, reverse_append, reverse_singleton]
        rfl
      have := hnext newest older.reverse hrest
      rw [hsum]
      omega

section Sorted

variable {segs : List SegmentInfo} (hsorted : segs.Pairwise fun s s' => s.index < s'.index)
include hsorted

variable {s : SegmentInfo}

/-- No segment is older than the first. -/
theorem firstIndex_le (hs : s ∈ segs) : firstIndex segs ≤ s.index := by
  cases segs with
  | nil => simp at hs
  | cons =>
    rcases mem_cons.mp hs with rfl | hlater
    · exact le_rfl
    · exact (rel_of_pairwise_cons hsorted hlater).le

/-- No segment is newer than the last. -/
theorem le_lastIndex (hs : s ∈ segs) : s.index ≤ lastIndex segs := by
  rcases eq_nil_or_concat segs with rfl | ⟨front, last, rfl⟩
  · simp at hs
  rw [concat_eq_append] at hs hsorted ⊢
  rw [lastIndex, getLast?_concat]
  rcases mem_append.mp hs with hfront | hlast
  · exact ((pairwise_append.mp hsorted).2.2 s hfront last (by simp)).le
  · rw [mem_singleton.mp hlast]
    exact le_rfl

/-- The guard for delayed messages: a segment with one whose time has not come is kept. -/
theorem le_of_unfired (retainBytes : ℕ) (retainDur : ℤ) {now : UInt64} (hs : s ∈ segs)
    (hunfired : now < s.maxVisibleAtNs) :
    (retentionKeepIndex segs retainBytes retainDur now).1 ≤ s.index := by
  obtain ⟨t, ht⟩ : ∃ t, segs.find? (fun s => now < s.maxVisibleAtNs) = some t :=
    Option.isSome_iff_exists.mp (find?_isSome.mpr ⟨s, hs, by simpa using hunfired⟩)
  -- The scan stops at the first such segment, which is not newer than this one.
  have hle : t.index ≤ s.index := by
    obtain ⟨-, front, rest, rfl, hnone⟩ := find?_eq_some_iff_append.mp ht
    rcases mem_append.mp hs with hfront | hrest
    · have hnot := hnone s hfront
      rw [decide_eq_true hunfired] at hnot
      cases hnot
    · rcases mem_cons.mp hrest with rfl | hlater
      · exact le_rfl
      · exact (rel_of_pairwise_cons (pairwise_append.mp hsorted).2.1 hlater).le
  unfold retentionKeepIndex
  split_ifs with hnil
  · exact Nat.zero_le _
  · simp only [oldestUnfiredDelaySegment, ht, Option.map_some]
    split_ifs <;> omega

end Sorted

/-- The active segment is kept. -/
theorem keepIndex_le_lastIndex (segs : List SegmentInfo) (retainBytes : ℕ) (retainDur : ℤ)
    (now : UInt64) : (retentionKeepIndex segs retainBytes retainDur now).1 ≤ lastIndex segs := by
  unfold retentionKeepIndex
  split_ifs with hnil
  · exact Nat.zero_le _
  · simp only
    split <;> split_ifs <;> omega

theorem drop_iff (segs : List SegmentInfo) (retainBytes : ℕ) (retainDur : ℤ) (now : UInt64) :
    (retentionKeepIndex segs retainBytes retainDur now).2 = true ↔
      firstIndex segs < (retentionKeepIndex segs retainBytes retainDur now).1 := by
  unfold retentionKeepIndex
  split_ifs with hnil
  · simp
  · simp

/-- With the age policy off and no message waiting for its time, the byte policy decides. -/
theorem keepIndex_eq_byBytes (hne : segs ≠ [])
    (hsorted : segs.Pairwise fun s s' => s.index < s'.index) (hretain : 0 < retainBytes)
    {retainDur : ℤ} (hage : retainDur ≤ 0) (hfired : ∀ s ∈ segs, ¬ now < s.maxVisibleAtNs) :
    (retentionKeepIndex segs retainBytes retainDur now).1 = keepIndexByBytes segs retainBytes := by
  obtain ⟨dropped, first, kept, hsplit, hindex, -⟩ := keepIndexByBytes_spec hne hretain
  have hmem : first ∈ segs := by
    rw [hsplit]
    simp
  have hlow := firstIndex_le hsorted hmem
  have hhigh := le_lastIndex hsorted hmem
  have hnone : oldestUnfiredDelaySegment segs now = none := by
    rw [oldestUnfiredDelaySegment, find?_eq_none.mpr (by simpa using hfired), Option.map_none]
  simp only [retentionKeepIndex, if_neg hne, hnone, keepIndexByAge, if_pos hage, hindex]
  split_ifs <;> omega

/-! ## The sweep -/

/-- The configuration of retention: the fields that the sweep uses. -/
structure RetentionConfig where
  retainBytes : ℕ
  retainDuration : ℤ
deriving DecidableEq, Repr

/-- The decision of a sweep over a log. -/
def RetentionConfig.keepIndex (c : RetentionConfig) (l : Log) (now : UInt64) : ℕ × Bool :=
  retentionKeepIndex l.segmentInfos c.retainBytes c.retainDuration now

/-- A step of another goroutine: anything but a drop. -/
def Action.Other : Action → Prop
  | .drop _ => False
  | _ => True

instance : DecidablePred Action.Other
  | .drop _ => isFalse id
  | .append _ | .rotateSync _ | .rotateCreate _ | .write _ | .fsync _ | .resume _ | .flushBegin
  | .flushSync _ | .flushEnd | .remove _ => isTrue trivial

/-- `sweepPartitionRetention`: the snapshot is taken in the state `p`, other goroutines run until
`p'`, and the drop, if there is one, leads to `p''`. -/
structure Sweep (c : RetentionConfig) (now : UInt64) (p p' p'' : Proc) : Prop where
  /-- `SegmentInfos` takes the mutex. -/
  free : p.holder = .free
  /-- Appends, rotations and flushes in between. -/
  between : ∃ as, Run Wal.step (fun _ a => Action.Other a) p as p'
  /-- `DropSegmentsBefore`, with the index that the snapshot led to. -/
  drop : if (c.keepIndex p.log now).2 then Wal.step p' (.drop (c.keepIndex p.log now).1) = some p''
    else p'' = p'

/-! ## What happens between the snapshot and the drop -/

def fileOf (s : Segment) : ℕ × Bytes := (s.index, s.f.data)

/-- The log has grown at its end: the sealed segments are still there, with the same bytes, the
others have indices from that of the active segment on, and that segment is one of them. -/
def Grown (l l' : Log) : Prop :=
  ∃ tail, l'.sealed.map fileOf = l.sealed.map fileOf ++ tail ∧
    (∀ e ∈ tail, l.active.index ≤ e.1) ∧ l.active.index ≤ l'.active.index ∧
    l.active.index ∈ tail.map Prod.fst ++ [l'.active.index]

theorem Grown.refl (l : Log) : Grown l l :=
  ⟨[], (append_nil _).symm, nofun, le_rfl, mem_singleton_self _⟩

theorem map_fileOf_syncAt (t : ℕ) (segs : List Segment) :
    (segs.map (Wal.syncAt t)).map fileOf = segs.map fileOf := by
  simp [fileOf, Function.comp_def]

variable {l : Log} {p p' : Proc} {k : ℕ} {i : SegmentInfo}

theorem Grown.congr {l' l'' : Log} (h : Grown l l')
    (hsealed : l''.sealed.map fileOf = l'.sealed.map fileOf)
    (hactive : l''.active.index = l'.active.index) : Grown l l'' := by
  obtain ⟨tail, hmap, htail, hle, hmem⟩ := h
  exact ⟨tail, hsealed.trans hmap, htail, hactive ▸ hle, hactive ▸ hmem⟩

theorem Grown.of_step {a : Action} (h : Grown l p.log) (ha : Action.Other a)
    (hstep : Wal.Step p a p') : Grown l p'.log := by
  have hsync : ∀ t, Grown l (p.syncSegment t).log := fun t =>
    h.congr (map_fileOf_syncAt t p.log.sealed) (Wal.index_syncAt t p.log.active)
  cases hstep with
  | rotateSync | fsync | flushSync => exact hsync _
  | rotateCreate =>
    obtain ⟨tail, hmap, htail, hle, hmem⟩ := h
    refine ⟨tail ++ [fileOf p.log.active], ?_, fun e he => ?_, hle.trans (Nat.le_succ _), ?_⟩
    · show (p.log.sealed ++ [p.log.active]).map fileOf = _
      rw [map_append, map_singleton, hmap, append_assoc]
    · rcases mem_append.mp he with hold | hnew
      · exact htail e hold
      · rw [mem_singleton.mp hnew]
        exact hle
    · rw [map_append]
      exact mem_append_left _ hmem
  | @write rec =>
    have hwrote : Grown l (p.wrote rec).log := h.congr rfl rfl
    rcases Wal.fence_cases (p.wrote rec) rec with ⟨-, heq⟩ | heq | heq | ⟨-, heq⟩ | heq <;>
      rw [heq] <;> exact hwrote
  | writeTorn => exact h.congr rfl rfl
  | drop => exact absurd ha id
  | _ => exact h

theorem log_of_drop (h : p.drop k = some p') : p'.log = { p.log with sealed := p.log.kept k } := by
  unfold Proc.drop at h
  split_ifs at h with hholder hnil
  · obtain rfl := Option.some.inj h
    have hkept : p.log.kept k = p.log.sealed := by
      have hsplit := p.log.dropped_append_kept k
      rwa [hnil, nil_append] at hsplit
    rw [hkept]
  · obtain rfl := Option.some.inj h
    rfl

/-- In a list that increases up to a point from which on all elements are at least `k`, dropping the
elements below `k` at its front drops all of them. -/
theorem le_of_mem_dropWhile {xs : List ℕ} (h : xs.Pairwise fun a b => a < b ∨ k ≤ b) :
    ∀ x ∈ xs.dropWhile (fun x => decide (x < k)), k ≤ x := by
  induction xs with
  | nil => simp
  | cons a xs ih =>
    obtain ⟨hrest, hxs⟩ := pairwise_cons.mp h
    by_cases hlt : a < k
    · rw [dropWhile_cons_of_pos (by simpa using hlt)]
      exact ih hxs
    · rw [dropWhile_cons_of_neg (by simpa using hlt)]
      intro x hx
      rcases mem_cons.mp hx with rfl | hlater
      · omega
      · rcases hrest x hlater with hgt | hge
        · omega
        · exact hge

namespace Grown

variable {l l' : Log} {k : ℕ}

theorem dropped (h : Grown l l') (hk : k ≤ l.active.index) :
    ∀ s ∈ l'.dropped k, s.index < k ∧ ∃ s₀ ∈ l.sealed, fileOf s₀ = fileOf s := by
  obtain ⟨tail, hmap, htail, hle, -⟩ := h
  intro s hs
  have hbelow : s.index < k := by
    have hlt := mem_takeWhile_imp hs
    rw [decide_eq_true_eq, min_eq_left (hk.trans hle)] at hlt
    exact hlt
  have hmem : fileOf s ∈ l'.sealed.map fileOf :=
    List.mem_map_of_mem ((takeWhile_sublist _).subset hs)
  rw [hmap] at hmem
  rcases mem_append.mp hmem with hold | hnew
  · obtain ⟨s₀, hs₀, heq⟩ := List.mem_map.mp hold
    exact ⟨hbelow, s₀, hs₀, heq⟩
  · have hge : l.active.index ≤ s.index := htail _ hnew
    omega

/-- What a drop keeps lies at or above the index. -/
theorem kept (h : Grown l l') (hk : k ≤ l.active.index) (hasc : Wal.Ascending l.sealed) :
    ∀ s ∈ l'.kept k, k ≤ s.index := by
  obtain ⟨tail, hmap, htail, hle, -⟩ := h
  have hindices : l'.sealed.map Segment.index =
      l.sealed.map Segment.index ++ tail.map Prod.fst := by
    simpa [fileOf, Function.comp_def] using congrArg (List.map Prod.fst) hmap
  have hordered : (l'.sealed.map Segment.index).Pairwise fun a b => a < b ∨ k ≤ b := by
    rw [hindices]
    have hlate : ∀ b ∈ tail.map Prod.fst, k ≤ b := by
      intro b hb
      obtain ⟨e, he, rfl⟩ := List.mem_map.mp hb
      exact hk.trans (htail e he)
    refine pairwise_append.mpr ⟨?_, ?_, fun a _ b hb => .inr (hlate b hb)⟩
    · exact pairwise_map.mpr (hasc.imp fun hlt => .inl hlt)
    · exact pairwise_iff_forall_sublist.mpr fun hsub =>
        .inr (hlate _ (hsub.subset (by simp)))
  intro s hs
  refine le_of_mem_dropWhile hordered s.index ?_
  rw [dropWhile_map]
  rw [Log.kept, min_eq_left (hk.trans hle)] at hs
  exact List.mem_map_of_mem hs

theorem index_mem (h : Grown l l') {s : Segment} (hs : s ∈ l.segments) :
    s.index ∈ l'.segments.map Segment.index := by
  obtain ⟨tail, hmap, -, -, hactive⟩ := h
  have hindices : l'.segments.map Segment.index
      = l.sealed.map Segment.index ++ (tail.map Prod.fst ++ [l'.active.index]) := by
    have hsealed : l'.sealed.map Segment.index
        = l.sealed.map Segment.index ++ tail.map Prod.fst := by
      simpa [fileOf, Function.comp_def] using congrArg (List.map Prod.fst) hmap
    rw [Log.segments, map_append, hsealed, append_assoc, map_singleton]
  rw [hindices]
  rcases mem_append.mp hs with hsealed | hlast
  · exact mem_append_left _ (List.mem_map_of_mem hsealed)
  · rw [mem_singleton.mp hlast]
    exact mem_append_right _ hactive

end Grown

/-! ## The result -/

theorem mem_segmentInfos (hi : i ∈ l.segmentInfos) :
    ∃ s ∈ l.segments, i.index = s.index ∧ i.maxVisibleAtNs = s.maxVisibleAtNs := by
  obtain ⟨s, hs, rfl⟩ := List.mem_map.mp hi
  exact ⟨s, hs, rfl, rfl⟩

theorem map_index_segmentInfos (l : Log) :
    l.segmentInfos.map SegmentInfo.index = l.segments.map Segment.index := by
  simp [Log.segmentInfos, Function.comp_def]

theorem lastIndex_segmentInfos (l : Log) : lastIndex l.segmentInfos = l.active.index := by
  simp [lastIndex, Log.segmentInfos, Log.segments]

/-- What a sweep does to the slice: it drops a front part of segments below the index to keep, all
of them sealed in the snapshot and unchanged since, and leaves those of the snapshot that are not
below it. -/
theorem Sweep.split {c : RetentionConfig} {p'' : Proc} (h : Sweep c now p p' p'')
    (hrep : p.log.Consistent) :
    ∃ dropped, p'.log.segments = dropped ++ p''.log.segments ∧
      p''.log.active = p'.log.active ∧
      (∀ s ∈ dropped, s.index < (c.keepIndex p.log now).1 ∧
        ∃ s₀ ∈ p.log.sealed, fileOf s₀ = fileOf s) ∧
      ∀ s ∈ p.log.segments, s.index ∈ p''.log.segments.map Segment.index ↔
        (c.keepIndex p.log now).1 ≤ s.index := by
  obtain ⟨as, hrun⟩ := h.between
  have hgrown : Grown p.log p'.log := hrun.invariant (I := fun q => Grown p.log q.log)
    (Grown.refl p.log) fun _ _ _ ha hg hstep => hg.of_step ha (Wal.step_sound hstep)
  have hk : (c.keepIndex p.log now).1 ≤ p.log.active.index := by
    rw [← lastIndex_segmentInfos]
    exact keepIndex_le_lastIndex _ _ _ _
  have hasc : Wal.Ascending p.log.sealed := (pairwise_append.mp hrep.ascending).1
  have hdrop := h.drop
  split_ifs at hdrop with hflag
  · have hlog := log_of_drop hdrop
    have hactive : p''.log.active = p'.log.active := by rw [hlog]
    have hsegments : p''.log.segments
        = p'.log.kept (c.keepIndex p.log now).1 ++ [p'.log.active] := by rw [hlog]; rfl
    have hsplit : p'.log.segments
        = p'.log.dropped (c.keepIndex p.log now).1 ++ p''.log.segments := by
      rw [hsegments, ← append_assoc, p'.log.dropped_append_kept]
      rfl
    refine ⟨_, hsplit, hactive, hgrown.dropped hk, fun s hs => ⟨fun hmem => ?_, fun hle => ?_⟩⟩
    · obtain ⟨s', hs', heq⟩ := List.mem_map.mp hmem
      rw [hsegments] at hs'
      rw [← heq]
      rcases mem_append.mp hs' with hkept | hlast
      · exact hgrown.kept hk hasc s' hkept
      · obtain ⟨-, -, -, hactive_le, -⟩ := hgrown
        rw [mem_singleton.mp hlast]
        exact hk.trans hactive_le
    · have hmem := hgrown.index_mem hs
      rw [hsplit, map_append] at hmem
      rcases mem_append.mp hmem with hgone | hleft
      · obtain ⟨s', hs', heq⟩ := List.mem_map.mp hgone
        have hlt := (hgrown.dropped hk s' hs').1
        omega
      · exact hleft
  · -- Nothing lies below the index to keep.
    refine ⟨[], by rw [hdrop, nil_append], by rw [hdrop], nofun, fun s hs => ?_⟩
    have hfirst : (c.keepIndex p.log now).1 ≤ firstIndex p.log.segmentInfos := by
      have hnot := mt (drop_iff p.log.segmentInfos c.retainBytes c.retainDuration now).mpr hflag
      exact Nat.le_of_not_lt hnot
    have hsorted : p.log.segmentInfos.Pairwise fun s s' => s.index < s'.index :=
      pairwise_map.mpr hrep.ascending
    have hinfo : s.index ∈ p.log.segmentInfos.map SegmentInfo.index := by
      rw [map_index_segmentInfos]
      exact List.mem_map_of_mem hs
    obtain ⟨i, hi, heq⟩ := List.mem_map.mp hinfo
    refine ⟨fun _ => heq ▸ hfirst.trans (firstIndex_le hsorted hi), fun _ => ?_⟩
    rw [hdrop]
    exact hgrown.index_mem hs

theorem fired_segmentInfos (hrep : l.Consistent)
    (hfired : ∀ s ∈ l.segments, ∀ r ∈ s.records, ¬ now < r.visibleAtNs) :
    ∀ i ∈ l.segmentInfos, ¬ now < i.maxVisibleAtNs := by
  intro i hi hlt
  obtain ⟨s, hs, -, hmax⟩ := mem_segmentInfos hi
  rw [hmax] at hlt
  rcases (hrep.max_attained s hs).2 with hzero | ⟨r, hr, heq⟩
  · rw [hzero] at hlt
    exact absurd hlt (UInt64.not_lt.mpr (UInt64.le_iff_toNat_le.mpr (Nat.zero_le _)))
  · rw [← heq] at hlt
    exact hfired s hs r hr hlt

theorem mem_cons_iff_index_le {front rest : List SegmentInfo} {first : SegmentInfo}
    (hsorted : (front ++ first :: rest).Pairwise fun s s' => s.index < s'.index)
    (hi : i ∈ front ++ first :: rest) : i ∈ first :: rest ↔ first.index ≤ i.index := by
  obtain ⟨-, htail, hcross⟩ := pairwise_append.mp hsorted
  refine ⟨fun hmem => ?_, fun hle => ?_⟩
  · rcases mem_cons.mp hmem with rfl | hlater
    · exact le_rfl
    · exact (rel_of_pairwise_cons htail hlater).le
  · rcases mem_append.mp hi with hfront | hkept
    · have hlt := hcross i hfront first mem_cons_self
      omega
    · exact hkept

/-- Retention sweeps are safe and tight. Take a log in any state it can reach over the lives of its
directory, each with a segment cap of its own, with whole writes, successful removals, segment names
of six digits and crashes that cut the active file only, and any sweep over it, with any steps of
appends, rotations and flushes between its snapshot and its drop, whole or not. What is dropped is a
front part of the slice without the active segment, and holds no record whose time has not come.
When the age policy is off, the byte policy is on and no record of the snapshot is delayed beyond
`now`, the segments of the snapshot that are left are within the budget, or just the active one, and
with the newest one dropped they would exceed it. -/
theorem sweep_safe_and_tight {c : RetentionConfig} {now : UInt64} {p p' p'' : Proc}
    (hlog : Wal.Lifetimes Wal.Orderly none p) (hsweep : Sweep c now p p' p'') :
    (∃ dropped, p'.log.segments = dropped ++ p''.log.segments ∧
      p''.log.active = p'.log.active ∧
      ∀ s ∈ dropped, ∀ r ∈ s.records, ¬ now < r.visibleAtNs) ∧
    (c.retainDuration ≤ 0 → 0 < c.retainBytes →
      (∀ s ∈ p.log.segments, ∀ r ∈ s.records, ¬ now < r.visibleAtNs) →
      ∃ dropped kept, p.log.segmentInfos = dropped ++ kept ∧
        (∀ i ∈ p.log.segmentInfos, i ∈ kept ↔ i.index ∈ p''.log.segments.map Segment.index) ∧
        (totalBytes kept ≤ c.retainBytes ∨ kept.map SegmentInfo.index = [p.log.active.index]) ∧
        ∀ older newest, dropped = older ++ [newest] →
          c.retainBytes < newest.bytes + totalBytes kept) := by
  have hrep := Wal.consistent_of_lives hlog
  have hsorted : p.log.segmentInfos.Pairwise fun s s' => s.index < s'.index :=
    pairwise_map.mpr hrep.ascending
  obtain ⟨dropped, hsplit, hactive, hdropped, hleft⟩ := hsweep.split hrep
  refine ⟨⟨dropped, hsplit, hactive, fun s hs r hr hlate => ?_⟩, fun hage hretain hfired => ?_⟩
  · obtain ⟨hlt, s₀, hs₀, heq⟩ := hdropped s hs
    have hdata : s₀.f.data = s.f.data := congrArg Prod.snd heq
    have hindex : s₀.index = s.index := congrArg Prod.fst heq
    have hr₀ : r ∈ s₀.records := by rwa [Segment.records, hdata]
    have hmem : s₀ ∈ p.log.segments := mem_append_left _ hs₀
    -- The snapshot shows the segment as one that holds a delayed message.
    have hunfired : now < s₀.maxVisibleAtNs :=
      UInt64.lt_of_lt_of_le hlate (hrep.max_ge s₀ hmem r hr₀).2
    have hinfo : _ ∈ p.log.segmentInfos := List.mem_map_of_mem hmem
    have hle := le_of_unfired hsorted c.retainBytes c.retainDuration hinfo hunfired
    have hle' : (c.keepIndex p.log now).1 ≤ s₀.index := hle
    omega
  · have hne : p.log.segmentInfos ≠ [] := by simp [Log.segmentInfos, Log.segments]
    have hquiet := fired_segmentInfos hrep hfired
    obtain ⟨front, first, rest, hinfos, hindex, hfit, hmore⟩ :=
      keepIndexByBytes_spec hne hretain
    have hkeep : (c.keepIndex p.log now).1 = first.index :=
      (keepIndex_eq_byBytes hne hsorted hretain hage hquiet).trans hindex
    refine ⟨front, first :: rest, hinfos, fun i hi => ?_, hfit.imp_right fun hnil => ?_, hmore⟩
    · obtain ⟨s, hs, hsame, -⟩ := mem_segmentInfos hi
      rw [hsame, hleft s hs, hkeep, ← hsame]
      rw [hinfos] at hi hsorted
      exact mem_cons_iff_index_le hsorted hi
    · have hlast := lastIndex_segmentInfos p.log
      rw [hinfos, hnil, lastIndex, getLast?_concat] at hlast
      rw [hnil, map_singleton]
      exact congrArg (fun i => [i]) hlast

/-- One more append, between the snapshot and the drop. -/
def fourthSegment : List Action :=
  [.append Wal.emptyMessage, .rotateCreate true, .write none, .fsync true]

/-- The theorem at a sweep with a budget of 40 bytes that drops the first two segments while the log
grows by one. -/
theorem sweep_safe_and_tight_threeSegments :
    ∃ p p' p'', Wal.Lifetimes Wal.Orderly none p ∧ Sweep ⟨40, 0⟩ 0 p p' p'' ∧
      p''.log.segments.map Segment.index = [2, 3] ∧
      (∃ dropped, p'.log.segments = dropped ++ p''.log.segments ∧
        p''.log.active = p'.log.active ∧
        ∀ s ∈ dropped, ∀ r ∈ s.records, ¬ (0 : UInt64) < r.visibleAtNs) ∧
      ((0 : ℤ) ≤ 0 → 0 < 40 →
        (∀ s ∈ p.log.segments, ∀ r ∈ s.records, ¬ (0 : UInt64) < r.visibleAtNs) →
        ∃ dropped kept, p.log.segmentInfos = dropped ++ kept ∧
          (∀ i ∈ p.log.segmentInfos, i ∈ kept ↔ i.index ∈ p''.log.segments.map Segment.index) ∧
          (totalBytes kept ≤ 40 ∨ kept.map SegmentInfo.index = [p.log.active.index]) ∧
          ∀ older newest, dropped = older ++ [newest] →
            40 < newest.bytes + totalBytes kept) := by
  have hopen := Wal.openLog_nil .perMessage 1
  obtain ⟨p, hp, hfree, hkeep, p', hp', p'', hp'', hindices⟩ :
      ∃ p, Run Wal.step Wal.Orderly (.empty .perMessage 1) Wal.threeSegments p ∧
        p.holder = .free ∧ RetentionConfig.keepIndex ⟨40, 0⟩ p.log 0 = (2, true) ∧
        ∃ p', Run Wal.step (fun _ a => Action.Other a) p fourthSegment p' ∧
          ∃ p'', Wal.step p' (.drop 2) = some p'' ∧
            p''.log.segments.map Segment.index = [2, 3] := by
    decide +kernel
  have hlog : Wal.Lifetimes Wal.Orderly none p :=
    (Wal.Lifetimes.opened (fun c hc => absurd hc (Option.not_mem_none c)) hopen).run hp
  have hsweep : Sweep ⟨40, 0⟩ 0 p p' p'' :=
    ⟨hfree, ⟨_, hp'⟩, by rw [hkeep]; exact hp''⟩
  exact ⟨p, p', p'', hlog, hsweep, hindices, sweep_safe_and_tight hlog hsweep⟩

/-! ## Past the last name of six digits -/

/-- When the active segment alone exceeds the budget and no message seems to wait for its time,
everything else is dropped. -/
theorem keepIndex_eq_lastIndex {last : SegmentInfo} (hretain : 0 < retainBytes)
    (hover : retainBytes < last.bytes) (hfired : ∀ s ∈ segs ++ [last], ¬ now < s.maxVisibleAtNs) :
    (retentionKeepIndex (segs ++ [last]) retainBytes 0 now).1 = last.index := by
  have hlast : lastIndex (segs ++ [last]) = last.index := by
    rw [lastIndex, getLast?_concat]
    rfl
  have hbytes : keepIndexByBytes (segs ++ [last]) retainBytes = last.index := by
    rw [keepIndexByBytes, if_neg (by omega), reverse_append, reverse_singleton,
      singleton_append, keepFromNewest, if_pos (by omega), hlast]
  have hnone : oldestUnfiredDelaySegment (segs ++ [last]) now = none := by
    rw [oldestUnfiredDelaySegment, find?_eq_none.mpr (by simpa using hfired), Option.map_none]
  simp only [retentionKeepIndex, if_neg (append_ne_nil_of_right_ne_nil segs
    (cons_ne_nil last [])), hnone, hbytes, hlast]
  split_ifs <;> omega

theorem drop_sealed (hfree : p.holder = .free) (hne : p.log.sealed ≠ [])
    (hbelow : ∀ s ∈ p.log.sealed, s.index < p.log.active.index) :
    p.drop p.log.active.index =
      some { p with
        holder := .removing
        toDrop := p.log.sealed
        log := { p.log with sealed := [] } } := by
  have hdropped : p.log.dropped p.log.active.index = p.log.sealed := by
    refine takeWhile_eq_self_iff.mpr fun s hs => ?_
    rw [min_self]
    exact decide_eq_true (hbelow s hs)
  have hkept : p.log.kept p.log.active.index = [] := by
    have hsplit := p.log.dropped_append_kept p.log.active.index
    rw [hdropped] at hsplit
    exact append_right_eq_self.mp hsplit
  rw [Proc.drop, if_neg (not_not.mpr hfree), hdropped, if_neg hne, hkept]

theorem keepIndex_active (hbytes : 1 < l.committed - l.active.baseByteOffset) (hne : l.sealed ≠ [])
    (hbelow : ∀ s ∈ l.sealed, s.index < l.active.index)
    (hmax : ∀ s ∈ l.segments, s.maxVisibleAtNs = 0) :
    RetentionConfig.keepIndex ⟨1, 0⟩ l 0 = (l.active.index, true) := by
  have hfired : ∀ i ∈ l.segmentInfos, ¬ (0 : UInt64) < i.maxVisibleAtNs := by
    intro i hi
    obtain ⟨s, hs, -, hsame⟩ := mem_segmentInfos hi
    rw [hsame, hmax s hs]
    decide
  have hlast : (RetentionConfig.keepIndex ⟨1, 0⟩ l 0).1 = l.active.index := by
    rw [Log.segmentInfos, Log.segments, map_append, map_singleton] at hfired
    rw [RetentionConfig.keepIndex, Log.segmentInfos, Log.segments, map_append,
      map_singleton]
    refine keepIndex_eq_lastIndex (by decide) ?_ hfired
    rwa [Log.readableLen, if_pos rfl]
  have hfirst : firstIndex l.segmentInfos < l.active.index := by
    obtain ⟨s, rest, hsealed⟩ := exists_cons_of_ne_nil hne
    rw [firstIndex, Log.segmentInfos, Log.segments, hsealed]
    exact hbelow s (by rw [hsealed]; simp)
  refine Prod.ext hlast ((drop_iff _ _ _ _).mpr ?_)
  rwa [show (retentionKeepIndex l.segmentInfos 1 0 0).1 = _ from hlast]

theorem exists_sweep_of_pastLimit {q : Proc} {rec : Record} (h : Wal.PastLimit q)
    (hlen : (Wal.codec.frame rec).length = 38) (hrec : rec.visibleAtNs = 0) :
    ∃ p'', Sweep ⟨1, 0⟩ 0 (q.rolled rec) (q.rolled rec) p'' ∧
      (q.rolled rec).log.segments = (q.rolled rec).log.sealed ++ p''.log.segments := by
  obtain ⟨p, hp⟩ : ∃ p, p = q.rolled rec := ⟨_, rfl⟩
  rw [← hp]
  have hfree : p.holder = .free := by rw [hp]; rfl
  have hbelow : ∀ s ∈ p.log.sealed, s.index < p.log.active.index := by
    have hindex : p.log.active.index = Wal.nameLimit + 1 := by
      rw [hp]
      exact (Wal.index_syncAt _ _).trans (congrArg (· + 1) h.index)
    rw [hindex, hp]
    exact Wal.index_lt_of_mem_rolled fun s hs => Nat.lt_succ_of_le (h.below s hs)
  have hmax : ∀ s ∈ p.log.segments, s.maxVisibleAtNs = 0 := by
    rw [hp]
    exact Wal.maxVisibleAtNs_rolled hrec h.maximal
  have hbytes : 1 < p.log.committed - p.log.active.baseByteOffset := by
    have hcommitted : p.log.committed = q.log.written + 38 := by
      rw [hp, ← hlen]
      rfl
    have hbase : p.log.active.baseByteOffset = q.log.written := by
      rw [hp]
      exact Wal.baseByteOffset_syncAt _ _
    omega
  have hne : p.log.sealed ≠ [] := by
    rw [hp]
    show (q.log.sealed ++ [q.log.active]).map _ ≠ []
    simp
  -- The active segment alone exceeds the budget, and no segment seems to hold a delayed message.
  have hkeep := keepIndex_active hbytes hne hbelow hmax
  refine
    ⟨{ p with
        holder := .removing
        toDrop := p.log.sealed
        log := { p.log with sealed := [] } }, ⟨hfree, ⟨[], .nil _⟩, ?_⟩, rfl⟩
  rw [hkeep]
  exact drop_sealed hfree hne hbelow

/-- A sweep may drop a message whose time has not come: a log that has come to the first index of
seven digits for the second time writes to a file that holds a delayed message already, and
`maxVisibleAtNs` of the segment says nothing of it. After one more rotation a sweep drops the
segment. -/
theorem unfired_dropped_past_name_limit :
    ∃ p p'', Wal.Lifetimes (fun _ a => a.Succeeds) (some 1) p ∧ Sweep ⟨1, 0⟩ 0 p p p'' ∧
      ∃ dropped, p.log.segments = dropped ++ p''.log.segments ∧
        ∃ s ∈ dropped, ∃ r ∈ s.records, (0 : UInt64) < r.visibleAtNs := by
  obtain ⟨q₀, hq₀, hlimit⟩ := Wal.exists_atLimit
  have hq := hq₀.run (hlimit.full.roll Wal.bare_emptyMessage)
  have hpast := hlimit.next
  obtain ⟨q, hq_eq⟩ : ∃ q, q = q₀.rolled (q₀.log.stamp Wal.emptyMessage) := ⟨_, rfl⟩
  rw [← hq_eq] at hq hpast
  obtain ⟨p'', hsweep, hsplit⟩ := exists_sweep_of_pastLimit hpast
    (Wal.length_frame_bare q.log Wal.bare_emptyMessage) rfl
  refine ⟨_, p'', hq.run (hpast.full.roll Wal.bare_emptyMessage), hsweep, _, hsplit,
    Wal.syncAt q.nextSegment.index q.log.active, ?_, ?_⟩
  · show _ ∈ (q.log.sealed ++ [q.log.active]).map (Wal.syncAt q.nextSegment.index)
    exact List.mem_map_of_mem (by simp)
  · obtain ⟨r, r', hrecords, -, hlate⟩ := hpast.records
    refine ⟨r, ?_, ?_⟩
    · rw [Wal.records_syncAt, hrecords]
      simp
    · rw [hlate]
      decide

end ToyMQ.Broker
