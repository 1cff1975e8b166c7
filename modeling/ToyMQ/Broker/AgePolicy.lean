import ToyMQ.Broker.Retention

/-!
# What the age policy drops

With the byte policy off, a sweep drops the sealed segments below the index that
`retentionKeepIndex` returns. Two scans of the snapshot decide on it, the one for the first segment
that is young enough and the one for the first that holds a message whose time has not come.
Together they drop a front part of the sealed segments, up to the first that one of the two keeps
(`dropped_eq_takeWhile`).

The age of a segment is compared with a cutoff, the instant of the sweep less the retention
duration, as an unsigned number of 64 bits. A duration that reaches back before the epoch makes the
difference negative, and the cutoff a number that no timestamp of the present reaches. Then every
segment counts as expired (`age_policy_exact_iff`).
-/

namespace ToyMQ.Broker

open Lib List
open Wal (SegmentInfo Log)

/-! ## Snapshots -/

structure Snapshot (segs front : List SegmentInfo) (last : SegmentInfo) : Prop where
  split : segs = front ++ [last]
  ascending : segs.Pairwise fun s s' => s.index < s'.index
  sealed : ∀ s ∈ front, s.active = false
  active : last.active = true

/-- `SegmentInfos` returns a snapshot. -/
theorem snapshot_segmentInfos {l : Log} (h : l.Consistent) :
    ∃ front last, Snapshot l.segmentInfos front last := by
  have hne : l.segmentInfos ≠ [] := by simp [Log.segmentInfos, Log.segments]
  have hsplit : l.segmentInfos = l.segmentInfos.dropLast ++ [l.segmentInfos.getLast hne] :=
    (dropLast_append_getLast hne).symm
  have hlast : (l.segmentInfos.getLast hne).active = true := by
    simp [Log.segmentInfos, Log.segments, Log.readableLen]
  have hasc : l.segmentInfos.Pairwise fun s s' => s.index < s'.index :=
    pairwise_map.mpr h.ascending
  refine ⟨_, _, hsplit, hasc, fun s hs => ?_, hlast⟩
  -- A sealed segment has an index below that of the active one.
  have hfront : l.segmentInfos.dropLast = l.sealed.map fun seg =>
      let res := l.readableLen seg.index seg.baseByteOffset
      ⟨seg.index, seg.baseMsgID, res.1, seg.maxTsNs, seg.maxVisibleAtNs, res.2⟩ := by
    rw [Log.segmentInfos, Log.segments, map_append, map_singleton,
      dropLast_concat]
  rw [hfront] at hs
  obtain ⟨seg, hseg, rfl⟩ := List.mem_map.mp hs
  have hlt : seg.index < l.active.index :=
    (pairwise_append.mp h.ascending).2.2 seg hseg l.active (mem_singleton_self _)
  simp only [Log.readableLen, if_neg (Nat.ne_of_lt hlt)]
  split <;> rfl

/-- The segments that a sweep with this decision drops. -/
def dropped (segs : List SegmentInfo) (decision : ℕ × Bool) : List SegmentInfo :=
  if decision.2 then segs.filter (·.index < decision.1) else []

/-! ## The two scans -/

section Scans

variable (cutoff now : UInt64)

/-- A segment that neither scan stops at. -/
def passed (s : SegmentInfo) : Bool :=
  decide (s.maxTsNs < cutoff) && !decide (now < s.maxVisibleAtNs)

/-- The lower of the two indices that the scans return. -/
def scanned (keepFrom : ℕ) (segs : List SegmentInfo) : ℕ :=
  match oldestUnfiredDelaySegment segs now with
  | some delayFloor => min (keepFromOldest cutoff keepFrom segs) delayFloor
  | none => keepFromOldest cutoff keepFrom segs

variable {cutoff now} {front : List SegmentInfo} {last : SegmentInfo}

theorem keepFromOldest_mem (hactive : last.active = true) (keepFrom : ℕ) :
    keepFromOldest cutoff keepFrom (front ++ [last]) = keepFrom ∨
      ∃ s ∈ front ++ [last], keepFromOldest cutoff keepFrom (front ++ [last]) = s.index := by
  induction front with
  | nil =>
    rw [nil_append, keepFromOldest, if_pos hactive]
    exact .inl rfl
  | cons s front ih =>
    rw [cons_append, keepFromOldest]
    split_ifs with hs hstop
    · exact .inl rfl
    · exact .inr ⟨s, mem_cons_self, rfl⟩
    · rcases ih with heq | ⟨s', hs', heq⟩
      · exact .inl heq
      · exact .inr ⟨s', mem_cons_of_mem s hs', heq⟩

theorem oldestUnfired_mem {segs : List SegmentInfo} {k : ℕ}
    (h : oldestUnfiredDelaySegment segs now = some k) : ∃ s ∈ segs, k = s.index := by
  obtain ⟨s, hs, rfl⟩ := Option.map_eq_some_iff.mp h
  exact ⟨s, mem_of_find?_eq_some hs, rfl⟩

/-- What is common to the indices of the segments holds of the result. -/
theorem le_scanned {k keepFrom : ℕ} (hactive : last.active = true) (hkeep : k ≤ keepFrom)
    (hle : ∀ s ∈ front ++ [last], k ≤ s.index) :
    k ≤ scanned cutoff now keepFrom (front ++ [last]) := by
  have hage : k ≤ keepFromOldest cutoff keepFrom (front ++ [last]) := by
    rcases keepFromOldest_mem hactive keepFrom with heq | ⟨s, hs, heq⟩
    · rw [heq]
      exact hkeep
    · rw [heq]
      exact hle s hs
  unfold scanned
  split
  next delayFloor hdelay =>
    obtain ⟨s, hs, rfl⟩ := oldestUnfired_mem hdelay
    exact le_min hage (hle s hs)
  next => exact hage

/-- The sealed segments below the result are those before the first that a scan stops at. -/
theorem filter_scanned (cutoff now : UInt64)
    (hasc : (front ++ [last]).Pairwise fun s s' => s.index < s'.index)
    (hsealed : ∀ s ∈ front, s.active = false) (hactive : last.active = true)
    (hstamped : ∀ s ∈ front, s.maxTsNs ≠ 0) :
    (front ++ [last]).filter (·.index < scanned cutoff now last.index (front ++ [last])) =
      front.takeWhile (passed cutoff now) := by
  induction front with
  | nil =>
    have hle : scanned cutoff now last.index [last] ≤ last.index := by
      unfold scanned
      rw [keepFromOldest, if_pos hactive]
      split
      · exact min_le_left _ _
      · exact le_rfl
    simp only [nil_append, takeWhile_nil]
    rw [filter_eq_nil_iff]
    intro s hs
    rw [mem_singleton.mp hs, decide_eq_true_eq]
    omega
  | cons s front ih =>
    have hlater : ∀ s' ∈ front ++ [last], s.index < s'.index := fun s' hs' =>
      rel_of_pairwise_cons hasc hs'
    have hnone {k : ℕ} (hk : k ≤ s.index) :
        (s :: (front ++ [last])).filter (·.index < k) = [] := by
      rw [filter_eq_nil_iff]
      intro s' hs'
      rw [decide_eq_true_eq]
      rcases mem_cons.mp hs' with rfl | hs'
      · omega
      · have := hlater s' hs'
        omega
    have hrest := ih (pairwise_cons.mp hasc).2
      (fun s' hs' => hsealed s' (mem_cons_of_mem s hs'))
      (fun s' hs' => hstamped s' (mem_cons_of_mem s hs'))
    have hopen : ¬ s.active = true := by
      rw [hsealed s mem_cons_self]
      exact Bool.false_ne_true
    have hts : s.maxTsNs ≠ 0 := hstamped s mem_cons_self
    rw [cons_append, takeWhile_cons]
    by_cases hunfired : now < s.maxVisibleAtNs
    · -- The scan for delayed messages stops here.
      have hdelay : oldestUnfiredDelaySegment (s :: (front ++ [last])) now = some s.index := by
        rw [oldestUnfiredDelaySegment, find?_cons_of_pos (by simpa using hunfired)]
        rfl
      have hpassed : passed cutoff now s = false := by simp [passed, hunfired]
      rw [hpassed, if_neg Bool.false_ne_true]
      apply hnone
      rw [scanned, hdelay]
      exact min_le_right _ _
    have hdelay : oldestUnfiredDelaySegment (s :: (front ++ [last])) now =
        oldestUnfiredDelaySegment (front ++ [last]) now := by
      rw [oldestUnfiredDelaySegment, find?_cons_of_neg (by simpa using hunfired)]
      rfl
    by_cases hold : s.maxTsNs < cutoff
    · have hscan : scanned cutoff now last.index (s :: (front ++ [last])) =
          scanned cutoff now last.index (front ++ [last]) := by
        rw [scanned, scanned, hdelay, keepFromOldest, if_neg hopen,
          if_neg (not_or.mpr ⟨hts, UInt64.not_le.mpr hold⟩)]
      have hpassed : passed cutoff now s = true := by simp [passed, hold, hunfired]
      have hlow : s.index < scanned cutoff now last.index (front ++ [last]) :=
        le_scanned hactive (hlater last (by simp)) hlater
      rw [hpassed, if_pos rfl, hscan, filter_cons_of_pos (by simpa using hlow), hrest]
    · -- The scan for the age stops here.
      have hkeep : keepFromOldest cutoff last.index (s :: (front ++ [last])) = s.index := by
        rw [keepFromOldest, if_neg hopen, if_pos (.inr (UInt64.not_lt.mp hold))]
      have hpassed : passed cutoff now s = false := by simp [passed, hold]
      rw [hpassed, if_neg Bool.false_ne_true]
      apply hnone
      unfold scanned
      rw [hkeep]
      split
      · exact min_le_left _ _
      · exact le_rfl

end Scans

/-! ## The decision -/

variable {segs front : List SegmentInfo} {last : SegmentInfo} {retainDur : ℤ} {now : UInt64}

/-- With the byte policy off, the decision is that of the two scans. -/
theorem retentionKeepIndex_eq_scanned (h : Snapshot segs front last) (hdur : 0 < retainDur) :
    (retentionKeepIndex segs 0 retainDur now).1 =
      scanned (now - UInt64.ofNat retainDur.toNat) now last.index segs := by
  have hne : segs ≠ [] := by
    rw [h.split]
    simp
  have hlast : lastIndex segs = last.index := by
    rw [lastIndex, h.split, getLast?_concat]
    rfl
  have hmem : last ∈ segs := by
    rw [h.split]
    simp
  have hfirst : firstIndex segs ≤ last.index := firstIndex_le h.ascending hmem
  -- The result of the age scan lies between the first and the last index.
  have hage : firstIndex segs ≤
        keepFromOldest (now - UInt64.ofNat retainDur.toNat) last.index segs ∧
      keepFromOldest (now - UInt64.ofNat retainDur.toNat) last.index segs ≤ last.index := by
    have hcases : ∀ cutoff, keepFromOldest cutoff last.index (front ++ [last]) = last.index ∨
        ∃ s ∈ front ++ [last], keepFromOldest cutoff last.index (front ++ [last]) = s.index :=
      fun cutoff => keepFromOldest_mem h.active last.index
    rw [← h.split] at hcases
    rcases hcases (now - UInt64.ofNat retainDur.toNat) with heq | ⟨s, hs, heq⟩
    · omega
    · have hlow := firstIndex_le h.ascending hs
      have hhigh := le_lastIndex h.ascending hs
      omega
  unfold retentionKeepIndex scanned
  rw [if_neg hne]
  simp only [keepIndexByBytes, keepIndexByAge, if_neg (Int.not_le.mpr hdur), if_true, hlast]
  cases oldestUnfiredDelaySegment segs now with
  | none =>
    dsimp only
    split_ifs <;> omega
  | some =>
    dsimp only
    split_ifs <;> omega

/-- What is dropped is the longest front part of the sealed segments in which every segment is older
than the cutoff and holds no message whose time has not come. -/
theorem dropped_eq_takeWhile (h : Snapshot segs front last)
    (hstamped : ∀ s ∈ front, s.maxTsNs ≠ 0) (hdur : 0 < retainDur) :
    dropped segs (retentionKeepIndex segs 0 retainDur now) =
      front.takeWhile (passed (now - UInt64.ofNat retainDur.toNat) now) := by
  have hkeep : (retentionKeepIndex segs 0 retainDur now).1 = _ :=
    retentionKeepIndex_eq_scanned h hdur
  have hfilter := filter_scanned (now - UInt64.ofNat retainDur.toNat) now
    (h.split ▸ h.ascending) h.sealed h.active hstamped
  rw [← h.split, ← hkeep] at hfilter
  unfold dropped
  by_cases hdrop : (retentionKeepIndex segs 0 retainDur now).2 = true
  · rw [if_pos hdrop, hfilter]
  · -- The flag is off when the index is that of the first segment, and nothing is below it.
    rw [if_neg hdrop, ← hfilter, eq_comm, filter_eq_nil_iff]
    intro s hs
    have hlow := firstIndex_le h.ascending hs
    have hflag := mt (drop_iff segs 0 retainDur now).mpr hdrop
    rw [decide_eq_true_eq]
    omega

/-! ## The cutoff -/

/-- A segment that is past the retention duration, by its newest timestamp, and holds no message
whose time has not come. -/
def droppable (retainDur : ℤ) (now : UInt64) (s : SegmentInfo) : Bool :=
  decide ((s.maxTsNs.toNat : ℤ) < now.toNat - retainDur) && !decide (now < s.maxVisibleAtNs)

/-- The cutoff is the difference modulo 64 bits. -/
theorem toNat_cutoff (hdur : 0 < retainDur) (hmax : retainDur ≤ 2 ^ 63 - 1) :
    ((now - UInt64.ofNat retainDur.toNat).toNat : ℤ) =
      if retainDur ≤ now.toNat then now.toNat - retainDur else now.toNat - retainDur + 2 ^ 64 := by
  have hnow := now.toNat_lt
  have hword : (UInt64.ofNat retainDur.toNat).toNat = retainDur.toNat := by
    rw [UInt64.toNat_ofNat', Nat.mod_eq_of_lt (by omega)]
  rw [UInt64.toNat_sub, hword]
  split_ifs with hle
  · rw [show 2 ^ 64 - retainDur.toNat + now.toNat = 2 ^ 64 + (now.toNat - retainDur.toNat) by omega,
      Nat.add_mod_left, Nat.mod_eq_of_lt (by omega)]
    omega
  · rw [Nat.mod_eq_of_lt (by omega)]
    omega

/-- The age policy drops the longest front part of the sealed segments that are past the retention
duration, just when the duration does not reach back before the epoch, or nothing is dropped anyway
because the oldest segment is kept: it is the active one, or its timestamp is beyond the cutoff that
wrapped around, or it holds a message whose time has not come. -/
theorem age_policy_exact_iff (h : Snapshot segs front last)
    (hstamped : ∀ s ∈ front, s.maxTsNs ≠ 0) (hdur : 0 < retainDur)
    (hmax : retainDur ≤ 2 ^ 63 - 1) :
    dropped segs (retentionKeepIndex segs 0 retainDur now) =
        front.takeWhile (droppable retainDur now) ↔
      retainDur ≤ now.toNat ∨ ∀ s ∈ front.head?,
        (now.toNat : ℤ) - retainDur + 2 ^ 64 ≤ s.maxTsNs.toNat ∨ now < s.maxVisibleAtNs := by
  have hcutoff : ((now - UInt64.ofNat retainDur.toNat).toNat : ℤ) = _ := toNat_cutoff hdur hmax
  rw [dropped_eq_takeWhile h hstamped hdur]
  by_cases hle : retainDur ≤ now.toNat
  · rw [if_pos hle] at hcutoff
    refine ⟨fun _ => .inl hle, fun _ => ?_⟩
    congr 1
    funext s
    unfold passed droppable
    congr 1
    rw [decide_eq_decide, UInt64.lt_iff_toNat_lt]
    omega
  · rw [if_neg hle] at hcutoff
    have hspec : front.takeWhile (droppable retainDur now) = [] := by
      cases front with
      | nil => rfl
      | cons s =>
        -- No timestamp lies before the epoch.
        have hnot : ¬ (s.maxTsNs.toNat : ℤ) < now.toNat - retainDur := by omega
        rw [takeWhile_cons, droppable, decide_eq_false hnot, Bool.false_and,
          if_neg Bool.false_ne_true]
    rw [hspec, or_iff_right hle]
    cases front with
    | nil => simp
    | cons s =>
      have hpassed : passed (now - UInt64.ofNat retainDur.toNat) now s = true ↔
          (s.maxTsNs.toNat : ℤ) < now.toNat - retainDur + 2 ^ 64 ∧ ¬ now < s.maxVisibleAtNs := by
        unfold passed
        rw [Bool.and_eq_true, decide_eq_true_eq, Bool.not_eq_true', decide_eq_false_iff_not,
          UInt64.lt_iff_toNat_lt]
        refine and_congr_left fun _ => ?_
        omega
      rw [takeWhile_cons]
      simp only [head?_cons, Option.mem_some_iff, forall_eq']
      split_ifs with hfirst
      · rw [hpassed] at hfirst
        refine ⟨fun hcons => hcons.elim, fun hkept => ?_⟩
        rcases hkept with hlate | hunfired
        · omega
        · exact absurd hunfired hfirst.2
      · rw [hpassed, not_and_or, not_not] at hfirst
        exact ⟨fun _ => hfirst.imp_left Int.not_lt.mp, fun _ => rfl⟩

/-- Three sealed segments, of which the second is young, and the active one. -/
def agedSegments : List SegmentInfo :=
  [⟨0, 0, 10, 50, 0, false⟩, ⟨1, 1, 10, 95, 0, false⟩, ⟨2, 2, 10, 60, 0, false⟩]

/-- A retention of 10 nanoseconds at instant 100 drops the first segment only. -/
theorem age_policy_exact_iff_young :
    dropped (agedSegments ++ [⟨3, 3, 10, 99, 0, true⟩])
        (retentionKeepIndex (agedSegments ++ [⟨3, 3, 10, 99, 0, true⟩]) 0 10 100) =
      agedSegments.takeWhile (droppable 10 100) :=
  (age_policy_exact_iff ⟨rfl, by decide, by decide, rfl⟩ (by decide) (by decide)
    (by decide)).mpr (.inl (by decide))

/-- A sealed segment of this second, and a retention of 63 years, in November 2023: the segment is
dropped. -/
theorem fresh_segment_dropped :
    let now : UInt64 := 1700000000000000000
    let fresh : SegmentInfo := ⟨0, 0, 10, 1699999999900000000, 0, false⟩
    let segs : List SegmentInfo := [fresh, ⟨1, 1, 10, 1699999999950000000, 0, true⟩]
    dropped segs (retentionKeepIndex segs 0 2000000000000000000 now) = [fresh] ∧
      [fresh].takeWhile (droppable 2000000000000000000 now) = [] := by
  decide +kernel

end ToyMQ.Broker
