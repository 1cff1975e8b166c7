import Mathlib.Data.Finset.Sort
import ToyMQ.Wal.Recovery

/-!
# Discovering the segments of a directory

`discoverEntries` follows `discoverSegments` from the listing of a directory on: subdirectories and
names without the extension are passed over, the indices that are left are sorted, and the files
are opened in this order, the last one for appending. It finds the segments that
recovery starts from (`discoverEntries_eq`).

Printing an index and scanning it back are not inverse to each other: `%06d` prints six digits at
least and reads six at most. `discovery_inverts_naming_iff` says what follows for a directory:
the files of a set of indices are all found again exactly when no index has a seventh digit.
-/

namespace ToyMQ.Wal

open Lib List Option

/-! ## The model -/

/-- A directory entry, with the file behind it. -/
structure DirEntry where
  name : Bytes
  isDir : Bool
  f : File
deriving DecidableEq, Repr

structure Opened where
  segment : Segment
  /-- The file is open for appending; that of a sealed segment is read-only. -/
  active : Bool
deriving DecidableEq, Repr

/-- `openSegment`. For the active segment, a missing file is created, and a directory cannot be
opened. -/
def openSegment (entries : List DirEntry) (index : ℕ) (active : Bool) : Option Opened :=
  match entries.find? fun e => e.name == segmentName index with
  | some e => if e.isDir && active then none else some ⟨Segment.found index e.f, active⟩
  | none => if active then some ⟨Segment.found index File.empty, true⟩ else none

/-- The first loop of `discoverSegments`: the index of an entry that is a segment file. -/
def entryIndex (e : DirEntry) : Option ℕ :=
  -- `segmentIndex` has the scan with `%06d.log` and the comparison with the canonical name.
  if e.isDir || !segmentExt.isSuffixOf e.name then none else segmentIndex e.name

/-- The second loop of `discoverSegments`: the last index is that of the active segment. -/
def openSegments (entries : List DirEntry) : List ℕ → Option (List Opened)
  | [] => some []
  | idx :: rest =>
    (openSegment entries idx rest.isEmpty).bind fun seg =>
      (openSegments entries rest).map fun segs => seg :: segs

/-- `discoverSegments`, given the listing of the directory. -/
def discoverEntries (entries : List DirEntry) : Option (List Opened) :=
  openSegments entries ((entries.filterMap entryIndex).insertionSort (· ≤ ·))

/-- The directory without its subdirectories. -/
def regularFiles (entries : List DirEntry) : Dir :=
  entries.filterMap fun e => if e.isDir then none else some (e.name, e.f)

def markActive : List Segment → List Opened
  | [] => []
  | s :: rest => ⟨s, rest.isEmpty⟩ :: markActive rest

/-! ## Which entries are found -/

variable {i : ℕ} {e : DirEntry} {segs : List Segment}

theorem name_of_segmentIndex {name : Bytes} (h : segmentIndex name = some i) :
    name = segmentName i := by
  unfold segmentIndex at h
  dsimp only at h
  split_ifs at h with hnil hext hcanon
  rw [← Option.some.inj h]
  exact (not_not.mp hcanon).symm

theorem entryIndex_eq_some_iff :
    entryIndex e = some i ↔ e.isDir = false ∧ e.name = segmentName i ∧ i < nameLimit := by
  constructor
  · intro h
    unfold entryIndex at h
    split_ifs at h with hskip
    have hname := name_of_segmentIndex h
    refine ⟨?_, hname, ?_⟩
    · rw [Bool.or_eq_true, not_or] at hskip
      exact Bool.eq_false_of_not_eq_true hskip.1
    · by_contra hge
      rw [hname, segmentIndex_segmentName_of_le (Nat.le_of_not_lt hge)] at h
      cases h
  · rintro ⟨hfile, hname, hlt⟩
    have hext : segmentExt.isSuffixOf e.name = true := by
      rw [isSuffixOf_iff_suffix, hname]
      exact suffix_append _ _
    unfold entryIndex
    rw [hfile, hext, hname, segmentIndex_segmentName hlt]
    rfl

theorem find_name {entries : List DirEntry} (hnodup : (entries.map DirEntry.name).Nodup)
    (he : e ∈ entries) : (entries.find? fun e' => e'.name == e.name) = some e := by
  obtain ⟨pre, post, rfl⟩ := append_of_mem he
  rw [map_append, nodup_append] at hnodup
  rw [find?_append, find?_eq_none.mpr, find?_cons_of_pos (by simp), none_or]
  intro e' he'
  have hne := hnodup.2.2 e'.name (List.mem_map_of_mem he') e.name (by simp)
  simpa using hne

/-- The entry of a regular file that names a segment. -/
theorem mem_of_mem_discoverSegments {entries : List DirEntry} {s : Segment}
    (hs : s ∈ discoverSegments (regularFiles entries)) :
    s = Segment.found s.index s.f ∧ ⟨segmentName s.index, false, s.f⟩ ∈ entries := by
  obtain ⟨⟨name, f⟩, hmem, hfound⟩ := mem_filterMap.mp ((mem_insertionSort _).mp hs)
  obtain ⟨⟨name', isDir, f'⟩, he, hfile⟩ := mem_filterMap.mp hmem
  obtain ⟨i, hi, rfl⟩ := map_eq_some_iff.mp hfound
  split_ifs at hfile with hdir
  obtain ⟨rfl, rfl⟩ := Prod.mk.inj (Option.some.inj hfile)
  obtain rfl : isDir = false := Bool.eq_false_of_not_eq_true hdir
  refine ⟨rfl, ?_⟩
  show (⟨segmentName i, false, f'⟩ : DirEntry) ∈ entries
  rw [← name_of_segmentIndex hi]
  exact he

theorem filterMap_entryIndex (entries : List DirEntry) :
    entries.filterMap entryIndex = ((regularFiles entries).filterMap fun e =>
      (segmentIndex e.1).map fun i => Segment.found i e.2).map Segment.index := by
  rw [regularFiles, filterMap_filterMap, map_filterMap]
  refine filterMap_congr fun e _ => ?_
  -- The test of the extension decides nothing that the test of the name does not.
  have hindex : entryIndex e = if e.isDir then none else segmentIndex e.name := by
    unfold entryIndex
    cases e.isDir with
    | true => rfl
    | false =>
      cases hi : segmentIndex e.name with
      | none => simp
      | some =>
        have hext : segmentExt.isSuffixOf e.name = true := by
          rw [isSuffixOf_iff_suffix, name_of_segmentIndex hi]
          exact suffix_append _ _
        rw [hext]
        rfl
  rw [hindex]
  cases e.isDir with
  | true => rfl
  | false => cases hi : segmentIndex e.name <;> simp [hi, Segment.found]

/-- Opening the files of segments that are there. -/
theorem openSegments_eq {entries : List DirEntry} (hnodup : (entries.map DirEntry.name).Nodup)
    (hsegs : ∀ s ∈ segs,
      s = Segment.found s.index s.f ∧ ⟨segmentName s.index, false, s.f⟩ ∈ entries) :
    openSegments entries (segs.map Segment.index) = some (markActive segs) := by
  induction segs with
  | nil => rfl
  | cons s segs ih =>
    obtain ⟨hfound, hmem⟩ := hsegs s mem_cons_self
    have hopen : openSegment entries s.index (segs.map Segment.index).isEmpty
        = some ⟨s, segs.isEmpty⟩ := by
      have hfind := find_name hnodup hmem
      rw [openSegment, hfind, isEmpty_map]
      dsimp only
      rw [Bool.false_and, if_neg Bool.false_ne_true, ← hfound]
    rw [map_cons, openSegments, hopen, ih fun s' hs' => hsegs s' (mem_cons_of_mem s hs')]
    rfl

/-- Sorting the indices is sorting the segments. -/
theorem index_discoverSegments (entries : List DirEntry) :
    (discoverSegments (regularFiles entries)).map Segment.index
      = (entries.filterMap entryIndex).insertionSort (· ≤ ·) := by
  rw [filterMap_entryIndex, discoverSegments]
  exact map_insertionSort _ _ Segment.index _ fun _ _ _ _ => Iff.rfl

theorem discoverEntries_eq {entries : List DirEntry}
    (hnodup : (entries.map DirEntry.name).Nodup) :
    discoverEntries entries = some (markActive (discoverSegments (regularFiles entries))) := by
  rw [discoverEntries, ← index_discoverSegments]
  exact openSegments_eq hnodup fun s hs => mem_of_mem_discoverSegments hs

/-! ## Naming and discovery -/

/-- What is known of a segment after discovery: its index, and whether it is active. -/
def Opened.key (o : Opened) : ℕ × Bool := (o.segment.index, o.active)

theorem key_markActive (hasc : Ascending segs) :
    (markActive segs).map Opened.key = (segs.map Segment.index).map fun i =>
      (i, decide (∀ j ∈ segs.map Segment.index, j ≤ i)) := by
  induction segs with
  | nil => rfl
  | cons s segs ih =>
    obtain ⟨hlt, hrest⟩ := pairwise_cons.mp hasc
    have hlast : segs.isEmpty = decide (∀ j ∈ (s :: segs).map Segment.index, j ≤ s.index) := by
      rw [Bool.eq_iff_iff, List.isEmpty_iff, decide_eq_true_iff]
      constructor
      · rintro rfl
        simp
      · intro hle
        refine eq_nil_iff_forall_not_mem.mpr fun s' hs' => ?_
        have := hle s'.index (by simp [List.mem_map_of_mem hs'])
        have := hlt s' hs'
        omega
    have htail : ∀ i ∈ segs.map Segment.index,
        decide (∀ j ∈ segs.map Segment.index, j ≤ i)
          = decide (∀ j ∈ (s :: segs).map Segment.index, j ≤ i) := by
      intro i hi
      obtain ⟨s', hs', rfl⟩ := List.mem_map.mp hi
      have hle := (hlt s' hs').le
      simp [hle]
    rw [markActive, map_cons, ih hrest]
    refine congrArg₂ List.cons (Prod.ext rfl hlast) (map_congr_left fun i hi => ?_)
    rw [htail i hi]

/-- The directory holds exactly the segment files of the indices in `S`. Other files have other
names, and a subdirectory may have any name. -/
structure HoldsSegments (entries : List DirEntry) (S : Finset UInt64) : Prop where
  nodup : (entries.map DirEntry.name).Nodup
  files : ∀ i : UInt64, i ∈ S ↔ ∃ e ∈ entries, e.isDir = false ∧ e.name = segmentName i.toNat

/-- The indices of a set, in ascending order. -/
def sortedIndices (S : Finset UInt64) : List ℕ := (S.image UInt64.toNat).sort

section Naming

variable {entries : List DirEntry} {S : Finset UInt64}

/-- No index is found twice. -/
theorem HoldsSegments.nodup_indices (h : HoldsSegments entries S) :
    (entries.filterMap entryIndex).Nodup := by
  refine pairwise_filterMap.mpr ((pairwise_map.mp h.nodup).imp ?_)
  rintro e e' hne i hi i' hi' rfl
  exact hne ((entryIndex_eq_some_iff.mp hi).2.1.trans (entryIndex_eq_some_iff.mp hi').2.1.symm)

theorem HoldsSegments.mem_indices (h : HoldsSegments entries S) (n : ℕ) :
    n ∈ entries.filterMap entryIndex ↔ ∃ i ∈ S, i.toNat < nameLimit ∧ i.toNat = n := by
  rw [mem_filterMap]
  constructor
  · rintro ⟨e, he, hindex⟩
    obtain ⟨hfile, hname, hlt⟩ := entryIndex_eq_some_iff.mp hindex
    have hnat : (UInt64.ofNat n).toNat = n := by
      rw [UInt64.toNat_ofNat']
      unfold nameLimit at hlt
      omega
    exact ⟨UInt64.ofNat n, (h.files _).mpr ⟨e, he, hfile, hnat.symm ▸ hname⟩, hnat.symm ▸ hlt, hnat⟩
  · rintro ⟨i, hi, hlt, rfl⟩
    obtain ⟨e, he, hfile, hname⟩ := (h.files i).mp hi
    exact ⟨e, he, entryIndex_eq_some_iff.mpr ⟨hfile, hname, hlt⟩⟩

theorem HoldsSegments.index_discovered (h : HoldsSegments entries S) :
    (discoverSegments (regularFiles entries)).map Segment.index
      = sortedIndices (S.filter fun i => i.toNat < nameLimit) := by
  have hperm := perm_insertionSort (· ≤ ·) (entries.filterMap entryIndex)
  have hset : ((entries.filterMap entryIndex).insertionSort (· ≤ ·)).toFinset
      = (S.filter fun i => i.toNat < nameLimit).image UInt64.toNat := by
    ext n
    rw [List.mem_toFinset, hperm.mem_iff, h.mem_indices n]
    simp [and_assoc]
  rw [index_discoverSegments, sortedIndices, ← hset]
  exact ((toFinset_sort _ (hperm.nodup_iff.mpr h.nodup_indices)).mpr
    (pairwise_insertionSort _ _)).symm

/-- What discovery returns: the segments with an index of six digits at most, in ascending order,
with the last of them active. -/
theorem HoldsSegments.discoverEntries_key (h : HoldsSegments entries S) :
    (discoverEntries entries).map (List.map Opened.key) =
      some ((sortedIndices (S.filter fun i => i.toNat < nameLimit)).map fun i =>
        (i, decide (∀ j ∈ sortedIndices (S.filter fun i => i.toNat < nameLimit), j ≤ i))) := by
  have hasc : Ascending (discoverSegments (regularFiles entries)) := by
    have hlt : (sortedIndices (S.filter fun i => i.toNat < nameLimit)).Pairwise (· < ·) :=
      (Finset.sortedLT_sort _).pairwise
    rw [← h.index_discovered] at hlt
    exact pairwise_map.mp hlt
  rw [discoverEntries_eq h.nodup, map_some, key_markActive hasc, h.index_discovered]

/-- Discovery inverts naming up to a million. Take any set of indices and any directory with
exactly their segment files, plus subdirectories and files with other names: `discoverSegments`
returns these indices in ascending order, with the largest one active, exactly when each of them has
six digits at most. -/
theorem discovery_inverts_naming_iff (h : HoldsSegments entries S) :
    (discoverEntries entries).map (List.map Opened.key) =
        some ((sortedIndices S).map fun i => (i, decide (∀ j ∈ sortedIndices S, j ≤ i))) ↔
      ∀ i ∈ S, i.toNat < nameLimit := by
  rw [h.discoverEntries_key]
  constructor
  · -- If the indices found are all those of `S`, each of them passed the filter.
    intro heq i hi
    have hfst := congrArg (List.map Prod.fst) (Option.some.inj heq)
    simp only [List.map_map, Function.comp_def, List.map_id'] at hfst
    have hmem : i.toNat ∈ sortedIndices S := by
      rw [sortedIndices, Finset.mem_sort]
      exact Finset.mem_image_of_mem _ hi
    rw [← hfst, sortedIndices, Finset.mem_sort] at hmem
    obtain ⟨i', hi', heq'⟩ := Finset.mem_image.mp hmem
    exact heq' ▸ (Finset.mem_filter.mp hi').2
  · intro hall
    rw [Finset.filter_true_of_mem hall]

end Naming

/-- Two segments among a file and a subdirectory that are none. -/
def twoSegments : List DirEntry :=
  [⟨segmentName 12, false, File.empty⟩, ⟨segmentExt, false, File.empty⟩,
    ⟨segmentName 7, true, File.empty⟩, ⟨segmentName 3, false, File.empty⟩]

theorem holdsSegments_twoSegments : HoldsSegments twoSegments {3, 12} := by
  refine ⟨by decide +kernel, fun i => ?_⟩
  have hext : segmentExt ≠ segmentName i.toNat := by
    intro heq
    have hlen := congrArg List.length heq
    have hsix := length_paddedDecimal 6 i.toNat
    rw [segmentName, length_append, hsix] at hlen
    omega
  simp only [twoSegments, mem_cons, not_mem_nil, or_false, exists_eq_or_imp,
    exists_eq_left, Bool.true_eq_false, false_and, false_or, true_and, hext,
    segmentName_injective.eq_iff, Finset.mem_insert, Finset.mem_singleton, UInt64.ext_iff]
  constructor <;> rintro (h | h) <;> simp [h]

/-- The theorem at a directory with the segments 3 and 12. -/
theorem discovery_inverts_naming_iff_two :
    HoldsSegments twoSegments {3, 12} ∧
      (discoverEntries twoSegments).map (List.map Opened.key) = some [(3, false), (12, true)] := by
  have hsix : ∀ i ∈ ({3, 12} : Finset UInt64), i.toNat < nameLimit := by
    simp only [Finset.mem_insert, Finset.mem_singleton, forall_eq_or_imp, forall_eq]
    decide
  have hfound := (discovery_inverts_naming_iff holdsSegments_twoSegments).mpr hsix
  have hset : ({3, 12} : Finset UInt64).image UInt64.toNat = [3, 12].toFinset := by decide
  have hsort : sortedIndices {3, 12} = [3, 12] := by
    rw [sortedIndices, hset]
    exact (toFinset_sort _ (by decide)).mpr (by decide)
  refine ⟨holdsSegments_twoSegments, ?_⟩
  rw [hfound, hsort]
  decide +kernel

/-- A segment is not found again. The file of index 1000000 is the only one of its directory, and
`discoverSegments` returns no segment. -/
theorem millionth_segment_not_discovered :
    HoldsSegments [⟨segmentName 1000000, false, File.empty⟩] {1000000} ∧
      discoverEntries [⟨segmentName 1000000, false, File.empty⟩] = some [] := by
  have hindex : entryIndex ⟨segmentName 1000000, false, File.empty⟩ = none := by
    refine eq_none_iff_forall_ne_some.mpr fun i hi => ?_
    obtain ⟨-, hname, hlt⟩ := entryIndex_eq_some_iff.mp hi
    rw [← segmentName_injective hname] at hlt
    exact absurd hlt (by decide)
  refine ⟨⟨nodup_singleton _, fun i => ?_⟩, ?_⟩
  · simp only [mem_singleton, exists_eq_left, true_and, segmentName_injective.eq_iff,
      Finset.mem_singleton, ← UInt64.toNat_inj]
    exact eq_comm
  · rw [discoverEntries, filterMap_cons_none hindex]
    rfl

end ToyMQ.Wal
