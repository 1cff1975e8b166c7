import Mathlib.Data.List.Sort
import ToyMQ.Lib.Decimal
import ToyMQ.Wal.Record

/-!
# Segment files and their names

A log directory holds numbered segment files. `segmentName` prints an index with six digits at
least, and `segmentIndex` is the test that `discoverSegments` makes of a directory entry: it reads
at most six digits and asks that the name of the number read be the entry's own. The two agree on
the indices below a million (`segmentIndex_segmentName`) and on no other
(`segmentIndex_segmentName_of_le`): a segment file with a longer name is not found again.

A file is its bytes with the length that a successful fsync has covered, so that the states a
crash can leave are read off the file.
-/

namespace ToyMQ.Wal

open Lib List

/-! ## Files -/

/-- A file: its bytes, and how many of them, from the start, a successful fsync has covered. -/
structure File where
  data : Bytes
  /-- The length that is durable. -/
  synced : ℕ
deriving DecidableEq, Repr

/-- A file that was just created. -/
def File.empty : File := ⟨[], 0⟩

/-- A write at the end of the file, which no fsync has covered yet. -/
def File.append (f : File) (bs : Bytes) : File := { f with data := f.data ++ bs }

/-- A successful fsync, which covers every byte written before it. -/
def File.sync (f : File) : File := { f with synced := f.data.length }

/-- A truncation; the bytes that remain are as durable as they were. -/
def File.truncate (f : File) (n : ℕ) : File := ⟨f.data.take n, min f.synced n⟩

/-! ## Names -/

/-- `segmentExt`, the text `.log`. -/
def segmentExt : Bytes := [46, 108, 111, 103]

/-- `segmentName`: the index printed with `%06d`, then the extension. -/
def segmentName (index : ℕ) : Bytes := paddedDecimal 6 index ++ segmentExt

/-- The index of a directory entry that `discoverSegments` takes for a segment file. `Sscanf` with
`%06d` reads at most six digits and then wants the extension; the name of the number read has to
be the entry's name, so that the spellings `Sscanf` is lenient about are left out. -/
def segmentIndex (name : Bytes) : Option ℕ :=
  let digits := (name.take 6).takeWhile isDigit
  let idx := digitsValue digits
  if digits = [] then none
  else if (name.drop digits.length).take 4 ≠ segmentExt then none
  else if segmentName idx ≠ name then none
  else some idx

/-- The first index whose name has more than six digits. -/
def nameLimit : ℕ := 10 ^ 6

/-- Distinct segments have distinct file names. -/
theorem segmentName_injective : Function.Injective segmentName := by
  intro i j h
  have hnum : paddedDecimal 6 i = paddedDecimal 6 j := append_cancel_right h
  rw [← digitsValue_paddedDecimal 6 i, hnum, digitsValue_paddedDecimal]

theorem takeWhile_isDigit_segmentName (i : ℕ) :
    ((segmentName i).take 6).takeWhile isDigit = (paddedDecimal 6 i).take 6 := by
  have hlen : 6 ≤ (paddedDecimal 6 i).length := by
    rw [length_paddedDecimal]
    exact le_max_left _ _
  have hall : ∀ b ∈ (paddedDecimal 6 i).take 6, isDigit b = true := fun b hb =>
    isDigit_of_mem_paddedDecimal (mem_of_mem_take hb)
  rw [segmentName, take_append_of_le_length hlen,
    ← append_nil ((paddedDecimal 6 i).take 6), takeWhile_append_of_pos hall]
  rfl

variable {i : ℕ}

theorem segmentIndex_segmentName (h : i < nameLimit) : segmentIndex (segmentName i) = some i := by
  have hlen : (paddedDecimal 6 i).length = 6 := length_paddedDecimal_of_lt h
  have hdigits := takeWhile_isDigit_segmentName i
  rw [take_of_length_le hlen.le] at hdigits
  have hne : paddedDecimal 6 i ≠ [] := by
    intro hnil
    rw [hnil] at hlen
    simp at hlen
  have hext : ((segmentName i).drop (paddedDecimal 6 i).length).take 4 = segmentExt := by
    rw [segmentName, drop_left]
    rfl
  unfold segmentIndex
  simp only [hdigits, hext, digitsValue_paddedDecimal, ne_eq, not_true_eq_false, if_false,
    if_neg hne]

theorem segmentIndex_segmentName_of_le (h : nameLimit ≤ i) :
    segmentIndex (segmentName i) = none := by
  have hlen : 6 < (paddedDecimal 6 i).length := lt_length_paddedDecimal h
  have hsix : ((paddedDecimal 6 i).take 6).length = 6 := length_take_of_le hlen.le
  -- The seventh character is a digit, where `Sscanf` wants the dot of the extension.
  have hdigit : isDigit (paddedDecimal 6 i)[6] = true :=
    isDigit_of_mem_paddedDecimal (getElem_mem hlen)
  have hext : ((segmentName i).drop 6).take 4 ≠ segmentExt := by
    intro heq
    rw [segmentName, drop_append_of_le_length hlen.le, drop_eq_getElem_cons hlen,
      cons_append, take_succ_cons, segmentExt] at heq
    rw [(List.cons.inj heq).1] at hdigit
    exact absurd hdigit (by decide)
  unfold segmentIndex
  simp only [takeWhile_isDigit_segmentName, hsix]
  split_ifs <;> rfl

/-! ## Segments -/

/-- One numbered file of the log, with its place in the logical byte stream. -/
structure Segment where
  /-- The segment number, which names the file. -/
  index : ℕ
  /-- The id of the first record the segment holds, or will hold. -/
  baseMsgID : ℕ
  /-- The logical byte offset where the segment begins. -/
  baseByteOffset : ℕ
  /-- The newest record timestamp in the segment. -/
  maxTsNs : UInt64
  /-- The highest `visibleAtNs` in the segment. -/
  maxVisibleAtNs : UInt64
  f : File
deriving DecidableEq, Repr

namespace Segment

/-- The records of a segment's file, up to the first frame that does not decode. -/
def records (s : Segment) : List Record := codec.records s.f.data

def endOffset (s : Segment) : ℕ := s.baseByteOffset + s.f.data.length

/-- An fsync of one segment's file. -/
def sync (s : Segment) : Segment := { s with f := s.f.sync }

end Segment

/-- A run of records numbered from `n` on, without a gap. -/
def Numbered : ℕ → List Record → Prop
  | _, [] => True
  | n, r :: rs => r.msgID.toNat = n ∧ Numbered (n + 1) rs

variable {n : ℕ} {rs : List Record} {r : Record}

/-- Numbering splits at any record. -/
theorem numbered_append {rs' : List Record} :
    Numbered n (rs ++ rs') ↔ Numbered n rs ∧ Numbered (n + rs.length) rs' := by
  induction rs generalizing n with
  | nil => simp [Numbered]
  | cons r rs ih =>
    simp only [cons_append, Numbered, ih, length_cons, and_assoc]
    rw [Nat.add_assoc n 1, Nat.add_comm 1]

/-- The id of the record at a position. -/
theorem Numbered.msgID_eq {k : ℕ} (h : Numbered n rs) (hk : rs[k]? = some r) :
    r.msgID.toNat = n + k := by
  induction rs generalizing n k with
  | nil => simp at hk
  | cons r' rs ih =>
    cases k with
    | zero =>
      obtain rfl : r' = r := by simpa using hk
      exact h.1
    | succ =>
      rw [ih h.2 (by simpa using hk)]
      omega

/-- The ids of a numbered list lie in its range. -/
theorem Numbered.bounds (h : Numbered n rs) (hr : r ∈ rs) :
    n ≤ r.msgID.toNat ∧ r.msgID.toNat < n + rs.length := by
  obtain ⟨i, hi, rfl⟩ := getElem_of_mem hr
  rw [h.msgID_eq (getElem?_eq_getElem hi)]
  omega

/-- The ids of numbered records strictly increase. -/
theorem Numbered.pairwise (h : Numbered n rs) :
    rs.Pairwise fun r r' => r.msgID.toNat < r'.msgID.toNat := by
  induction rs generalizing n with
  | nil => exact .nil
  | cons r rs ih =>
    obtain ⟨hid, hrest⟩ := h
    exact .cons (fun r' hr' => hid.trans_lt (hrest.bounds hr').1) (ih hrest)

theorem Numbered.split_unique {pre post pre' post' : List Record} (h : Numbered n rs)
    (hsplit : rs = pre ++ r :: post) (hsplit' : rs = pre' ++ r :: post') : pre = pre' := by
  have hpos : r.msgID.toNat = n + pre.length := h.msgID_eq (by simp [hsplit])
  have hpos' : r.msgID.toNat = n + pre'.length := h.msgID_eq (by simp [hsplit'])
  exact (append_inj (hsplit.symm.trans hsplit') (by omega)).1

namespace Segment

structure Clean (s : Segment) : Prop where
  /-- The file is exactly the frames of its records. -/
  data_eq : s.f.data = codec.frames s.records
  fits : ∀ r ∈ s.records, Fits r
  /-- The records are numbered from the base id on. -/
  numbered : Numbered s.baseMsgID s.records
  synced_le : s.f.synced ≤ s.f.data.length

variable {s : Segment}

/-- The records of a file of whole frames. -/
theorem records_of_data_eq {rs : List Record} (hdata : s.f.data = codec.frames rs)
    (hfit : ∀ r ∈ rs, Fits r) : s.records = rs := by
  rw [records, hdata, codec.records_frames rs hfit]

theorem clean_of_data_eq (rs : List Record) (hdata : s.f.data = codec.frames rs)
    (hfit : ∀ r ∈ rs, Fits r) (hnum : Numbered s.baseMsgID rs)
    (hsynced : s.f.synced ≤ s.f.data.length) : s.Clean := by
  have hrec : s.records = rs := records_of_data_eq hdata hfit
  exact ⟨by rw [hrec, hdata], by rwa [hrec], by rwa [hrec], hsynced⟩

theorem Clean.sync (h : s.Clean) : s.sync.Clean :=
  ⟨h.data_eq, h.fits, h.numbered, le_rfl⟩

/-- The length of a clean segment's file. -/
theorem Clean.length_data (h : s.Clean) : s.f.data.length = (codec.frames s.records).length := by
  conv_lhs => rw [h.data_eq]

end Segment

/-! ## The layout of consecutive segments -/

/-- The records of consecutive segments, oldest first. -/
def stream (segs : List Segment) : List Record := segs.flatMap Segment.records

@[simp]
theorem stream_nil : stream [] = [] := rfl

@[simp]
theorem stream_cons (s : Segment) (segs : List Segment) :
    stream (s :: segs) = s.records ++ stream segs := rfl

@[simp]
theorem stream_append (segs segs' : List Segment) :
    stream (segs ++ segs') = stream segs ++ stream segs' :=
  flatMap_append

/-- Clean segments that continue one another: the first one starts at id `id` and offset `off`,
and each of the others where the one before it ends. -/
def Layout : ℕ → ℕ → List Segment → Prop
  | _, _, [] => True
  | id, off, s :: segs =>
    s.baseMsgID = id ∧ s.baseByteOffset = off ∧ s.Clean ∧
      Layout (id + s.records.length) (off + s.f.data.length) segs

variable {off : ℕ} {segs : List Segment}

/-- A layout splits between any two segments, at the id and the offset that the records before
the split lead to. -/
theorem layout_append {id : ℕ} {segs' : List Segment} :
    Layout id off (segs ++ segs') ↔
      Layout id off segs ∧
        Layout (id + (stream segs).length) (off + (codec.frames (stream segs)).length) segs' := by
  induction segs generalizing id off with
  | nil => simp [Layout]
  | cons s segs ih =>
    rw [cons_append, Layout, Layout, ih]
    constructor
    · rintro ⟨hid, hoff, hclean, hrest, hrest'⟩
      refine ⟨⟨hid, hoff, hclean, hrest⟩, ?_⟩
      simpa [hclean.length_data, Nat.add_assoc] using hrest'
    · rintro ⟨⟨hid, hoff, hclean, hrest⟩, hrest'⟩
      refine ⟨hid, hoff, hclean, hrest, ?_⟩
      simpa [hclean.length_data, Nat.add_assoc] using hrest'

theorem Layout.numbered {id : ℕ} (h : Layout id off segs) : Numbered id (stream segs) := by
  induction segs generalizing id off with
  | nil => trivial
  | cons s segs ih =>
    obtain ⟨hid, -, hclean, hrest⟩ := h
    rw [stream_cons, numbered_append, ← hid]
    exact ⟨hclean.numbered, hid ▸ ih hrest⟩

/-- Every segment of a layout is clean. -/
theorem Layout.clean {id : ℕ} (h : Layout id off segs) : ∀ s ∈ segs, s.Clean := by
  induction segs generalizing id off with
  | nil => simp
  | cons s segs ih =>
    obtain ⟨-, -, hclean, hrest⟩ := h
    exact forall_mem_cons.mpr ⟨hclean, ih hrest⟩

theorem Layout.base {id : ℕ} {pre post : List Segment} {s : Segment}
    (h : Layout id off (pre ++ s :: post)) :
    s.baseMsgID = id + (stream pre).length ∧
      s.baseByteOffset = off + (codec.frames (stream pre)).length :=
  let hs := (layout_append.mp h).2
  ⟨hs.1, hs.2.1⟩

theorem Layout.exists_segment {id b : ℕ} (h : Layout id off segs) (hle : off ≤ b)
    (hlt : b < off + (codec.frames (stream segs)).length) :
    ∃ s ∈ segs, s.baseByteOffset ≤ b ∧ b < s.endOffset := by
  induction segs generalizing id off with
  | nil => simp at hlt; omega
  | cons s segs ih =>
    obtain ⟨-, hoff, hclean, hrest⟩ := h
    rw [stream_cons, codec.frames_append, length_append, ← hclean.length_data] at hlt
    by_cases hin : b < s.endOffset
    · exact ⟨s, mem_cons_self, by omega, hin⟩
    · have hend : s.endOffset = off + s.f.data.length := by rw [Segment.endOffset, hoff]
      obtain ⟨s', hs', hbase, hstop⟩ := ih hrest (by omega) (by omega)
      exact ⟨s', mem_cons_of_mem s hs', hbase, hstop⟩

theorem Layout.map {id : ℕ} {g : Segment → Segment} (h : Layout id off segs)
    (hg : ∀ s ∈ segs, s.Clean → (g s).baseMsgID = s.baseMsgID ∧
      (g s).baseByteOffset = s.baseByteOffset ∧ (g s).f.data = s.f.data ∧ (g s).Clean) :
    Layout id off (segs.map g) := by
  induction segs generalizing id off with
  | nil => trivial
  | cons s segs ih =>
    obtain ⟨hid, hoff, hclean, hrest⟩ := h
    obtain ⟨hgid, hgoff, hgdata, hgclean⟩ := hg s mem_cons_self hclean
    have hrec : (g s).records = s.records := by rw [Segment.records, hgdata, Segment.records]
    refine ⟨hgid.trans hid, hgoff.trans hoff, hgclean, ?_⟩
    rw [hrec, hgdata]
    exact ih hrest fun s' hs' => hg s' (mem_cons_of_mem s hs')

end ToyMQ.Wal
