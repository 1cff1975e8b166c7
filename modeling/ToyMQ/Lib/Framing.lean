import ToyMQ.Lib.Bytes

/-!
# Streams of frames

A framing writes each record as a non-empty frame and reads frames back from the head of a byte
string. Its laws are the ones a log file rests on: a whole frame at the head is read as its record,
whatever follows it, and a frame cut short is reported as torn rather than read as something else.

`Reads` is reading frames until the first error, and `scan` computes it, as a recovery loop does. On
a string that is a cut of written frames, at any byte, it returns exactly the records whose frames
lie wholly before the cut, then the end-of-stream error when the cut is between two frames and the
torn-frame error otherwise (`reads_take_frames`).
-/

namespace ToyMQ.Lib

open List

/-- A framing of records `R`, with decoding errors `E`, and the laws that relate its two sides on
the records that fit a frame. -/
structure Framing (R E : Type) where
  /-- The bytes of a record. -/
  frame : R → Bytes
  /-- Reads one record from the head of a string, with the number of bytes it took. -/
  decode : Bytes → Except E (R × ℕ)
  /-- The records that a frame can hold. -/
  Fits : R → Prop
  /-- The error at the end of a stream, between two frames. -/
  eof : E
  /-- The error inside a frame that was cut short. -/
  torn : E
  /-- A frame has at least one byte. -/
  frame_ne_nil : ∀ r, frame r ≠ []
  /-- The empty string is the end of a stream. -/
  decode_nil : decode [] = .error eof
  /-- A whole frame is read as its record, whatever follows it. -/
  decode_frame : ∀ r rest, Fits r → decode (frame r ++ rest) = .ok (r, (frame r).length)
  /-- A proper, non-empty part of a frame is torn. -/
  decode_torn : ∀ r k, Fits r → 0 < k → k < (frame r).length →
    decode ((frame r).take k) = .error torn

namespace Framing

variable {R E : Type} (C : Framing R E)

/-- The stream of a list of records: their frames, one after the other. -/
def frames (rs : List R) : Bytes := rs.flatMap C.frame

@[simp]
theorem frames_nil : C.frames [] = [] := rfl

@[simp]
theorem frames_cons (r : R) (rs : List R) : C.frames (r :: rs) = C.frame r ++ C.frames rs := rfl

@[simp]
theorem frames_append (rs rs' : List R) : C.frames (rs ++ rs') = C.frames rs ++ C.frames rs' :=
  flatMap_append

/-- A frame has a positive length. -/
theorem length_frame_pos (r : R) : 0 < (C.frame r).length :=
  length_pos_iff.mpr (C.frame_ne_nil r)

/-- A stream has at least as many bytes as records. -/
theorem length_le_length_frames (rs : List R) : rs.length ≤ (C.frames rs).length := by
  induction rs with
  | nil => simp
  | cons r rs ih =>
    have hpos := C.length_frame_pos r
    rw [frames_cons, length_append, length_cons]
    omega

variable {i j : ℕ}

/-- The bytes before a record, in a stream: a longer prefix of the records has a longer stream. -/
theorem length_frames_take_mono (rs : List R) (h : i ≤ j) :
    (C.frames (rs.take i)).length ≤ (C.frames (rs.take j)).length := by
  have hsplit : rs.take j = rs.take i ++ (rs.take j).drop i := by
    conv_lhs => rw [← take_append_drop i (rs.take j)]
    rw [take_take, Nat.min_eq_left h]
  rw [hsplit, frames_append, length_append]
  exact Nat.le_add_right _ _

/-- Distinct prefixes of a list of records end at distinct bytes of its stream. -/
theorem length_frames_take_lt (rs : List R) (h : i < j) (hi : i < rs.length) :
    (C.frames (rs.take i)).length < (C.frames (rs.take j)).length := by
  have hsucc : (C.frames (rs.take (i + 1))).length
      = (C.frames (rs.take i)).length + (C.frame rs[i]).length := by
    rw [take_succ_eq_append_getElem hi, frames_append, length_append]
    simp
  have hpos := C.length_frame_pos rs[i]
  have hmono := C.length_frames_take_mono rs (Nat.succ_le_of_lt h)
  rw [Nat.succ_eq_add_one] at hmono
  omega

/-! ## Reading to the first error

`Reads` says what repeated decoding returns: records, each with the length of its frame, and then an
error. -/

/-- What repeated decoding returns. -/
inductive Reads : Bytes → List (R × ℕ) → E → Prop where
  | stop {bs : Bytes} {e : E} (h : C.decode bs = .error e) : Reads bs [] e
  | next {bs : Bytes} {r : R} {n : ℕ} {out : List (R × ℕ)} {e : E}
      (h : C.decode bs = .ok (r, n)) (hrest : Reads (bs.drop n) out e) : Reads bs ((r, n) :: out) e

variable {bs : Bytes} {out : List (R × ℕ)} {e : E}

/-- What is returned is determined by the string. -/
theorem Reads.unique {out' : List (R × ℕ)} {e' : E} (h : C.Reads bs out e)
    (h' : C.Reads bs out' e') : out' = out ∧ e' = e := by
  induction h generalizing out' e' with
  | stop h =>
    cases h' with
    | stop h' =>
      rw [h] at h'
      exact ⟨rfl, (Except.error.inj h').symm⟩
    | next h' =>
      rw [h] at h'
      cases h'
  | next h _ ih =>
    cases h' with
    | stop h' =>
      rw [h] at h'
      cases h'
    | next h' hrest =>
      rw [h] at h'
      obtain ⟨rfl, rfl⟩ := Prod.mk.inj (Except.ok.inj h')
      obtain ⟨rfl, rfl⟩ := ih hrest
      exact ⟨rfl, rfl⟩

/-- The records of a list, each with the length of its frame. -/
def sized (rs : List R) : List (R × ℕ) := rs.map fun r => (r, (C.frame r).length)

@[simp]
theorem map_fst_sized (rs : List R) : (C.sized rs).map Prod.fst = rs := by
  simp [sized, Function.comp_def]

/-- The total of the frame lengths is the length of the stream. -/
theorem sum_snd_sized (rs : List R) : ((C.sized rs).map Prod.snd).sum = (C.frames rs).length := by
  induction rs with
  | nil => rfl
  | cons r rs ih =>
    rw [frames_cons, length_append, ← ih]
    rfl

variable {tail : Bytes}

/-- The frames at the head of a string are read, and then what follows them. -/
theorem reads_frames_append (rs : List R) (hfit : ∀ r ∈ rs, C.Fits r) (h : C.Reads tail out e) :
    C.Reads (C.frames rs ++ tail) (C.sized rs ++ out) e := by
  induction rs with
  | nil => exact h
  | cons r rs ih =>
    have hr : C.Fits r := hfit r mem_cons_self
    have hrest := ih fun r' hr' => hfit r' (mem_cons_of_mem r hr')
    rw [frames_cons, append_assoc]
    refine .next (C.decode_frame r _ hr) ?_
    rwa [drop_left]

/-! ## Scanning a stream -/

/-- Reads frames until the first error, at most `fuel` of them. -/
def scanFrom : ℕ → Bytes → List (R × ℕ) × E
  | 0, _ => ([], C.eof)
  | fuel + 1, bs =>
    match C.decode bs with
    | .error e => ([], e)
    | .ok (r, n) =>
      let rest := scanFrom fuel (bs.drop n)
      ((r, n) :: rest.1, rest.2)

/-- Reads the frames of a string until the first error: the records with the lengths of their
frames, and the error. A frame takes at least one byte, so the fuel is never used up. -/
def scan (bs : Bytes) : List (R × ℕ) × E := C.scanFrom (bs.length + 1) bs

/-- The records of a scan. -/
def records (bs : Bytes) : List R := (C.scan bs).1.map Prod.fst

/-- A scan returns what repeated decoding does, if it has the fuel for it. -/
theorem Reads.scanFrom (h : C.Reads bs out e) {fuel : ℕ} (hfuel : out.length < fuel) :
    C.scanFrom fuel bs = (out, e) := by
  induction h generalizing fuel with
  | stop h =>
    obtain ⟨fuel, rfl⟩ := Nat.exists_eq_succ_of_ne_zero (Nat.ne_zero_of_lt hfuel)
    rw [Framing.scanFrom, h]
  | next h _ ih =>
    obtain ⟨fuel, rfl⟩ := Nat.exists_eq_succ_of_ne_zero (Nat.ne_zero_of_lt hfuel)
    rw [Framing.scanFrom, h]
    simp only [ih (Nat.lt_of_succ_lt_succ hfuel)]

theorem Reads.scan (h : C.Reads bs out e) (hlen : out.length ≤ bs.length) : C.scan bs = (out, e) :=
  h.scanFrom C (Nat.lt_succ_of_le hlen)

/-- A stream of frames followed by a string that does not start with a frame scans to exactly its
records, and to the error of that string. -/
theorem scan_frames_append (rs : List R) (hfit : ∀ r ∈ rs, C.Fits r)
    (h : C.decode tail = .error e) : C.scan (C.frames rs ++ tail) = (C.sized rs, e) := by
  have hreads := C.reads_frames_append rs hfit (.stop h)
  rw [append_nil] at hreads
  have hle := C.length_le_length_frames rs
  refine hreads.scan C ?_
  rw [sized, length_map, length_append]
  omega

/-- A whole stream of frames scans to its records and ends between two frames. -/
theorem scan_frames (rs : List R) (hfit : ∀ r ∈ rs, C.Fits r) :
    C.scan (C.frames rs) = (C.sized rs, C.eof) := by
  have h := C.scan_frames_append rs hfit C.decode_nil
  rwa [append_nil] at h

/-- The records of a whole stream. -/
theorem records_frames (rs : List R) (hfit : ∀ r ∈ rs, C.Fits r) :
    C.records (C.frames rs) = rs := by
  rw [records, C.scan_frames rs hfit, map_fst_sized]

/-! ## Cuts of a stream -/

/-- How many records of a list have their frame wholly within the first `k` bytes of its
stream. -/
def whole : ℕ → List R → ℕ
  | _, [] => 0
  | k, r :: rs => if (C.frame r).length ≤ k then whole (k - (C.frame r).length) rs + 1 else 0

/-- `whole` counts records of the list. -/
theorem whole_le_length (k : ℕ) (rs : List R) : C.whole k rs ≤ rs.length := by
  induction rs generalizing k with
  | nil => simp [whole]
  | cons r rs ih =>
    rw [whole, length_cons]
    split_ifs
    · exact Nat.succ_le_succ (ih _)
    · exact Nat.zero_le _

/-- A cut of a stream is the frames of the records wholly before it, then a proper part of the
next record's frame. -/
theorem take_frames (k : ℕ) (rs : List R) :
    ∃ part : Bytes, (C.frames rs).take k = C.frames (rs.take (C.whole k rs)) ++ part ∧
      (part = [] ∨ ∃ r ∈ rs, ∃ m, 0 < m ∧ m < (C.frame r).length ∧ part = (C.frame r).take m) := by
  induction rs generalizing k with
  | nil => exact ⟨[], by simp [whole], Or.inl rfl⟩
  | cons r rs ih =>
    rw [whole, frames_cons, take_append]
    split_ifs with hle
    · obtain ⟨part, hcut, hpart⟩ := ih (k - (C.frame r).length)
      refine ⟨part, ?_, ?_⟩
      · rw [take_of_length_le hle, hcut, take_succ_cons, frames_cons, append_assoc]
      · rcases hpart with hnil | ⟨r', hr', hm⟩
        · exact Or.inl hnil
        · exact Or.inr ⟨r', mem_cons_of_mem r hr', hm⟩
    · have hzero : k - (C.frame r).length = 0 := by omega
      refine ⟨(C.frame r).take k, by simp [hzero], ?_⟩
      rcases Nat.eq_zero_or_pos k with rfl | hpos
      · exact Or.inl (take_zero)
      · exact Or.inr ⟨r, mem_cons_self, k, hpos, by omega, rfl⟩

variable {k : ℕ}

/-- A record whose frame ends at or before the cut is counted. -/
theorem le_whole_of_length_le {rs : List R} (hj : j ≤ rs.length)
    (h : (C.frames (rs.take j)).length ≤ k) : j ≤ C.whole k rs := by
  induction rs generalizing k j with
  | nil => exact hj
  | cons r rs ih =>
    cases j with
    | zero => exact Nat.zero_le _
    | succ =>
      rw [take_succ_cons, frames_cons, length_append] at h
      rw [whole, if_pos (by omega)]
      exact Nat.succ_le_succ (ih (by simpa using hj) (by omega))

/-- A cut between two frames counts the records before it. -/
theorem whole_frames_append (rs more : List R) :
    C.whole (C.frames rs).length (rs ++ more) = rs.length := by
  induction rs with
  | nil =>
    cases more with
    | nil => rfl
    | cons r =>
      have hpos := C.length_frame_pos r
      rw [nil_append, whole, frames_nil, length_nil, if_neg (by omega), length_nil]
  | cons r rs ih =>
    rw [frames_cons, length_append, cons_append, whole, if_pos (Nat.le_add_right _ _),
      Nat.add_sub_cancel_left, ih, length_cons]

/-- Every record is whole in the whole stream. -/
theorem whole_frames (rs : List R) : C.whole (C.frames rs).length rs = rs.length := by
  simpa using C.whole_frames_append rs []

/-- The frames of the records that are counted fit before the cut. -/
theorem length_frames_take_whole_le (k : ℕ) (rs : List R) :
    (C.frames (rs.take (C.whole k rs))).length ≤ k := by
  induction rs generalizing k with
  | nil => simp
  | cons r rs ih =>
    rw [whole]
    split_ifs with hle
    · have := ih (k - (C.frame r).length)
      rw [take_succ_cons, frames_cons, length_append]
      omega
    · simp

/-- Repeated decoding of a cut of a stream, at any byte. -/
theorem reads_take_frames (k : ℕ) (rs : List R) (hfit : ∀ r ∈ rs, C.Fits r) :
    C.Reads ((C.frames rs).take k) (C.sized (rs.take (C.whole k rs)))
      (if ((C.frames rs).take k).length = (C.frames (rs.take (C.whole k rs))).length then C.eof
        else C.torn) := by
  have hfit' : ∀ r ∈ rs.take (C.whole k rs), C.Fits r := fun r hr =>
    hfit r (mem_of_mem_take hr)
  obtain ⟨part, hcut, hpart⟩ := C.take_frames k rs
  rw [hcut, ← append_nil (C.sized _)]
  apply C.reads_frames_append _ hfit'
  rcases hpart with rfl | ⟨r, hr, m, hpos, hlt, rfl⟩
  · rw [append_nil, if_pos rfl]
    exact .stop C.decode_nil
  · have hlen : ((C.frame r).take m).length = m := length_take_of_le hlt.le
    rw [if_neg (by rw [length_append, hlen]; omega)]
    exact .stop (C.decode_torn r m (hfit r hr) hpos hlt)

/-- Scanning a cut of a stream, at any byte: the records wholly before the cut, with the lengths
of their frames, then the end of the stream when the cut is between two frames and a torn frame
otherwise. -/
theorem scan_take_frames (k : ℕ) (rs : List R) (hfit : ∀ r ∈ rs, C.Fits r) :
    C.scan ((C.frames rs).take k) =
      (C.sized (rs.take (C.whole k rs)),
        if ((C.frames rs).take k).length = (C.frames (rs.take (C.whole k rs))).length then C.eof
        else C.torn) := by
  obtain ⟨part, hcut, -⟩ := C.take_frames k rs
  have hle := C.length_le_length_frames (rs.take (C.whole k rs))
  refine (C.reads_take_frames k rs hfit).scan C ?_
  rw [hcut, sized, length_map, length_append]
  omega

/-- The records of a cut stream are those wholly before the cut. -/
theorem records_take_frames (k : ℕ) (rs : List R) (hfit : ∀ r ∈ rs, C.Fits r) :
    C.records ((C.frames rs).take k) = rs.take (C.whole k rs) := by
  rw [records, C.scan_take_frames k rs hfit, map_fst_sized]

/-- The record after those that are counted ends behind the cut. -/
theorem lt_length_frames_take_whole (k : ℕ) (rs : List R) (h : C.whole k rs < rs.length) :
    k < (C.frames (rs.take (C.whole k rs + 1))).length := by
  by_contra hle
  have := C.le_whole_of_length_le (Nat.succ_le_of_lt h) (Nat.le_of_not_lt hle)
  omega

/-- A later cut leaves more whole records. -/
theorem whole_mono (rs : List R) {k' : ℕ} (h : k ≤ k') : C.whole k rs ≤ C.whole k' rs :=
  C.le_whole_of_length_le (C.whole_le_length k rs) ((C.length_frames_take_whole_le k rs).trans h)

/-- What lies before a cut still does when the stream goes on. -/
theorem take_whole_subset_append (k : ℕ) (rs more : List R) :
    rs.take (C.whole k rs) ⊆ (rs ++ more).take (C.whole k (rs ++ more)) := by
  have hle := C.whole_le_length k rs
  have htake : (rs ++ more).take (C.whole k rs) = rs.take (C.whole k rs) :=
    take_append_of_le_length hle
  have hwhole : C.whole k rs ≤ C.whole k (rs ++ more) := by
    apply C.le_whole_of_length_le
    · rw [length_append]
      omega
    · rw [htake]
      exact C.length_frames_take_whole_le k rs
  rw [← htake]
  exact take_subset_take_left _ hwhole

end Framing

end ToyMQ.Lib
