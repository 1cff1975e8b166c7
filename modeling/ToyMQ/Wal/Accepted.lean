import ToyMQ.Wal.Record

/-!
# What the reader of frames accepts

Whatever `decode` accepts begins with the frame of a valid layout (`decode_eq_ok_iff`), so that the
three layouts are all there is. It is written again as it was just when its layout is one in which
records are written (`encode_record_iff`).

`decodeChecked` is the same decoder with every slice checked against the bounds, as the language
does, and it never runs out of them (`decodeChecked_eq`). Nothing outside of the frame has an
influence on the result (`decode_take_frame_length`). Repeated decoding of a stream that was cut at
any byte returns the records before the cut, and tells a cut between two frames from a torn frame.
-/

namespace ToyMQ.Wal

open Lib

theorem of_decodeInner {bs : Bytes} {rec : Record} (h : decodeInner bs = some rec) :
    ∃ f : FrameLayout, f.Valid ∧ f.body = bs ∧ f.record = rec := by
  unfold decodeInner at h
  dsimp only at h
  split_ifs at h with hfixed hkey hlen hpayload
  set keyLen := leAt bs 16 2 with hkeyLen
  set payloadLen := leAt bs (18 + keyLen) 4 with hpayloadLen
  set off := 18 + keyLen + 4 + payloadLen with hoff
  have hword (n : ℕ) (hn : n + 8 ≤ bs.length) :
      leBytes 8 (UInt64.ofNat (leAt bs n 8)).toNat = slice bs n 8 := by
    have hlt : leAt bs n 8 < 256 ^ 8 := leAt_lt bs n 8
    rw [UInt64.toNat_ofNat', Nat.mod_eq_of_lt (by omega), leBytes_leAt hn]
  have hkeySlice : (slice bs 18 keyLen).length = keyLen := length_slice (by omega)
  have hpayloadSlice : (slice bs (18 + keyLen + 4) payloadLen).length = payloadLen :=
    length_slice (by omega)
  -- The fields as they stand, and what is left behind the payload.
  let f : FrameLayout :=
    ⟨.ofNat (leAt bs 0 8), .ofNat (leAt bs 8 8), slice bs 18 keyLen,
      slice bs (18 + keyLen + 4) payloadLen, bs.drop off⟩
  have htrailing : f.trailing.length = bs.length - off := List.length_drop
  have hbody : f.body = bs := by
    simp only [FrameLayout.body, FrameLayout.header, f, hkeySlice, hpayloadSlice]
    rw [hword 0 (by omega), hword 8 (by omega), hkeyLen, leBytes_leAt (by omega), ← hkeyLen,
      hpayloadLen, leBytes_leAt (by omega), ← hpayloadLen, slice_append_drop,
      slice_append_drop, slice_append_drop, List.append_assoc, List.append_assoc,
      slice_append_drop, slice_append_drop, slice_append_drop, List.drop_zero]
  have hvalid (htail : f.trailing.length = 0 ∨ f.trailing.length = 8 ∨ f.trailing.length = 16) :
      f.Valid :=
    ⟨by rw [show f.dedupeKey.length = keyLen from hkeySlice]; exact leAt_lt ..,
      by rw [show f.payload.length = payloadLen from hpayloadSlice]; exact leAt_lt .., htail⟩
  -- The decoder has read these fields, so that its record is the one of the layout.
  have hread (htail : f.trailing.length = 0 ∨ f.trailing.length = 8 ∨ f.trailing.length = 16) :
      f.Valid ∧ f.body = bs ∧ f.record = rec := by
    refine ⟨hvalid htail, hbody, ?_⟩
    have hagain := FrameLayout.decodeInner_body (hvalid htail)
    rw [hbody] at hagain
    unfold decodeInner at hagain
    rw [if_neg hfixed, if_neg hkey, if_neg hlen, if_neg hpayload] at hagain
    exact Option.some.inj (hagain.symm.trans h)
  split at h
  case h_1 hzero => exact ⟨f, hread (.inl (htrailing.trans hzero))⟩
  case h_2 hone => exact ⟨f, hread (.inr (.inl (htrailing.trans hone)))⟩
  case h_3 htwo => exact ⟨f, hread (.inr (.inr (htrailing.trans htwo)))⟩
  case h_4 => cases h

/-! ## Bounds -/

/-- The part of `Decode` after the checksum, with checked slices: nothing when one of them runs
out of its bounds, where the program would stop. -/
def decodeInnerChecked (bs : Bytes) : Option (Option Record) :=
  if bs.length < 8 + 8 + 2 + 4 then some none
  else do
    let msgID ← leAt? bs 0 8
    let tsNs ← leAt? bs 8 8
    let keyLen ← leAt? bs 16 2
    let off := 18
    if bs.length < off + keyLen then some none
    else do
      let dedupeKey ← slice? bs off keyLen
      let off := off + keyLen
      if bs.length < off + 4 then some none
      else do
        let payloadLen ← leAt? bs off 4
        let off := off + 4
        if bs.length < off + payloadLen then some none
        else do
          let payload ← slice? bs off payloadLen
          let off := off + payloadLen
          match bs.length - off with
          | 0 => some (some ⟨.ofNat msgID, .ofNat tsNs, dedupeKey, payload, 0, 0⟩)
          | 8 => do
            let visibleAtNs ← leAt? bs off 8
            some (some ⟨.ofNat msgID, .ofNat tsNs, dedupeKey, payload, .ofNat visibleAtNs, 0⟩)
          | 16 => do
            let visibleAtNs ← leAt? bs off 8
            let raftIndex ← leAt? bs (off + 8) 8
            some (some ⟨.ofNat msgID, .ofNat tsNs, dedupeKey, payload, .ofNat visibleAtNs,
              .ofNat raftIndex⟩)
          | _ => some none

/-- The fields are read within their bounds. -/
theorem decodeInnerChecked_eq (bs : Bytes) : decodeInnerChecked bs = some (decodeInner bs) := by
  unfold decodeInnerChecked decodeInner
  by_cases hfixed : bs.length < 8 + 8 + 2 + 4
  · rw [if_pos hfixed, if_pos hfixed]
  rw [if_neg hfixed, if_neg hfixed, leAt?_eq (by omega), leAt?_eq (by omega), leAt?_eq (by omega)]
  simp only [Option.bind_eq_bind, Option.bind_some]
  by_cases hkey : bs.length < 18 + leAt bs 16 2
  · rw [if_pos hkey, if_pos hkey]
  rw [if_neg hkey, if_neg hkey, slice?_eq (by omega), Option.bind_some]
  by_cases hlen : bs.length < 18 + leAt bs 16 2 + 4
  · rw [if_pos hlen, if_pos hlen]
  rw [if_neg hlen, if_neg hlen, leAt?_eq (by omega), Option.bind_some]
  by_cases hpayload : bs.length < 18 + leAt bs 16 2 + 4 + leAt bs (18 + leAt bs 16 2) 4
  · rw [if_pos hpayload, if_pos hpayload]
  rw [if_neg hpayload, if_neg hpayload, slice?_eq (by omega), Option.bind_some]
  generalize hrest : bs.length - (18 + leAt bs 16 2 + 4 + leAt bs (18 + leAt bs 16 2) 4) = rest
  obtain hzero | hone | htwo | ⟨hzero, hone, htwo⟩ :
      rest = 0 ∨ rest = 8 ∨ rest = 16 ∨ (rest ≠ 0 ∧ rest ≠ 8 ∧ rest ≠ 16) := by omega
  · rw [hzero]
    rfl
  · rw [hone, leAt?_eq (by omega)]
    rfl
  · rw [htwo, leAt?_eq (by omega), leAt?_eq (by omega)]
    rfl
  · -- Both matches take their last branch.
    simp only

section Codec

variable (crc : Bytes → UInt32)

/-- `Decode` with checked slices. The two reads of the stream take what there is, and need no
check. -/
def decodeChecked (bs : Bytes) : Option (Except DecodeError (Record × ℕ)) :=
  if bs = [] then some (.error .eof)
  else if bs.length < 4 then some (.error .shortRead)
  else do
    let length ← leAt? bs 0 4
    if maxRecordSize < length then some (.error .tooLarge)
    else if length < 4 then some (.error .shortRead)
    else
      let body := slice bs 4 length
      if body.length < length then some (.error .shortRead)
      else do
        let inner ← slice? body 0 (length - 4)
        let gotCRC ← leAt? body (length - 4) 4
        if gotCRC ≠ (crc inner).toNat then some (.error .badCRC)
        else do
          match ← decodeInnerChecked inner with
          | none => some (.error .shortRead)
          | some rec => some (.ok (rec, 4 + length))

/-- `Decode` never takes a slice out of bounds. -/
theorem decodeChecked_eq (bs : Bytes) : decodeChecked crc bs = some (decode crc bs) := by
  unfold decodeChecked decode
  by_cases hnil : bs = []
  · rw [if_pos hnil, if_pos hnil]
  by_cases hshort : bs.length < 4
  · rw [if_neg hnil, if_neg hnil, if_pos hshort, if_pos hshort]
  rw [if_neg hnil, if_neg hnil, if_neg hshort, if_neg hshort, leAt?_eq (by omega)]
  simp only [Option.bind_eq_bind, Option.bind_some]
  set length := leAt bs 0 4
  by_cases hlarge : maxRecordSize < length
  · rw [if_pos hlarge, if_pos hlarge]
  by_cases hsmall : length < 4
  · rw [if_neg hlarge, if_neg hlarge, if_pos hsmall, if_pos hsmall]
  by_cases hbody : (slice bs 4 length).length < length
  · rw [if_neg hlarge, if_neg hlarge, if_neg hsmall, if_neg hsmall, if_pos hbody, if_pos hbody]
  have hlen : (slice bs 4 length).length ≤ length := List.length_take_le ..
  have hfirst : slice (slice bs 4 length) 0 (length - 4) = (slice bs 4 length).take (length - 4) :=
    rfl
  have hlast : leAt (slice bs 4 length) (length - 4) 4
      = leNat ((slice bs 4 length).drop (length - 4)) := by
    rw [leAt, slice, List.take_of_length_le]
    rw [List.length_drop]
    omega
  rw [if_neg hlarge, if_neg hlarge, if_neg hsmall, if_neg hsmall, if_neg hbody, if_neg hbody,
    slice?_eq (by omega), leAt?_eq (by omega), hlast, hfirst]
  simp only [Option.bind_some, decodeInnerChecked_eq]
  by_cases hcrc : leNat ((slice bs 4 length).drop (length - 4)) ≠
      (crc ((slice bs 4 length).take (length - 4))).toNat
  · rw [if_pos hcrc, if_pos hcrc]
  rw [if_neg hcrc, if_neg hcrc]
  cases decodeInner ((slice bs 4 length).take (length - 4)) with
  | none => rfl
  | some => rfl

/-- The bytes behind the frame have no influence. -/
theorem decode_take_frame_length (bs : Bytes) :
    decode crc (bs.take (4 + leAt bs 0 4)) = decode crc bs := by
  by_cases hshort : bs.length < 4
  · rw [List.take_of_length_le (by omega)]
  have hlength : leAt (bs.take (4 + leAt bs 0 4)) 0 4 = leAt bs 0 4 := by
    rw [leAt, slice, List.drop_zero, List.take_take, Nat.min_eq_left (by omega)]
    rfl
  have hbody : slice (bs.take (4 + leAt bs 0 4)) 4 (leAt bs 0 4) = slice bs 4 (leAt bs 0 4) := by
    rw [slice, List.drop_take, List.take_take, Nat.add_sub_cancel_left, Nat.min_self]
    rfl
  have hne : bs ≠ [] := by
    rintro rfl
    exact hshort (by simp)
  have hne' : bs.take (4 + leAt bs 0 4) ≠ [] := by
    intro hnil
    rcases List.take_eq_nil_iff.mp hnil with hzero | hnil
    · omega
    · exact hne hnil
  have hge : ¬ (bs.take (4 + leAt bs 0 4)).length < 4 := by
    rw [List.length_take]
    omega
  unfold decode
  rw [if_neg hne, if_neg hne', if_neg hshort, if_neg hge]
  simp only [hlength, hbody]

/-! ## The layouts -/

variable {rec : Record} {f : FrameLayout}

/-- A string is accepted when it begins with the frame of a valid layout that is not too large, and
then it is read as the record of that layout. -/
theorem decode_eq_ok_iff {bs : Bytes} {n : ℕ} :
    decode crc bs = .ok (rec, n) ↔ ∃ f : FrameLayout, f.Valid ∧ f.body.length + 4 ≤ maxRecordSize ∧
      f.frame crc <+: bs ∧ f.record = rec ∧ (f.frame crc).length = n := by
  constructor
  · intro h
    unfold decode at h
    dsimp only at h
    split_ifs at h with hnil hshort hlarge hsmall hbody hcrc
    split at h
    next => cases h
    next rec' hinner =>
      obtain ⟨rfl, rfl⟩ := Prod.mk.inj (Except.ok.inj h)
      obtain ⟨f, hvalid, hfields, rfl⟩ := of_decodeInner hinner
      set length := leAt bs 0 4 with hlength
      have hslice : (slice bs 4 length).length = length := by
        have hle : (slice bs 4 length).length ≤ length := List.length_take_le ..
        omega
      have hsize : f.body.length + 4 = length := by
        rw [hfields, List.length_take, hslice]
        omega
      have hlast : ((slice bs 4 length).drop (length - 4)).length = 4 := by
        rw [List.length_drop, hslice]
        omega
      -- The four bytes behind the fields are the checksum.
      have hsum : leBytes 4 (crc f.body).toNat = (slice bs 4 length).drop (length - 4) := by
        have hwrite := leBytes_leNat ((slice bs 4 length).drop (length - 4))
        rw [hlast, not_not.mp hcrc, ← hfields] at hwrite
        exact hwrite
      have hframe : f.frame crc ++ bs.drop (4 + length) = bs := by
        rw [FrameLayout.frame, hsize, hsum, hfields, List.take_append_drop, hlength,
          leBytes_leAt (by omega), ← hlength, List.append_assoc, slice_append_drop,
          slice_append_drop, List.drop_zero]
      refine ⟨f, hvalid, by omega, ⟨_, hframe⟩, rfl, ?_⟩
      rw [f.length_frame crc]
      omega
  · rintro ⟨f, hvalid, hsize, ⟨rest, rfl⟩, rfl, rfl⟩
    exact FrameLayout.decode_frame crc hvalid hsize rest

/-! ## Writing a frame again -/

/-- The trailing bytes are those that a record is written with when there is one word, or two of
which the second is not zero. -/
theorem trailer_record_iff (h : f.Valid) :
    f.trailing = trailer f.record ↔ f.trailing.length = 8 ∨
      f.trailing.length = 16 ∧ f.trailing.drop 8 ≠ List.replicate 8 0 := by
  have hword {bs : Bytes} (hlen : bs.length = 8) :
      leBytes 8 (UInt64.ofNat (leNat bs)).toNat = bs := by
    have hlt := leNat_lt bs
    have hwrite := leBytes_leNat bs
    rw [hlen] at hlt hwrite
    rw [UInt64.toNat_ofNat', Nat.mod_eq_of_lt (by omega), hwrite]
  have hzero {bs : Bytes} (hlen : bs.length = 8) :
      UInt64.ofNat (leNat bs) = 0 ↔ bs = List.replicate 8 0 := by
    have hlt := leNat_lt bs
    rw [hlen] at hlt
    rw [← hlen, ← leNat_eq_zero_iff, ← UInt64.toNat_inj, UInt64.toNat_ofNat',
      Nat.mod_eq_of_lt (by omega)]
    rfl
  have hlength := length_trailer f.record
  rcases h.trailing with hnone | hone | htwo
  · -- A record is never written without its first word.
    refine ⟨fun heq => ?_, fun hbad => by omega⟩
    rw [← heq, hnone] at hlength
    split_ifs at hlength
  · refine ⟨fun _ => .inl hone, fun _ => ?_⟩
    have hdrop : f.trailing.drop 8 = [] := List.drop_eq_nil_of_le hone.le
    have hraft : f.record.raftIndex = 0 := by
      rw [FrameLayout.record, hdrop]
      rfl
    rw [trailer, if_neg (not_not.mpr hraft), List.append_nil, FrameLayout.record,
      List.take_of_length_le hone.le, hword hone]
  · have hfirst : (f.trailing.take 8).length = 8 := List.length_take_of_le (by omega)
    have hsecond : (f.trailing.drop 8).length = 8 := by
      rw [List.length_drop]
      omega
    have hraft : f.record.raftIndex = 0 ↔ f.trailing.drop 8 = List.replicate 8 0 := hzero hsecond
    constructor
    · intro heq
      refine .inr ⟨htwo, fun hnull => ?_⟩
      rw [← heq, htwo, if_neg (not_not.mpr (hraft.mpr hnull))] at hlength
      omega
    · intro hcase
      have hne : f.record.raftIndex ≠ 0 := fun hnull => by
        rcases hcase with hlen | ⟨-, hne⟩
        · omega
        · exact hne (hraft.mp hnull)
      rw [trailer, if_pos hne, FrameLayout.record, hword hfirst, hword hsecond,
        List.take_append_drop]

theorem encode_record_iff (h : f.Valid) (hsize : f.body.length + 4 ≤ maxRecordSize) :
    encode crc f.record = .ok (f.frame crc) ↔ f.trailing.length = 8 ∨
      f.trailing.length = 16 ∧ f.trailing.drop 8 ≠ List.replicate 8 0 := by
  rw [encode_eq_ok_iff, ← trailer_record_iff h]
  -- The two frames differ at most in the trailing bytes.
  have hbody : inner f.record = f.header ++ (f.dedupeKey ++ (leBytes 4 f.payload.length ++
      (f.payload ++ trailer f.record))) := rfl
  constructor
  · rintro ⟨-, hframe⟩
    have hbodies : f.body = inner f.record := by
      have hlen := congrArg List.length hframe
      rw [f.length_frame crc, length_frame crc] at hlen
      have htail : f.body ++ _ = inner f.record ++ _ :=
        (List.append_inj hframe (by rw [length_leBytes, length_leBytes])).2
      exact (List.append_inj htail (by omega)).1
    rw [FrameLayout.body, hbody] at hbodies
    simpa only [List.append_cancel_left_eq] using hbodies
  · intro htrail
    have hbodies : inner f.record = f.body := by
      rw [hbody, ← htrail, FrameLayout.body]
    refine ⟨⟨?_, by rw [hbodies]; exact hsize⟩, ?_⟩
    · have hkey : f.record.dedupeKey.length < 256 ^ 2 := h.key
      omega
    · rw [FrameLayout.frame, frame, hbodies]

/-- `Decode` accepts exactly the strings that begin with a frame in one of the three layouts. It
reads within the frame only, and the frame is written again as it was just when the layout is one
of those that `Encode` writes. -/
theorem decode_accepts_layouts (bs : Bytes) :
    (∀ rec n, decode crc bs = .ok (rec, n) ↔ ∃ f : FrameLayout, f.Valid ∧
      f.body.length + 4 ≤ maxRecordSize ∧ f.frame crc <+: bs ∧ f.record = rec ∧
      (f.frame crc).length = n) ∧
    decodeChecked crc bs = some (decode crc bs) ∧
    decode crc (bs.take (4 + leAt bs 0 4)) = decode crc bs ∧
    ∀ f : FrameLayout, f.Valid → f.body.length + 4 ≤ maxRecordSize → f.frame crc <+: bs →
      (encode crc f.record = .ok (f.frame crc) ↔ f.trailing.length = 8 ∨
        f.trailing.length = 16 ∧ f.trailing.drop 8 ≠ List.replicate 8 0) :=
  ⟨fun _ _ => decode_eq_ok_iff crc, decodeChecked_eq crc bs, decode_take_frame_length crc bs,
    fun _ hvalid hsize _ => encode_record_iff crc hvalid hsize⟩

/-! ## Streams -/

/-- `Encode`, with the buffer that it appends to. -/
def encodeTo (rec : Record) (dst : Bytes) : Bytes × Option DecodeError :=
  if 65535 < rec.dedupeKey.length then (dst, some .tooLarge)
  else if maxRecordSize < (inner rec).length + 4 then (dst, some .tooLarge)
  else
    let dst := dst ++ leBytes 4 ((inner rec).length + 4)
    let dst := dst ++ inner rec
    let dst := dst ++ leBytes 4 (crc (inner rec)).toNat
    (dst, none)

/-- The buffer after a sequence of records. -/
def encodeAll (recs : List Record) : Bytes :=
  recs.foldl (fun dst rec => (encodeTo crc rec dst).1) []

theorem encodeTo_of_fits (h : Fits rec) (dst : Bytes) :
    encodeTo crc rec dst = (dst ++ frame crc rec, none) := by
  rw [encodeTo, if_neg (Nat.not_lt.mpr h.1), if_neg (Nat.not_lt.mpr h.2), frame]
  simp only [List.append_assoc]

theorem encodeTo_of_not_fits (h : ¬ Fits rec) (dst : Bytes) :
    encodeTo crc rec dst = (dst, some .tooLarge) := by
  unfold encodeTo
  split_ifs with hkey hsize
  · rfl
  · rfl
  · exact absurd ⟨Nat.le_of_not_lt hkey, Nat.le_of_not_lt hsize⟩ h

/-- The buffer holds the frames, one after the other. -/
theorem encodeAll_eq {recs : List Record} (h : ∀ rec ∈ recs, Fits rec) :
    encodeAll crc recs = (framing crc).frames recs := by
  have hfold (dst : Bytes) : recs.foldl (fun dst rec => (encodeTo crc rec dst).1) dst
      = dst ++ (framing crc).frames recs := by
    induction recs generalizing dst with
    | nil => exact (List.append_nil dst).symm
    | cons rec recs ih =>
      have hrec : Fits rec := h rec List.mem_cons_self
      rw [List.foldl_cons, encodeTo_of_fits crc hrec,
        ih (fun r hr => h r (List.mem_cons_of_mem rec hr)), List.append_assoc]
      rfl
  exact (hfold []).trans (List.nil_append _)

/-- A stream that is cut at any byte is read up to the last frame before the cut. What comes then
tells whether the cut is between two frames. A record that is too large is not written. -/
theorem cut_stream_read (recs : List Record)
    (hkey : ∀ rec ∈ recs, rec.dedupeKey.length ≤ 65535)
    (hsize : ∀ rec ∈ recs, (inner rec).length + 4 ≤ maxRecordSize) (k : ℕ)
    (hk : k ≤ (encodeAll crc recs).length) :
    (∃ n ≤ recs.length, (encodeAll crc (recs.take n)).length ≤ k ∧
      (n < recs.length → k < (encodeAll crc (recs.take (n + 1))).length) ∧
      ∀ out e, (framing crc).Reads ((encodeAll crc recs).take k) out e ↔
        out = (recs.take n).map (fun rec => (rec, (encodeTo crc rec []).1.length)) ∧
        e = if k = (encodeAll crc (recs.take n)).length then .eof else .shortRead) ∧
    ∀ rec dst, ((encodeTo crc rec dst).2 ≠ none ↔
        65535 < rec.dedupeKey.length ∨ maxRecordSize < (inner rec).length + 4) ∧
      ((encodeTo crc rec dst).2 ≠ none → (encodeTo crc rec dst).1 = dst) := by
  have hfit : ∀ rec ∈ recs, Fits rec := fun rec hrec => ⟨hkey rec hrec, hsize rec hrec⟩
  have hfit' (m : ℕ) : ∀ rec ∈ recs.take m, Fits rec := fun rec hrec =>
    hfit rec (List.mem_of_mem_take hrec)
  refine ⟨⟨(framing crc).whole k recs, (framing crc).whole_le_length k recs, ?_, ?_, ?_⟩, ?_⟩
  · rw [encodeAll_eq crc (hfit' _)]
    exact (framing crc).length_frames_take_whole_le k recs
  · intro hlt
    rw [encodeAll_eq crc (hfit' _)]
    exact (framing crc).lt_length_frames_take_whole k recs hlt
  · have hread := (framing crc).reads_take_frames k recs hfit
    have hsized : (framing crc).sized (recs.take ((framing crc).whole k recs))
        = (recs.take ((framing crc).whole k recs)).map
          fun rec => (rec, (encodeTo crc rec []).1.length) := by
      refine List.map_congr_left fun rec hrec => ?_
      rw [encodeTo_of_fits crc (hfit' _ rec hrec)]
      rfl
    rw [encodeAll_eq crc hfit] at hk
    rw [← encodeAll_eq crc hfit, ← encodeAll_eq crc (hfit' _), hsized, encodeAll_eq crc hfit,
      List.length_take_of_le hk] at hread
    rw [encodeAll_eq crc hfit]
    intro out e
    constructor
    · intro h
      exact Framing.Reads.unique _ hread h
    · rintro ⟨rfl, rfl⟩
      exact hread
  · intro rec dst
    by_cases h : Fits rec
    · rw [encodeTo_of_fits crc h]
      refine ⟨⟨fun hne => absurd rfl hne, fun hbad => ?_⟩, fun hne => absurd rfl hne⟩
      obtain ⟨hkey, hsize⟩ := h
      omega
    · rw [encodeTo_of_not_fits crc h]
      refine ⟨⟨fun _ => ?_, fun _ => by simp⟩, fun _ => rfl⟩
      rw [Fits, not_and_or] at h
      omega

end Codec

/-- Two records, the second with a key and a raft index, cut within the second frame. -/
theorem cut_stream_read_torn :
    let recs : List Record := [⟨0, 1, [], [104], 0, 0⟩, ⟨1, 2, [107], [105], 0, 7⟩]
    (framing checksumIEEE).Reads ((encodeAll checksumIEEE recs).take 50)
      [(⟨0, 1, [], [104], 0, 0⟩, 39)] .shortRead := by
  intro recs
  have hone : (encodeAll checksumIEEE (recs.take 1)).length = 39 := by decide +kernel
  have htwo : (encodeAll checksumIEEE (recs.take 2)).length = 87 := by decide +kernel
  obtain ⟨n, hn, hle, hlt, hread⟩ := (cut_stream_read checksumIEEE recs (by decide) (by decide) 50
    (by rw [show recs = recs.take 2 from rfl, htwo]; omega)).1
  have hlen : recs.length = 2 := rfl
  obtain rfl | rfl | rfl : n = 0 ∨ n = 1 ∨ n = 2 := by omega
  · have hafter := hlt (by omega)
    rw [Nat.zero_add, hone] at hafter
    omega
  · refine (hread _ _).mpr ⟨by decide +kernel, ?_⟩
    rw [hone]
    rfl
  · omega

end ToyMQ.Wal
