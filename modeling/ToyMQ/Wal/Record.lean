import ToyMQ.Lib.Framing

/-!
# The record codec of the write-ahead log

`encode` and `decode` follow the two functions of `record.go` byte by byte. A frame is a length
field, the record's fields, and a CRC of the fields; the length counts the fields and the CRC.
The two trailing fields came later than the format: `visibleAtNs` is always written and
`raftIndex` only when it is not zero, and a frame with neither of them still decodes.

The codec is stated over an arbitrary checksum function, since nothing but equality of checksums
is ever used of it; `codec` is the instance at the CRC the source uses. `framing` packs the two
functions with the laws that the rest of the log rests on: a frame is read back as its record,
and a frame cut short is reported as a short read.
-/

namespace ToyMQ.Wal

open Lib List

/-- One durable message. -/
structure Record where
  /-- The id that `Append` assigns. -/
  msgID : UInt64
  /-- The producer's timestamp. -/
  tsNs : UInt64
  /-- The dedupe key; empty when there is none. -/
  dedupeKey : Bytes
  /-- The message itself. -/
  payload : Bytes
  /-- The time before which the message must not be delivered; 0 for none. -/
  visibleAtNs : UInt64
  /-- The index of the raft entry that produced the record; 0 on a standalone broker. -/
  raftIndex : UInt64
deriving DecidableEq, Repr

/-- What `Decode` can fail with. -/
inductive DecodeError where
  /-- The stream ended on a frame boundary. -/
  | eof
  /-- The stream ended inside a frame, or the frame is malformed. -/
  | shortRead
  /-- The checksum does not match. -/
  | badCRC
  /-- The length field exceeds `maxRecordSize`. -/
  | tooLarge
deriving DecidableEq, Repr

/-- `MaxRecordSize`: 4 MiB for the fields and the checksum. -/
def maxRecordSize : ℕ := 4 * 2 ^ 20

/-! ## The checksum -/

/-- One byte of the reflected CRC-32 with the IEEE polynomial. -/
def crcByte (crc : UInt32) (b : UInt8) : UInt32 :=
  (fun c : UInt32 => if c &&& 1 = 1 then (c >>> 1) ^^^ 0xEDB88320 else c >>> 1)^[8]
    (crc ^^^ b.toUInt32)

/-- `crc32.ChecksumIEEE`. -/
def checksumIEEE (bs : Bytes) : UInt32 := ~~~ bs.foldl crcByte 0xFFFFFFFF

-- The check value of the CRC-32 catalogue, on the digits 1 to 9.
example : checksumIEEE [49, 50, 51, 52, 53, 54, 55, 56, 57] = 0xCBF43926 := by
  decide +kernel

/-! ## Encoding -/

/-- The fields before a record's key. -/
def header (rec : Record) : Bytes :=
  leBytes 8 rec.msgID.toNat ++ (leBytes 8 rec.tsNs.toNat ++ leBytes 2 rec.dedupeKey.length)

/-- The fields after a record's payload: `raftIndex` is written only when it is not zero. -/
def trailer (rec : Record) : Bytes :=
  leBytes 8 rec.visibleAtNs.toNat ++
    (if rec.raftIndex ≠ 0 then leBytes 8 rec.raftIndex.toNat else [])

/-- The fields of a record as they stand in a frame, between the length and the checksum. -/
def inner (rec : Record) : Bytes :=
  header rec ++ (rec.dedupeKey ++ (leBytes 4 rec.payload.length ++ (rec.payload ++ trailer rec)))

section Codec

variable (crc : Bytes → UInt32)

def frame (rec : Record) : Bytes :=
  leBytes 4 ((inner rec).length + 4) ++ (inner rec ++ leBytes 4 (crc (inner rec)).toNat)

/-- The records whose key fits its length field and whose frame fits `maxRecordSize`. -/
def Fits (rec : Record) : Prop :=
  rec.dedupeKey.length ≤ 65535 ∧ (inner rec).length + 4 ≤ maxRecordSize

instance : DecidablePred Fits := fun _ => inferInstanceAs (Decidable (_ ∧ _))

/-- `Encode`: the frame of a record, or the error for one that is too large. -/
def encode (rec : Record) : Except DecodeError Bytes :=
  if 65535 < rec.dedupeKey.length then .error .tooLarge
  else if maxRecordSize < (inner rec).length + 4 then .error .tooLarge
  else .ok (frame crc rec)

variable {rec : Record}

/-- A record is encoded exactly when it fits. -/
theorem encode_eq_ok_iff {bs : Bytes} :
    encode crc rec = .ok bs ↔ Fits rec ∧ bs = frame crc rec := by
  unfold encode Fits
  split_ifs with hkey hsize
  · simp [Nat.not_le.mpr hkey]
  · simp [Nat.not_le.mpr hsize]
  · simp only [Except.ok.injEq]
    exact ⟨fun h => ⟨⟨by omega, by omega⟩, h.symm⟩, fun h => h.2.symm⟩

/-! ## Decoding -/

/-- The record that a frame's fields hold, when their lengths agree with the frame's. -/
def decodeInner (bs : Bytes) : Option Record :=
  if bs.length < 8 + 8 + 2 + 4 then none
  else
    let msgID := UInt64.ofNat (leAt bs 0 8)
    let tsNs := UInt64.ofNat (leAt bs 8 8)
    let keyLen := leAt bs 16 2
    let off := 18
    if bs.length < off + keyLen then none
    else
      let dedupeKey := slice bs off keyLen
      let off := off + keyLen
      if bs.length < off + 4 then none
      else
        let payloadLen := leAt bs off 4
        let off := off + 4
        if bs.length < off + payloadLen then none
        else
          let payload := slice bs off payloadLen
          let off := off + payloadLen
          match bs.length - off with
          | 0 => some ⟨msgID, tsNs, dedupeKey, payload, 0, 0⟩
          | 8 => some ⟨msgID, tsNs, dedupeKey, payload, UInt64.ofNat (leAt bs off 8), 0⟩
          | 16 => some ⟨msgID, tsNs, dedupeKey, payload, UInt64.ofNat (leAt bs off 8),
              UInt64.ofNat (leAt bs (off + 8) 8)⟩
          | _ => none

/-- `Decode`: the record at the head of a stream and the number of bytes of its frame. -/
def decode (bs : Bytes) : Except DecodeError (Record × ℕ) :=
  if bs = [] then .error .eof
  else if bs.length < 4 then .error .shortRead
  else
    let length := leAt bs 0 4
    if maxRecordSize < length then .error .tooLarge
    else if length < 4 then .error .shortRead
    else
      let body := slice bs 4 length
      if body.length < length then .error .shortRead
      else
        let inner := body.take (length - 4)
        let gotCRC := leNat (body.drop (length - 4))
        if gotCRC ≠ (crc inner).toNat then .error .badCRC
        else
          match decodeInner inner with
          | none => .error .shortRead
          | some rec => .ok (rec, 4 + length)

/-! ## The two sides agree -/

@[simp]
theorem length_header (rec : Record) : (header rec).length = 18 := by
  simp [header]

/-- The two lengths of the trailing fields. -/
theorem length_trailer (rec : Record) :
    (trailer rec).length = if rec.raftIndex ≠ 0 then 16 else 8 := by
  unfold trailer
  split_ifs <;> simp

/-- The length of a record's fields. -/
theorem length_inner (rec : Record) :
    (inner rec).length
      = 22 + rec.dedupeKey.length + rec.payload.length + (trailer rec).length := by
  simp [inner]
  omega

/-- The length of a frame. -/
theorem length_frame (rec : Record) : (frame crc rec).length = (inner rec).length + 8 := by
  simp [frame]
  omega

/-- A 64-bit field is read back as it was written. -/
theorem ofNat_toNat_mod (v : UInt64) : UInt64.ofNat (v.toNat % 256 ^ 8) = v := by
  apply UInt64.toNat_inj.mp
  have hv := v.toNat_lt
  rw [UInt64.toNat_ofNat', Nat.mod_mod_of_dvd _ (by norm_num), Nat.mod_eq_of_lt hv]

theorem Fits.lengths_lt (h : Fits rec) :
    rec.dedupeKey.length < 256 ^ 2 ∧ rec.payload.length < 256 ^ 4 ∧
      (inner rec).length + 4 < 256 ^ 4 := by
  obtain ⟨hkey, hsize⟩ := h
  have hlen := length_inner rec
  have hmax : maxRecordSize = 4194304 := rfl
  norm_num
  omega

/-! ### What a frame may hold

The reader knows three layouts, which differ in the number of bytes after the payload. A record is
written in one of two of them. -/

/-- The fields of a frame, with the bytes after the payload as they stand. -/
structure FrameLayout where
  msgID : UInt64
  tsNs : UInt64
  dedupeKey : Bytes
  payload : Bytes
  trailing : Bytes
deriving DecidableEq, Repr

namespace FrameLayout

variable (f : FrameLayout)

/-- The fields before the key. -/
def header : Bytes :=
  leBytes 8 f.msgID.toNat ++ (leBytes 8 f.tsNs.toNat ++ leBytes 2 f.dedupeKey.length)

/-- The bytes that the checksum is taken of. -/
def body : Bytes :=
  f.header ++ (f.dedupeKey ++ (leBytes 4 f.payload.length ++ (f.payload ++ f.trailing)))

/-- The record that the fields stand for; a field that is missing is 0. -/
def record : Record :=
  ⟨f.msgID, f.tsNs, f.dedupeKey, f.payload, .ofNat (leNat (f.trailing.take 8)),
    .ofNat (leNat (f.trailing.drop 8))⟩

/-- The strings fit their length fields, and nothing, one word or two words follow the payload. -/
structure Valid : Prop where
  key : f.dedupeKey.length < 256 ^ 2
  payload : f.payload.length < 256 ^ 4
  trailing : f.trailing.length = 0 ∨ f.trailing.length = 8 ∨ f.trailing.length = 16

@[simp]
theorem length_header : f.header.length = 18 := by
  simp [header]

theorem length_body :
    f.body.length = 22 + f.dedupeKey.length + f.payload.length + f.trailing.length := by
  simp [body]
  omega

variable {f}

theorem decodeInner_body (h : f.Valid) : decodeInner f.body = some f.record := by
  have hlen := f.length_body
  -- Each field stands after the concatenation of the fields before it.
  have hmsgID : leAt f.body 0 8 = f.msgID.toNat % 256 ^ 8 :=
    leAt_append [] 8 _ _ rfl
  have htsNs : leAt f.body 8 8 = f.tsNs.toNat % 256 ^ 8 := by
    rw [body, header, append_assoc, append_assoc]
    exact leAt_append _ 8 _ _ (length_leBytes 8 _)
  have hkeyLen : leAt f.body 16 2 = f.dedupeKey.length := by
    rw [body, header, ← append_assoc (leBytes 8 _), append_assoc,
      leAt_append _ 2 _ _ (by simp), Nat.mod_eq_of_lt h.key]
  have hdedupe : slice f.body 18 f.dedupeKey.length = f.dedupeKey :=
    slice_append _ f.length_header rfl
  have hpayLen : leAt f.body (18 + f.dedupeKey.length) 4 = f.payload.length := by
    rw [body, ← append_assoc, leAt_append _ 4 _ _ (by simp), Nat.mod_eq_of_lt h.payload]
  have hpayload : slice f.body (18 + f.dedupeKey.length + 4) f.payload.length = f.payload := by
    rw [body, ← append_assoc, ← append_assoc]
    exact slice_append _ (by simp [Nat.add_assoc]) rfl
  have htail (off : ℕ) : slice f.body (18 + f.dedupeKey.length + 4 + f.payload.length + off) 8
      = (f.trailing.drop off).take 8 := by
    have hsplit : f.body = (f.header ++ f.dedupeKey ++ leBytes 4 f.payload.length ++ f.payload)
        ++ f.trailing := by
      simp [body]
    rw [slice, hsplit, ← drop_drop, drop_left' (by simp [Nat.add_assoc])]
  unfold decodeInner
  simp only [hmsgID, htsNs, hkeyLen, hdedupe, hpayLen, hpayload, ofNat_toNat_mod]
  rw [if_neg (by omega), if_neg (by omega), if_neg (by omega), if_neg (by omega),
    show f.body.length - (18 + f.dedupeKey.length + 4 + f.payload.length) = f.trailing.length by
      omega]
  have hfirst := htail 0
  have hsecond := htail 8
  rw [Nat.add_zero, drop_zero] at hfirst
  rcases h.trailing with hnone | hone | htwo
  · rw [hnone, record, length_eq_zero_iff.mp hnone]
    rfl
  · have hdrop : f.trailing.drop 8 = [] := drop_eq_nil_of_le hone.le
    rw [hone, record, hdrop]
    simp only [leAt, hfirst]
    rfl
  · have hdrop : (f.trailing.drop 8).take 8 = f.trailing.drop 8 :=
      take_of_length_le (by rw [length_drop]; omega)
    rw [htwo, record]
    simp only [leAt, hfirst, hsecond, hdrop]

end FrameLayout

def Record.layout (rec : Record) : FrameLayout :=
  ⟨rec.msgID, rec.tsNs, rec.dedupeKey, rec.payload, trailer rec⟩

theorem record_layout (rec : Record) : rec.layout.record = rec := by
  have hword (v : UInt64) : UInt64.ofNat (leNat (leBytes 8 v.toNat)) = v := by
    rw [leNat_leBytes, ofNat_toNat_mod]
  have hfirst : (trailer rec).take 8 = leBytes 8 rec.visibleAtNs.toNat :=
    take_left' (length_leBytes 8 _)
  have hsecond : (trailer rec).drop 8 =
      if rec.raftIndex ≠ 0 then leBytes 8 rec.raftIndex.toNat else [] :=
    drop_left' (length_leBytes 8 _)
  simp only [FrameLayout.record, Record.layout, hfirst, hsecond, hword]
  by_cases hzero : rec.raftIndex = 0
  · rw [if_neg (not_not.mpr hzero)]
    obtain ⟨msgID, tsNs, dedupeKey, payload, visibleAtNs, raftIndex⟩ := rec
    cases hzero
    rfl
  · rw [if_pos hzero, hword]

/-- A record that fits is written in a valid layout. -/
theorem Fits.valid (h : Fits rec) : rec.layout.Valid := by
  obtain ⟨hkey, hpay, -⟩ := h.lengths_lt
  refine ⟨hkey, hpay, .inr ?_⟩
  have htrail := length_trailer rec
  split_ifs at htrail with hzero
  · exact .inr htrail
  · exact .inl htrail

theorem leAt_length (h : Fits rec) (rest : Bytes) :
    leAt (leBytes 4 ((inner rec).length + 4) ++ rest) 0 4 = (inner rec).length + 4 := by
  obtain ⟨-, -, hlt⟩ := h.lengths_lt
  exact (leAt_append [] 4 _ rest rfl).trans (Nat.mod_eq_of_lt hlt)

def FrameLayout.frame (f : FrameLayout) : Bytes :=
  leBytes 4 (f.body.length + 4) ++ (f.body ++ leBytes 4 (crc f.body).toNat)

theorem FrameLayout.length_frame (f : FrameLayout) : (f.frame crc).length = f.body.length + 8 := by
  simp [FrameLayout.frame]
  omega

theorem FrameLayout.decode_frame {f : FrameLayout} (h : f.Valid)
    (hsize : f.body.length + 4 ≤ maxRecordSize) (rest : Bytes) :
    decode crc (f.frame crc ++ rest) = .ok (f.record, (f.frame crc).length) := by
  have hlen := f.length_frame crc
  have hmax : maxRecordSize < 256 ^ 4 := by decide
  have hlength : leAt (f.frame crc ++ rest) 0 4 = f.body.length + 4 := by
    rw [FrameLayout.frame, append_assoc]
    exact (leAt_append [] 4 _ _ rfl).trans (Nat.mod_eq_of_lt (by omega))
  have hbody : slice (f.frame crc ++ rest) 4 (f.body.length + 4)
      = f.body ++ leBytes 4 (crc f.body).toNat := by
    rw [FrameLayout.frame, append_assoc]
    exact slice_append _ (by simp) (by simp)
  have hcrc : (crc f.body).toNat < 256 ^ 4 := (crc f.body).toNat_lt
  have hne : f.frame crc ++ rest ≠ [] := by
    intro hnil
    rw [(append_eq_nil_iff.mp hnil).1] at hlen
    simp at hlen
  unfold decode
  simp only [hlength, hbody]
  rw [if_neg hne, if_neg (by rw [length_append]; omega),
    if_neg (Nat.not_lt.mpr hsize), if_neg (by omega), if_neg (by simp)]
  simp only [Nat.add_sub_cancel, take_left, drop_left, leNat_leBytes_of_lt hcrc, ne_eq,
    not_true_eq_false, if_false, FrameLayout.decodeInner_body h, hlen]
  rw [Nat.add_comm 4]

/-- A whole frame is read as its record, whatever follows it. -/
theorem decode_frame (h : Fits rec) (rest : Bytes) :
    decode crc (frame crc rec ++ rest) = .ok (rec, (frame crc rec).length) := by
  have hread := FrameLayout.decode_frame crc h.valid h.2 rest
  rwa [record_layout] at hread

/-- A proper part of a frame is a short read. -/
theorem decode_take_frame (h : Fits rec) {k : ℕ} (hpos : 0 < k) (hlt : k < (frame crc rec).length) :
    decode crc ((frame crc rec).take k) = .error .shortRead := by
  have hlen := length_frame crc rec
  have hk : ((frame crc rec).take k).length = k := length_take_of_le hlt.le
  have hne : (frame crc rec).take k ≠ [] := by
    intro hnil
    rw [hnil] at hk
    exact hpos.ne hk
  unfold decode
  rw [if_neg hne, hk]
  by_cases hfour : k < 4
  · rw [if_pos hfour]
  · have hlength : leAt ((frame crc rec).take k) 0 4 = (inner rec).length + 4 := by
      rw [frame, take_append, take_of_length_le (by rw [length_leBytes]; omega),
        leAt_length h]
    rw [if_neg hfour]
    simp only [hlength]
    rw [if_neg (Nat.not_lt.mpr h.2), if_neg (by omega), if_pos]
    rw [slice, length_take, length_drop, hk]
    omega

/-- The record framing over a checksum function. -/
def framing : Framing Record DecodeError where
  frame := frame crc
  decode := decode crc
  Fits := Fits
  eof := .eof
  torn := .shortRead
  frame_ne_nil rec := by
    intro hnil
    have hlen := length_frame crc rec
    rw [hnil] at hlen
    simp at hlen
  decode_nil := by simp [decode]
  decode_frame _ rest h := decode_frame crc h rest
  decode_torn _ _ h hpos hlt := decode_take_frame crc h hpos hlt

end Codec

/-- The framing of the log's files. -/
def codec : Framing Record DecodeError := framing checksumIEEE

@[simp]
theorem codec_eof : codec.eof = .eof := rfl

@[simp]
theorem codec_torn : codec.torn = .shortRead := rfl

end ToyMQ.Wal
