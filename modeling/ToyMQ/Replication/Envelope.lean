import ToyMQ.Replication.StateMachine

/-!
# The codec of the command envelope

A proposal carries its command as bytes. `encode` and `decode` follow `envelope.go`: a version, the
kind, and then every field in a fixed order, the strings behind their lengths. Partition numbers
and counts travel as 32-bit integers, and the broker converts its own with `int32` before it builds
an envelope.

`decode_encode` is what replication rests on. An envelope whose integers fit their fields, and
which is not larger than the limit, is read back as it was. `int32_eq_self` says which numbers of
the broker the conversion keeps. In the other direction a string that is accepted is an encoding
(`of_decode`), and nothing may stand behind it (`append_eq_nil_of_decode`).
-/

namespace ToyMQ.Replication

open Lib Broker List Option

/-! ## Integers of the wire -/

/-- The conversion `int32(v)`: the low 32 bits of `v`, read as a signed number. -/
def int32 (v : ℤ) : ℤ := (v + 2 ^ 31) % 2 ^ 32 - 2 ^ 31

/-- The conversion `uint32(v)`: the low 32 bits of `v`. -/
def uint32 (v : ℤ) : ℕ := (v % 2 ^ 32).toNat

/-- The values of a signed 32-bit integer. -/
def IsInt32 (v : ℤ) : Prop := -2 ^ 31 ≤ v ∧ v < 2 ^ 31

instance (v : ℤ) : Decidable (IsInt32 v) := inferInstanceAs (Decidable (_ ∧ _))

theorem isInt32_int32 (v : ℤ) : IsInt32 (int32 v) := by
  unfold IsInt32 int32
  omega

variable {v : ℤ}

theorem int32_eq_self (h : IsInt32 v) : int32 v = v := by
  unfold IsInt32 at h
  unfold int32
  omega

theorem uint32_lt (v : ℤ) : uint32 v < 256 ^ 4 := by
  unfold uint32
  omega

/-- The bits of a signed number determine it. -/
theorem int32_uint32 (h : IsInt32 v) : int32 (uint32 v) = v := by
  unfold IsInt32 at h
  unfold int32 uint32
  omega

/-! ## The codec -/

/-- `EnvelopeVersion`. -/
def envelopeVersion : UInt8 := 1

/-- `maxEnvelopeSize`. -/
def maxEnvelopeSize : ℕ := 4 * 2 ^ 20

/-- What `Decode` can fail with. -/
inductive EnvelopeError where
  | shortRead
  | badVersion
  | badKind
  | tooLarge
  | trailingGarbage
deriving DecidableEq, Repr

def Kind.toByte : Kind → UInt8
  | .publish => 0
  | .ack => 1
  | .nack => 2
  | .createTopic => 3

/-- The kind that a byte stands for; a byte above the last kind stands for none. -/
def Kind.ofByte (b : UInt8) : Option Kind :=
  match b.toNat with
  | 0 => some .publish
  | 1 => some .ack
  | 2 => some .nack
  | 3 => some .createTopic
  | _ => none

@[simp]
theorem Kind.ofByte_toByte (kind : Kind) : Kind.ofByte kind.toByte = some kind := by
  cases kind <;> rfl

/-- The fields of an envelope after its kind. -/
def encodeFields (env : Envelope) : Bytes :=
  field 4 env.topic ++ (leBytes 4 (uint32 env.partition) ++ (field 4 env.dedupeKey ++
    (leBytes 8 env.tsNs.toNat ++ (leBytes 8 env.visibleAtNs.toNat ++ (field 4 env.consumerID ++
      (leBytes 8 env.msgID.toNat ++ (field 4 env.payload ++
        leBytes 4 (uint32 env.partitions))))))))

/-- `Encode`. -/
def encode (env : Envelope) : Bytes :=
  envelopeVersion :: env.kind.toByte :: encodeFields env

/-- The fields of an envelope of a given kind, and the bytes after them; nothing when one of them
runs past the end. -/
def decodeFields (kind : Kind) (bs : Bytes) : Option (Envelope × Bytes) := do
  let (topic, bs) ← takeField 4 bs
  let (partition, bs) ← takeNat 4 bs
  let (dedupeKey, bs) ← takeField 4 bs
  let (tsNs, bs) ← takeNat 8 bs
  let (visibleAtNs, bs) ← takeNat 8 bs
  let (consumerID, bs) ← takeField 4 bs
  let (msgID, bs) ← takeNat 8 bs
  let (payload, bs) ← takeField 4 bs
  let (partitions, bs) ← takeNat 4 bs
  return (⟨kind, topic, int32 partition, dedupeKey, .ofNat tsNs, .ofNat visibleAtNs, consumerID,
    .ofNat msgID, payload, int32 partitions⟩, bs)

/-- `Decode`. -/
def decode (data : Bytes) : Except EnvelopeError Envelope :=
  if maxEnvelopeSize < data.length then .error .tooLarge
  else if data.length < 50 then .error .shortRead
  else
    match data with
    | version :: kind :: rest =>
      if version ≠ envelopeVersion then .error .badVersion
      else
        match Kind.ofByte kind with
        | none => .error .badKind
        | some kind =>
          match decodeFields kind rest with
          | none => .error .shortRead
          | some (env, []) => .ok env
          | some (_, _ :: _) => .error .trailingGarbage
    -- Not reached: the string has at least 50 bytes.
    | _ => .error .shortRead

/-! ## The round trip -/

theorem length_encode (env : Envelope) :
    (encode env).length = 50 + env.topic.length + env.dedupeKey.length + env.consumerID.length +
      env.payload.length := by
  simp only [encode, encodeFields, length_cons, length_append, length_field,
    length_leBytes]
  omega

/-- An envelope as the broker builds it: its numbers are of 32 bits, and it is within the size
that `Decode` accepts. -/
structure Envelope.Sendable (env : Envelope) : Prop where
  partition : IsInt32 env.partition
  partitions : IsInt32 env.partitions
  size : (encode env).length ≤ maxEnvelopeSize

variable {env : Envelope} {kind : Kind} {rest data : Bytes}

theorem decodeFields_append (h : env.Sendable) (rest : Bytes) :
    decodeFields env.kind (encodeFields env ++ rest) = some (env, rest) := by
  have hsize := h.size
  rw [length_encode] at hsize
  unfold maxEnvelopeSize at hsize
  have hwide : 4 * 2 ^ 20 < 256 ^ 4 := by decide
  have htopic : env.topic.length < 256 ^ 4 := by omega
  have hkey : env.dedupeKey.length < 256 ^ 4 := by omega
  have hconsumer : env.consumerID.length < 256 ^ 4 := by omega
  have hpayload : env.payload.length < 256 ^ 4 := by omega
  have hword (v : UInt64) : UInt64.ofNat (v.toNat % 256 ^ 8) = v := by
    have hv : v.toNat < 256 ^ 8 := v.toNat_lt
    rw [Nat.mod_eq_of_lt hv, UInt64.ofNat_toNat]
  have hint (v : ℤ) (hv : IsInt32 v) : int32 ((uint32 v % 256 ^ 4 : ℕ) : ℤ) = v := by
    rw [Nat.mod_eq_of_lt (uint32_lt v), int32_uint32 hv]
  unfold decodeFields encodeFields
  simp only [append_assoc]
  -- Each field is read from the front of what the fields before it have left.
  refine bind_eq_some_iff.mpr ⟨_, takeField_append htopic _, ?_⟩
  refine bind_eq_some_iff.mpr ⟨_, takeNat_append _ _ _, ?_⟩
  refine bind_eq_some_iff.mpr ⟨_, takeField_append hkey _, ?_⟩
  refine bind_eq_some_iff.mpr ⟨_, takeNat_append _ _ _, ?_⟩
  refine bind_eq_some_iff.mpr ⟨_, takeNat_append _ _ _, ?_⟩
  refine bind_eq_some_iff.mpr ⟨_, takeField_append hconsumer _, ?_⟩
  refine bind_eq_some_iff.mpr ⟨_, takeNat_append _ _ _, ?_⟩
  refine bind_eq_some_iff.mpr ⟨_, takeField_append hpayload _, ?_⟩
  refine bind_eq_some_iff.mpr ⟨_, takeNat_append _ _ _, ?_⟩
  simp only [Option.pure_def, hword, hint _ h.partition, hint _ h.partitions]

/-- An envelope that fits the wire is read back. -/
theorem decode_encode (h : env.Sendable) : decode (encode env) = .ok env := by
  have hlow : ¬ (encode env).length < 50 := by
    rw [length_encode]
    omega
  unfold decode
  rw [if_neg (Nat.not_lt.mpr h.size), if_neg hlow]
  unfold encode
  dsimp only
  rw [if_neg (fun hne => hne rfl), Kind.ofByte_toByte]
  dsimp only
  have hread := decodeFields_append h []
  rw [append_nil] at hread
  rw [hread]

/-! ## What is accepted

`Decode` accepts nothing but encodings: each field that it reads stood on the wire as `Encode`
writes it. -/

theorem Kind.toByte_of_ofByte {b : UInt8} (h : Kind.ofByte b = some kind) : kind.toByte = b := by
  apply UInt8.toNat_inj.mp
  unfold Kind.ofByte at h
  split at h
  case h_5 => cases h
  all_goals
    cases h
    exact Eq.symm ‹_›

theorem uint32_int32 {v : ℕ} (h : v < 256 ^ 4) : uint32 (int32 v) = v := by
  unfold int32 uint32
  omega

theorem of_decodeFields {bs : Bytes} (h : decodeFields kind bs = some (env, rest)) :
    env.kind = kind ∧ bs = encodeFields env ++ rest ∧ IsInt32 env.partition ∧
      IsInt32 env.partitions := by
  have hword {v : ℕ} (hv : v < 256 ^ 8) : (UInt64.ofNat v).toNat = v := by
    rw [UInt64.toNat_ofNat', Nat.mod_eq_of_lt (by omega)]
  -- The reads one after the other, each from what the one before has left.
  obtain ⟨⟨topic, bs₁⟩, htopic, h⟩ := bind_eq_some_iff.mp h
  obtain ⟨⟨partition, bs₂⟩, hpartition, h⟩ := bind_eq_some_iff.mp h
  obtain ⟨⟨dedupeKey, bs₃⟩, hdedupeKey, h⟩ := bind_eq_some_iff.mp h
  obtain ⟨⟨tsNs, bs₄⟩, htsNs, h⟩ := bind_eq_some_iff.mp h
  obtain ⟨⟨visibleAtNs, bs₅⟩, hvisibleAtNs, h⟩ := bind_eq_some_iff.mp h
  obtain ⟨⟨consumerID, bs₆⟩, hconsumerID, h⟩ := bind_eq_some_iff.mp h
  obtain ⟨⟨msgID, bs₇⟩, hmsgID, h⟩ := bind_eq_some_iff.mp h
  obtain ⟨⟨payload, bs₈⟩, hpayload, h⟩ := bind_eq_some_iff.mp h
  obtain ⟨⟨partitions, bs₉⟩, hpartitions, h⟩ := bind_eq_some_iff.mp h
  obtain ⟨rfl, rfl⟩ := Prod.mk.inj (Option.some.inj h)
  refine ⟨rfl, ?_, isInt32_int32 _, isInt32_int32 _⟩
  have hpartition := of_takeNat hpartition
  have htsNs := of_takeNat htsNs
  have hvisibleAtNs := of_takeNat hvisibleAtNs
  have hmsgID := of_takeNat hmsgID
  have hpartitions := of_takeNat hpartitions
  unfold encodeFields
  rw [uint32_int32 hpartition.2, uint32_int32 hpartitions.2, hword htsNs.2, hword hvisibleAtNs.2,
    hword hmsgID.2]
  simp only [append_assoc]
  rw [← hpartitions.1, ← of_takeField hpayload, ← hmsgID.1, ← of_takeField hconsumerID,
    ← hvisibleAtNs.1, ← htsNs.1, ← of_takeField hdedupeKey, ← hpartition.1, ← of_takeField htopic]

/-- A string that is accepted is the encoding of what is read. -/
theorem of_decode (h : decode data = .ok env) : encode env = data ∧ env.Sendable := by
  unfold decode at h
  split_ifs at h with hlarge hshort
  split at h
  next version kind rest =>
    split_ifs at h with hversion
    split at h
    next => cases h
    next kind' hkind =>
      split at h
      next => cases h
      next env' hfields =>
        cases h
        obtain ⟨rfl, hrest, hpartition, hpartitions⟩ := of_decodeFields hfields
        rw [append_nil] at hrest
        have hencode : encode env = version :: kind :: rest := by
          rw [encode, Kind.toByte_of_ofByte hkind, ← hrest, not_not.mp hversion]
        exact ⟨hencode, hpartition, hpartitions, by rw [hencode]; omega⟩
      next => cases h
  next => cases h

/-- Of two strings that are accepted, neither goes on behind the other. -/
theorem append_eq_nil_of_decode {env' : Envelope} (h : decode data = .ok env)
    (h' : decode (data ++ rest) = .ok env') : rest = [] := by
  obtain ⟨rfl, hsend⟩ := of_decode h
  obtain ⟨hdata, hsend'⟩ := of_decode h'
  have hbytes : encode env' = envelopeVersion :: env.kind.toByte :: (encodeFields env ++ rest) :=
    hdata
  rw [encode] at hbytes
  obtain ⟨hkind, hfields⟩ := List.cons.inj (List.cons.inj hbytes).2
  have hsame : env'.kind = env.kind := by
    rw [← some_inj, ← Kind.ofByte_toByte env'.kind, hkind, Kind.ofByte_toByte]
  -- Both envelopes are read from the same fields.
  have hread := decodeFields_append hsend' []
  rw [append_nil, hfields, hsame, decodeFields_append hsend rest] at hread
  exact (Prod.mk.inj (Option.some.inj hread)).2

/-- The codec is a bijection between the envelopes that fit the wire and the strings that are
accepted, and no accepted string is a proper part at the front of another. -/
theorem codec_bijective :
    (∀ env : Envelope, IsInt32 env.partition → IsInt32 env.partitions →
      (encode env).length ≤ maxEnvelopeSize → decode (encode env) = .ok env) ∧
    (∀ data env, decode data = .ok env → encode env = data) ∧
    ∀ data env, decode data = .ok env → ∀ other, other ≠ data → other <+: data ∨ data <+: other →
      ∀ env', decode other ≠ .ok env' := by
  refine ⟨fun env hpartition hpartitions hsize => decode_encode ⟨hpartition, hpartitions, hsize⟩,
    fun data env h => (of_decode h).1, ?_⟩
  intro data env h other hne hprefix env' h'
  rcases hprefix with ⟨rest, rfl⟩ | ⟨rest, rfl⟩
  · rw [append_eq_nil_of_decode h' h, append_nil] at hne
    exact hne rfl
  · rw [append_eq_nil_of_decode h h', append_nil] at hne
    exact hne rfl

/-- A nack for partition -1, which travels as the highest unsigned number. -/
theorem codec_bijective_negative :
    let env : Envelope := ⟨.nack, [116], -1, [], 0, 0, [99], 7, [], 0⟩
    (encode env).length ≤ maxEnvelopeSize ∧ decode (encode env) = .ok env := by
  have hsize : (encode ⟨.nack, [116], -1, [], 0, 0, [99], 7, [], 0⟩).length ≤ maxEnvelopeSize := by
    decide
  exact ⟨hsize, codec_bijective.1 _ (by decide) (by decide) hsize⟩

end ToyMQ.Replication
