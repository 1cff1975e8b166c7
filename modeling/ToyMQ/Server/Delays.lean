import ToyMQ.Replication.Shape
import ToyMQ.Server.Modes

/-!
# Delayed messages

A publish with a delay is stamped with the instant from which its message may be delivered, and a
delivery goroutine waits for that instant. Three steps of 64-bit arithmetic lie in between: the
delay in nanoseconds, its sum with the clock, and the duration of the timer, which is signed.

`Publishes` are the two ways into a log, inline and by a raft entry; both stamp the record alike
(`visibleAtNs_of_appended`). `handedFrom` is the earliest instant at which a goroutine hands out the
record when its clock shows `now`. The arithmetic is exact as long as publish instant and delay add
up to less than `2 ^ 63` nanoseconds, and from there on the message can go out early
(`delays_honoured_iff`).
-/

namespace ToyMQ.Server

open Lib Broker Replication
open Wal (Record)

/-! ## Waiting for the instant -/

/-- The conversion `time.Duration(v)`: the 64 bits of `v` read as a signed number. -/
def duration (v : UInt64) : ℤ := if v.toNat < 2 ^ 63 then v.toNat else (v.toNat : ℤ) - 2 ^ 64

/-- `awaitVisible`: the earliest instant at which it returns when its clock shows `now`. A timer
that is set to a duration which is not positive fires at once. -/
def awaitVisible (visibleAtNs : UInt64) (now : ℕ) : ℕ :=
  let nowNs := UInt64.ofNat now
  if visibleAtNs ≤ nowNs then now else now + (duration (visibleAtNs - nowNs)).toNat

/-- The earliest instant at which `runDelivery` hands out a record that it has read, when its clock
shows `now`. -/
def handedFrom (rec : Record) (now : ℕ) : ℕ :=
  if 0 < rec.visibleAtNs then awaitVisible rec.visibleAtNs now else now

/-- The record is not handed out before its delay is over, whatever the clock shows while it is
delivered. It is handed out at an instant after its publish. -/
def Honoured (publish delayMs : ℕ) (rec : Record) : Prop :=
  ∀ now t, now < 2 ^ 63 → handedFrom rec now ≤ t → publish ≤ t → publish + delayMs * 1000000 ≤ t

variable {visibleAtNs delayMs : UInt64} {rec : Record}

/-- While the instant lies in the range of the signed clock, the goroutine waits for it. -/
theorem awaitVisible_of_lt (h : visibleAtNs.toNat < 2 ^ 63) {now : ℕ} (hnow : now < 2 ^ 63) :
    awaitVisible visibleAtNs now = max now visibleAtNs.toNat := by
  have hclock : (UInt64.ofNat now).toNat = now := by
    rw [UInt64.toNat_ofNat', Nat.mod_eq_of_lt (by omega)]
  unfold awaitVisible
  by_cases hle : visibleAtNs ≤ UInt64.ofNat now
  · rw [if_pos hle]
    rw [UInt64.le_iff_toNat_le, hclock] at hle
    omega
  · rw [if_neg hle]
    rw [UInt64.le_iff_toNat_le, hclock] at hle
    have hsub : (visibleAtNs - UInt64.ofNat now).toNat = visibleAtNs.toNat - now := by
      rw [UInt64.toNat_sub_of_le _ _ (by rw [UInt64.le_iff_toNat_le, hclock]; omega), hclock]
    rw [duration, hsub, if_pos (by omega)]
    omega

theorem awaitVisible_zero_of_le (h : 2 ^ 63 ≤ visibleAtNs.toNat) :
    awaitVisible visibleAtNs 0 = 0 := by
  have hlt := visibleAtNs.toNat_lt
  have hzero : UInt64.ofNat 0 = 0 := rfl
  have hnot : ¬ visibleAtNs ≤ 0 := by
    rw [UInt64.le_iff_toNat_le]
    simp only [UInt64.toNat_zero]
    omega
  unfold awaitVisible
  rw [hzero, if_neg hnot, UInt64.sub_zero, duration, if_neg (by omega)]
  omega

/-! ## The stamp -/

theorem toNat_visibleAt {now : UInt64} (h : 0 < delayMs) :
    (visibleAt now delayMs).toNat = (now.toNat + delayMs.toNat * 1000000) % 2 ^ 64 := by
  rw [visibleAt, if_pos h, UInt64.toNat_add, UInt64.toNat_mul]
  change (now.toNat + delayMs.toNat * 1000000 % 2 ^ 64) % 2 ^ 64 = _
  rw [Nat.add_mod_mod]

/-- A stamp keeps its delay just when the instant of release is in the range of the clock. -/
theorem honoured_iff {publish : UInt64} (hpublish : publish.toNat < 2 ^ 63)
    (hrec : rec.visibleAtNs = visibleAt publish delayMs) :
    Honoured publish.toNat delayMs.toNat rec ↔
      publish.toNat + delayMs.toNat * 1000000 < 2 ^ 63 := by
  by_cases hzero : delayMs = 0
  · -- Without a delay there is nothing to wait for.
    rw [hzero]
    refine ⟨fun _ => ?_, fun _ now t _ _ hle => ?_⟩
    · simpa using hpublish
    · simpa using hle
  have hpos : 0 < delayMs := UInt64.pos_iff_ne_zero.mpr hzero
  have hdelay : 0 < delayMs.toNat := by simpa [UInt64.lt_iff_toNat_lt] using hpos
  have hstamp : rec.visibleAtNs.toNat = (publish.toNat + delayMs.toNat * 1000000) % 2 ^ 64 := by
    rw [hrec, toNat_visibleAt hpos]
  constructor
  · intro h
    by_contra hlarge
    -- A clock that shows the truncated instant, or the epoch, lets the message through.
    by_cases hlow : rec.visibleAtNs.toNat < 2 ^ 63
    · have hhanded : handedFrom rec rec.visibleAtNs.toNat = rec.visibleAtNs.toNat := by
        rw [handedFrom, awaitVisible_of_lt hlow hlow, Nat.max_self, ite_self]
      have := h rec.visibleAtNs.toNat (max publish.toNat rec.visibleAtNs.toNat) hlow
        (by rw [hhanded]; omega) (by omega)
      omega
    · have hhanded : handedFrom rec 0 = 0 := by
        rw [handedFrom, awaitVisible_zero_of_le (by omega), ite_self]
      have := h 0 publish.toNat (by omega) (by omega) le_rfl
      omega
  · intro hsmall now t hnow hhanded _
    rw [Nat.mod_eq_of_lt (by omega)] at hstamp
    have hvisible : 0 < rec.visibleAtNs := by
      rw [UInt64.lt_iff_toNat_lt, UInt64.toNat_zero]
      omega
    rw [handedFrom, if_pos hvisible, awaitVisible_of_lt (by omega) hnow] at hhanded
    omega

/-! ## The two paths -/

/-- A publish with the clock at `clock` turns a broker `n` into `n'`. On the replicated path `n` is
any node that applies the entry, and the clock is that of the leader. -/
inductive Publishes (clock : UInt64) (c : PubCommand) : Node → Node → Prop where
  | standalone {n : Node} (hclock : n.clock = clock) :
    Publishes clock c n (publishCtx n c.topic c.dedupeKey c.routingKey c.partition c.partitionSet
      c.payload c.delayMs).1
  | replicated (n : Node) (partition : ℕ) (index : UInt64) {env : Envelope}
    (hdecode : decode (encode (publishEnvelope clock c partition)) = .ok env) :
    Publishes clock c n (apply n ⟨index, env⟩).node

/-- A record is in a log of `n'` and was not there in `n`. -/
def Appended (n n' : Node) (rec : Record) : Prop :=
  ∃ topic i p', n'.partition? topic i = some p' ∧ rec ∈ p'.log ∧
    ∀ p, n.partition? topic i = some p → rec ∉ p.log

/-- Every record of a partition was in the broker `n`, or it has this stamp. -/
def OldOr (n : Node) (stamp : UInt64) (topic : Bytes) (i : ℕ) (p : Partition) : Prop :=
  ∀ rec ∈ p.log, (∃ q, n.partition? topic i = some q ∧ rec ∈ q.log) ∨ rec.visibleAtNs = stamp

theorem oldOr_refl (n : Node) (stamp : UInt64) : n.Each (OldOr n stamp) :=
  fun _ _ p hp _ hrec => .inl ⟨p, hp, hrec⟩

theorem oldOr_openPartition (n : Node) (stamp : UInt64) (cfg : Config) (topic : Bytes) (i : ℕ) :
    OldOr n stamp topic i cfg.openPartition :=
  fun _ hrec => absurd hrec List.not_mem_nil

variable {n m n' : Node} {clock : UInt64} {c : PubCommand}

theorem OldOr.applyPublish {stamp : UInt64} {topic : Bytes} {i : ℕ} {p : Partition}
    (h : OldOr n stamp topic i p) (tsNs raftIndex : UInt64) (dedupeKey payload : Bytes) :
    OldOr n stamp topic i (p.applyPublish tsNs stamp raftIndex dedupeKey payload).1 := by
  rcases p.applyPublish_cases tsNs stamp raftIndex dedupeKey payload with
    ⟨id, -, -, hres⟩ | ⟨-, hres⟩
  · rw [hres]
    exact h
  · dsimp only at hres
    split_ifs at hres
    · rw [hres]
      intro rec hrec
      rcases List.mem_append.mp hrec with hold | hnew
      · exact h rec hold
      · rw [List.mem_singleton.mp hnew]
        exact .inr rfl
    · rw [hres]
      exact h

theorem oldOr_applyPublish {stamp : UInt64} (h : m.Each (OldOr n stamp)) (topic : Bytes)
    (partition : ℤ) (tsNs raftIndex : UInt64) (dedupeKey payload : Bytes) :
    (m.applyPublish topic partition tsNs stamp raftIndex dedupeKey payload).1.Each
      (OldOr n stamp) := by
  have hopen : (m.getOrCreateTopic topic).1.Each (OldOr n stamp) :=
    h.getOrCreateTopic fun i => oldOr_openPartition n stamp m.config topic i
  refine Node.applyPublish_induction (P := fun m' => m'.Each (OldOr n stamp)) h hopen ?_
  intro p hp
  exact hopen.setPartition hp ((hopen _ _ p hp).applyPublish tsNs raftIndex dedupeKey payload)

theorem oldOr_localRoute {stamp : UInt64} (h : m.Each (OldOr n stamp)) (topic : Bytes)
    (partition : ℤ) (explicit : Bool) (routingKey : Bytes) :
    (localRoute m topic partition explicit routingKey).1.Each (OldOr n stamp) := by
  intro t i p hp
  rw [partition?_localRoute] at hp
  exact h.getOrCreateTopic (fun i => oldOr_openPartition n stamp m.config topic i) t i p hp

theorem clock_localRoute (n : Node) (topic : Bytes) (partition : ℤ) (explicit : Bool)
    (routingKey : Bytes) :
    (localRoute n topic partition explicit routingKey).1.clock = n.clock := by
  unfold localRoute Node.getOrCreateTopic
  split <;> rfl

theorem publishEnvelope_of_decode {partition : ℕ} {env : Envelope}
    (h : decode (encode (publishEnvelope clock c partition)) = .ok env) :
    env = publishEnvelope clock c partition := by
  obtain ⟨hsame, -, -, hsize⟩ := of_decode h
  rw [hsame] at hsize
  have hsend : (publishEnvelope clock c partition).Sendable :=
    ⟨isInt32_int32 _, (by decide : IsInt32 0), hsize⟩
  rw [decode_encode hsend] at h
  exact (Except.ok.inj h).symm

/-- On both paths a publish adds at most a record that is stamped with its release. -/
theorem Publishes.oldOr (h : Publishes clock c n n') :
    n'.Each (OldOr n (visibleAt clock c.delayMs)) := by
  cases h with
  | standalone hclock =>
    unfold publishCtx
    have hroute := oldOr_localRoute (oldOr_refl n (visibleAt clock c.delayMs)) c.topic c.partition
      c.partitionSet c.routingKey
    have hsame := clock_localRoute n c.topic c.partition c.partitionSet c.routingKey
    split
    next m e heq =>
      rw [heq] at hroute
      exact hroute
    next m i heq =>
      rw [heq] at hroute hsame
      rw [hsame, hclock]
      exact oldOr_applyPublish hroute c.topic i clock 0 c.dedupeKey c.payload
  | replicated partition index hdecode =>
    rw [publishEnvelope_of_decode hdecode]
    exact oldOr_applyPublish (oldOr_refl n _) c.topic _ clock index c.dedupeKey c.payload

theorem visibleAtNs_of_appended (h : Publishes clock c n n') (hrec : Appended n n' rec) :
    rec.visibleAtNs = visibleAt clock c.delayMs := by
  obtain ⟨topic, i, p', hp', hmem, hnew⟩ := hrec
  rcases h.oldOr topic i p' hp' rec hmem with ⟨p, hp, hold⟩ | hstamp
  · exact absurd hold (hnew p hp)
  · exact hstamp

/-- On both paths, a message is held back until publish instant and delay are over, whatever the
clocks of its deliveries show, just when the two add up to less than `2 ^ 63` nanoseconds. -/
theorem delays_honoured_iff {clock : UInt64} (hclock : clock.toNat < 2 ^ 63) {c : PubCommand}
    {n n' : Node} (h : Publishes clock c n n') {rec : Record} (hrec : Appended n n' rec) :
    Honoured clock.toNat c.delayMs.toNat rec ↔
      clock.toNat + c.delayMs.toNat * 1000000 < 2 ^ 63 :=
  honoured_iff hclock (visibleAtNs_of_appended h hrec)

/-- A broker in November 2023. -/
def clockedNode : Node := { Node.new ⟨16, 1, 8, 0⟩ with clock := 1700000000000000000 }

/-- A publish of one byte with a delay. -/
def delayedPub (delayMs : UInt64) : PubCommand :=
  ⟨[116], [], [], 0, false, [109], delayMs, 0, 0⟩

/-- The broker after that publish. -/
def delayedNode (delayMs : UInt64) : Node :=
  (publishCtx clockedNode [116] [] [] 0 false [109] delayMs).1

/-- What the publish appends. -/
theorem appended_delayedNode (delayMs : UInt64) :
    Appended clockedNode (delayedNode delayMs)
      ⟨0, clockedNode.clock, [], [109], visibleAt clockedNode.clock delayMs, 0⟩ := by
  refine ⟨[116], 0, _, rfl, List.mem_singleton_self _, fun p hp => ?_⟩
  cases hp

/-- A delay of ten minutes is kept. -/
theorem delays_honoured_iff_minutes :
    Honoured clockedNode.clock.toNat 600000
      ⟨0, clockedNode.clock, [], [109], visibleAt clockedNode.clock 600000, 0⟩ :=
  (delays_honoured_iff (by decide) (c := delayedPub 600000) (.standalone rfl)
    (appended_delayedNode 600000)).mpr (by decide)

/-- The shortest delay of more than `2 ^ 63` nanoseconds, which is about 292 years. The goroutine
that reads the record at the instant of its publish hands it out at once. -/
theorem delay_overflows :
    Publishes clockedNode.clock (delayedPub 9223372036855) clockedNode
      (delayedNode 9223372036855) ∧
    ∃ rec, Appended clockedNode (delayedNode 9223372036855) rec ∧
      handedFrom rec clockedNode.clock.toNat = clockedNode.clock.toNat ∧
      ¬ Honoured clockedNode.clock.toNat 9223372036855 rec := by
  refine ⟨.standalone rfl, _, appended_delayedNode _, by decide +kernel, fun h => ?_⟩
  have hearly := h clockedNode.clock.toNat clockedNode.clock.toNat (by decide) (by decide +kernel)
    le_rfl
  exact absurd hearly (by decide)

end ToyMQ.Server
