import Mathlib.Data.Finset.Card
import Mathlib.Data.Finset.Sort
import Mathlib.Data.List.AList
import ToyMQ.Lib.Bytes

/-!
# Consumers

A consumer of a partition keeps two things: the offsets that are persisted, and the messages that
were delivered to it and are not acknowledged yet. The offsets are a low-water mark with the ids
acknowledged above it. `Offsets.covers_ack` is the contract of an ack: whatever the order of the
acks, it adds exactly its own id to the ids that the offsets record as acknowledged.

The in-flight map decides the rest. Only an id in it can be acked or nacked, and a nack either
counts one more attempt or, when a dead-letter threshold is set and reached, kills the message.
Ids are natural numbers here and 64-bit in the source; the log assigns none that would make
`lastAcked + 1` wrap around.
-/

namespace ToyMQ.Broker

open Lib List

/-- The errors of the broker's operations. -/
inductive BrokerError where
  /-- An ack of a message that is not in flight for the consumer. -/
  | ackNotInflight (msgID : ℕ) (consumerID : Bytes)
  /-- A nack of a message that is not in flight for the consumer. -/
  | nackNotInflight (msgID : ℕ) (consumerID : Bytes)
  /-- There is no such partition in a topic with `count` of them. -/
  | partitionRange (partition : ℤ) (count : ℕ)
  /-- The topic exists with another partition count. -/
  | topicExists (count : ℕ) (want : ℤ)
  /-- A topic cannot be created with fewer than one partition. -/
  | badPartitions (got : ℤ)
  /-- The record does not fit a frame of the log. -/
  | tooLarge
deriving DecidableEq, Repr

/-! ## Offsets -/

/-- `consumerOffsets`, the durable state of a consumer. `hasAcked` tells a consumer that acked
id 0 from one that never acked. -/
structure Offsets where
  hasAcked : Bool
  lastAcked : ℕ
  aboveLast : Finset ℕ
deriving DecidableEq

def Offsets.new : Offsets := ⟨false, 0, ∅⟩

/-- The loop of `Ack` over `aboveLast`, for at most `fuel` turns. -/
def drain : ℕ → ℕ → Finset ℕ → ℕ × Finset ℕ
  | 0, last, above => (last, above)
  | fuel + 1, last, above =>
    if last + 1 ∈ above then drain fuel (last + 1) (above.erase (last + 1)) else (last, above)

/-- The part of `Ack` that updates the offsets. Each turn of the loop takes an id out of
`aboveLast`, so that its size bounds the number of turns. -/
def Offsets.ack (o : Offsets) (msgID : ℕ) : Offsets :=
  if (!o.hasAcked && msgID == 0) || (o.hasAcked && msgID == o.lastAcked + 1) then
    let drained := drain o.aboveLast.card msgID o.aboveLast
    ⟨true, drained.1, drained.2⟩
  else if !o.hasAcked || o.lastAcked + 1 < msgID then
    { o with aboveLast := insert msgID o.aboveLast }
  else o

/-- The ids that the offsets record as acknowledged. -/
def Offsets.Covers (o : Offsets) (k : ℕ) : Prop :=
  (o.hasAcked = true ∧ k ≤ o.lastAcked) ∨ k ∈ o.aboveLast

/-- `consumerStartID` for the retained floor `floor`: the id where delivery begins, or nothing
when it has been dropped. -/
def Offsets.startID (o : Offsets) (floor : ℕ) : Option ℕ :=
  if !o.hasAcked then some floor
  else if o.lastAcked + 1 < floor then none
  else some (o.lastAcked + 1)

variable {fuel last : ℕ} {above : Finset ℕ}

theorem drain_stops (h : above.card ≤ fuel) :
    (drain fuel last above).1 + 1 ∉ (drain fuel last above).2 := by
  induction fuel generalizing last above with
  | zero =>
    rw [Finset.card_eq_zero.mp (Nat.le_zero.mp h)]
    exact Finset.notMem_empty _
  | succ fuel ih =>
    rw [drain]
    split_ifs with hmem
    · apply ih
      rw [Finset.card_erase_of_mem hmem]
      omega
    · exact hmem

/-- The loop moves ids from the set below the mark, and loses none. -/
theorem drain_covers (fuel last : ℕ) (above : Finset ℕ) (k : ℕ) :
    (k ≤ (drain fuel last above).1 ∨ k ∈ (drain fuel last above).2) ↔
      (k ≤ last ∨ k ∈ above) := by
  induction fuel generalizing last above with
  | zero => exact Iff.rfl
  | succ fuel ih =>
    rw [drain]
    split_ifs with hmem
    · rw [ih, Finset.mem_erase]
      by_cases hk : k = last + 1
      · simp [hk, hmem]
      · constructor <;> rintro (hle | hin)
        · exact .inl (by omega)
        · exact .inr hin.2
        · exact .inl (by omega)
        · exact .inr ⟨hk, hin⟩
    · exact Iff.rfl

theorem Offsets.covers_ack (o : Offsets) (msgID k : ℕ) :
    (o.ack msgID).Covers k ↔ o.Covers k ∨ k = msgID := by
  obtain ⟨hasAcked, lastAcked, aboveLast⟩ := o
  unfold Offsets.ack Offsets.Covers
  split_ifs with hnext habove
  · -- The id follows the mark: everything up to it is acknowledged, then the loop runs.
    rw [eq_self_iff_true, true_and, drain_covers]
    rcases Bool.eq_false_or_eq_true hasAcked with rfl | rfl
    · simp only [Bool.not_true, Bool.false_and, Bool.true_and, Bool.false_or, beq_iff_eq] at hnext
      simp only [true_and]
      constructor
      · rintro (hle | hin)
        · by_cases hk : k = msgID
          · exact .inr hk
          · exact .inl (.inl (by omega))
        · exact .inl (.inr hin)
      · rintro ((hle | hin) | rfl)
        · exact .inl (by omega)
        · exact .inr hin
        · exact .inl le_rfl
    · simp only [Bool.not_false, Bool.true_and, Bool.false_and, Bool.or_false, beq_iff_eq] at hnext
      subst hnext
      simp only [Bool.false_eq_true, false_and, false_or, Nat.le_zero]
      exact or_comm
  · -- The id leaves a gap to the mark and is kept aside.
    rw [Finset.mem_insert]
    tauto
  · -- The id is at or below the mark.
    simp only [Bool.or_eq_true, decide_eq_true_eq, not_or, Bool.not_eq_true',
      Bool.not_eq_false, not_lt] at habove
    obtain ⟨rfl, hle⟩ := habove
    simp only [Bool.not_true, Bool.false_and, Bool.true_and, Bool.false_or, beq_iff_eq] at hnext
    have hbelow : msgID ≤ lastAcked := by omega
    constructor
    · exact .inl
    · rintro (hcov | rfl)
      · exact hcov
      · exact .inl ⟨rfl, hbelow⟩

/-! ## Ids above the mark

An id is kept above the mark only while one before it is missing, so that the offsets of a consumer
that acknowledged a whole range are the mark alone. -/

/-- The id that moves the mark: the one after it, or 0 when nothing was acknowledged. -/
def Offsets.next (o : Offsets) : ℕ := if o.hasAcked then o.lastAcked + 1 else 0

/-- The ids above the mark are not next to it. -/
def Offsets.Gapped (o : Offsets) : Prop := ∀ k ∈ o.aboveLast, o.next < k

theorem Offsets.gapped_new : Offsets.new.Gapped := fun k hk => absurd hk (Finset.notMem_empty k)

theorem Offsets.covers_iff (o : Offsets) (k : ℕ) : o.Covers k ↔ k < o.next ∨ k ∈ o.aboveLast := by
  unfold Offsets.Covers Offsets.next
  refine or_congr_left ?_
  cases o.hasAcked with
  | false => simp
  | true =>
    rw [if_pos rfl, and_iff_right rfl]
    exact Nat.lt_succ_iff.symm

/-- The condition under which `Ack` moves the mark. -/
theorem Offsets.moves_iff (o : Offsets) (msgID : ℕ) :
    ((!o.hasAcked && msgID == 0) || (o.hasAcked && msgID == o.lastAcked + 1)) = true ↔
      msgID = o.next := by
  unfold Offsets.next
  cases o.hasAcked <;> simp

/-- The loop of `Ack` takes ids from the bottom of the set. -/
theorem drain_below (h : ∀ k ∈ above, last < k) :
    ∀ k ∈ (drain fuel last above).2, (drain fuel last above).1 < k := by
  induction fuel generalizing last above with
  | zero => exact h
  | succ fuel ih =>
    rw [drain]
    split_ifs with hmem
    · refine ih fun k hk => ?_
      obtain ⟨hne, hin⟩ := Finset.mem_erase.mp hk
      have hlt := h k hin
      omega
    · exact h

variable {o : Offsets} {k : ℕ}

theorem Offsets.Gapped.ack (h : o.Gapped) (msgID : ℕ) : (o.ack msgID).Gapped := by
  obtain ⟨hasAcked, lastAcked, aboveLast⟩ := o
  unfold Offsets.ack
  dsimp only
  split_ifs with hnext habove
  · -- The mark moves: the loop goes on until there is a gap.
    have hid := (Offsets.moves_iff ⟨hasAcked, lastAcked, aboveLast⟩ msgID).mp hnext
    intro k hk
    have hlt := drain_below (fun j hj => hid ▸ h j hj) k hk
    have hgap : (drain aboveLast.card msgID aboveLast).1 + 1 ∉
        (drain aboveLast.card msgID aboveLast).2 := drain_stops le_rfl
    have hne : k ≠ (drain aboveLast.card msgID aboveLast).1 + 1 := fun he => hgap (he ▸ hk)
    change (drain aboveLast.card msgID aboveLast).1 + 1 < k
    omega
  · intro k hk
    rcases Finset.mem_insert.mp hk with rfl | hk
    · cases hasAcked <;> simp [Offsets.next] at hnext habove ⊢ <;> omega
    · exact h k hk
  · exact h

theorem Offsets.Gapped.eq_of_covers (h : o.Gapped) (hcovers : ∀ j, o.Covers j ↔ j ≤ k) :
    o.next = k + 1 ∧ o.aboveLast = ∅ := by
  have hnext : o.next = k + 1 := by
    -- The id after the mark is not recorded, and every id below it is.
    have hout : ¬ o.next ≤ k := fun hle => by
      rcases (o.covers_iff o.next).mp ((hcovers _).mpr hle) with hlt | hin
      · exact lt_irrefl _ hlt
      · exact lt_irrefl _ (h _ hin)
    have hin : ∀ j < o.next, j ≤ k := fun j hj =>
      (hcovers j).mp ((o.covers_iff j).mpr (.inl hj))
    by_contra hne
    have hle := hin (k + 1) (by omega)
    omega
  refine ⟨hnext, Finset.eq_empty_of_forall_notMem fun j hj => ?_⟩
  have hle := (hcovers j).mp (.inr hj)
  have hlt := h j hj
  omega

theorem le_drain (fuel last : ℕ) (above : Finset ℕ) : last ≤ (drain fuel last above).1 := by
  induction fuel generalizing last above with
  | zero => exact le_rfl
  | succ fuel ih =>
    rw [drain]
    split_ifs with hmem
    · exact (Nat.le_succ last).trans (ih _ _)
    · exact le_rfl

/-- An ack never moves the mark back. -/
theorem Offsets.next_le_ack (o : Offsets) (msgID : ℕ) : o.next ≤ (o.ack msgID).next := by
  obtain ⟨hasAcked, lastAcked, aboveLast⟩ := o
  unfold Offsets.ack
  split_ifs with hnext habove
  · rw [← (Offsets.moves_iff ⟨hasAcked, lastAcked, aboveLast⟩ msgID).mp hnext]
    exact (le_drain aboveLast.card msgID aboveLast).trans (Nat.le_succ _)
  · exact le_rfl
  · exact le_rfl

/-! ## The offsets file -/

/-- `consumerOffsets`: the entry of a consumer in `offsets.json`. -/
structure ConsumerOffsets where
  hasAcked : Bool
  lastAcked : ℕ
  aboveLast : List ℕ
deriving DecidableEq, Repr

/-- The entry that `snapshotOffsets` makes, with the ids above the mark in order. -/
def Offsets.snapshot (o : Offsets) : ConsumerOffsets :=
  ⟨o.hasAcked, o.lastAcked, o.aboveLast.sort (· ≤ ·)⟩

/-- What `loadOffsets` makes of an entry: it adds the ids to those that the consumer has above the
mark. -/
def Offsets.load (o : Offsets) (entry : ConsumerOffsets) : Offsets :=
  ⟨entry.hasAcked, entry.lastAcked, entry.aboveLast.foldl (fun above msgID => insert msgID above)
    o.aboveLast⟩

theorem foldl_insert_eq (l : List ℕ) (above : Finset ℕ) :
    l.foldl (fun above msgID => insert msgID above) above = above ∪ l.toFinset := by
  induction l generalizing above with
  | nil => simp
  | cons msgID l ih =>
    rw [foldl_cons, ih, toFinset_cons, Finset.insert_union, Finset.union_insert]

theorem Offsets.load_snapshot (o : Offsets) : Offsets.new.load o.snapshot = o := by
  unfold Offsets.load Offsets.snapshot
  rw [foldl_insert_eq, Finset.sort_toFinset, Offsets.new, Finset.empty_union]

/-! ## Messages in flight -/

/-- `Inflight`: a message that was delivered and is not acknowledged, by its id. -/
structure Inflight where
  payload : Bytes
  /-- How often it was delivered. -/
  attempts : ℕ
deriving DecidableEq, Repr

/-- `Consumer`. -/
structure Consumer where
  id : Bytes
  offsets : Offsets
  inflight : AList fun _ : ℕ => Inflight
  /-- The receive window: how many messages may be in flight. -/
  window : ℕ
  paused : Bool
  /-- Whether it has ever been subscribed; a subscription is replaced and never unset. -/
  subscribed : Bool
deriving DecidableEq

/-- `newConsumer`. -/
def Consumer.new (id : Bytes) (window : ℕ) : Consumer := ⟨id, .new, ∅, window, false, false⟩

/-- The condition of `awaitCredit`. -/
def Consumer.hasCredit (c : Consumer) : Bool :=
  !c.paused && c.inflight.keys.length < c.window

/-- `Ack`. -/
def Consumer.ack (c : Consumer) (msgID : ℕ) : Except BrokerError Consumer :=
  if msgID ∈ c.inflight then
    .ok { c with offsets := c.offsets.ack msgID, inflight := c.inflight.erase msgID }
  else .error (.ackNotInflight msgID c.id)

/-- What becomes of a message whose delivery failed. -/
inductive Verdict where
  | redeliver (inf : Inflight)
  | killed (inf : Inflight)
deriving DecidableEq, Repr

/-- A message is dead once it was delivered `threshold` times; a threshold of 0 never kills. -/
def Inflight.verdict (inf : Inflight) (threshold : ℕ) : Verdict :=
  if 0 < threshold ∧ threshold ≤ inf.attempts then .killed inf
  else .redeliver { inf with attempts := inf.attempts + 1 }

/-- The in-flight map after a verdict on one of its messages. -/
def Consumer.settle (c : Consumer) (msgID : ℕ) : Verdict → Consumer
  | .killed _ => { c with inflight := c.inflight.erase msgID }
  | .redeliver inf => { c with inflight := c.inflight.insert msgID inf }

/-- `nackOrKill`. -/
def Consumer.nackOrKill (c : Consumer) (msgID threshold : ℕ) :
    Except BrokerError (Consumer × Verdict) :=
  match c.inflight.lookup msgID with
  | none => .error (.nackNotInflight msgID c.id)
  | some inf => .ok (c.settle msgID (inf.verdict threshold), inf.verdict threshold)

/-- One turn of the loop of `collectExpired`, for a message whose deadline has passed. -/
def Consumer.expire (threshold : ℕ) (c : Consumer) (msgID : ℕ) : Consumer :=
  match c.inflight.lookup msgID with
  | none => c
  | some inf => c.settle msgID (inf.verdict threshold)

/-- `collectExpired`, for the messages whose deadlines have passed. A consumer that is paused or
was never subscribed is left alone. -/
def Consumer.collectExpired (c : Consumer) (threshold : ℕ) (expired : List ℕ) : Consumer :=
  if !c.subscribed || c.paused then c else expired.foldl (Consumer.expire threshold) c

/-- The tasks of `collectExpired`: the messages that it hands back for another delivery. -/
def Consumer.redeliveries (c : Consumer) (threshold : ℕ) (expired : List ℕ) :
    List (ℕ × Inflight) :=
  if !c.subscribed || c.paused then []
  else expired.filterMap fun msgID => (c.inflight.lookup msgID).bind fun inf =>
    match inf.verdict threshold with
    | .redeliver inf => some (msgID, inf)
    | .killed _ => none

/-- The part of `runDelivery` that registers a message it has read. -/
def Consumer.register (c : Consumer) (msgID : ℕ) (payload : Bytes) : Consumer :=
  { c with inflight := c.inflight.insert msgID ⟨payload, 1⟩ }

/-- The part of `runDelivery` that takes back a message it could not send. -/
def Consumer.rollback (c : Consumer) (msgID : ℕ) : Consumer :=
  { c with inflight := c.inflight.erase msgID }

/-! ## Without a dead-letter policy

With a threshold of 0 no failed delivery takes a message out of flight. -/

theorem Inflight.verdict_zero (inf : Inflight) :
    inf.verdict 0 = .redeliver { inf with attempts := inf.attempts + 1 } :=
  if_neg fun h => lt_irrefl 0 h.1

variable {c c' : Consumer} {msgID threshold : ℕ} {v : Verdict} {expired : List ℕ} {inf : Inflight}

theorem Consumer.mem_nackOrKill_zero (h : c.nackOrKill msgID 0 = .ok (c', v)) (k : ℕ) :
    k ∈ c'.inflight ↔ k ∈ c.inflight := by
  unfold Consumer.nackOrKill at h
  split at h
  · cases h
  next inf hinf =>
    have hmem : msgID ∈ c.inflight := AList.lookup_isSome.mp (by rw [hinf]; rfl)
    rw [inf.verdict_zero] at h
    cases h
    exact (AList.mem_insert _).trans (or_iff_right_of_imp fun hk => hk ▸ hmem)

theorem Consumer.mem_expire_zero (c : Consumer) (msgID k : ℕ) :
    k ∈ (c.expire 0 msgID).inflight ↔ k ∈ c.inflight := by
  unfold Consumer.expire
  split
  · exact Iff.rfl
  next inf hinf =>
    have hmem : msgID ∈ c.inflight := AList.lookup_isSome.mp (by rw [hinf]; rfl)
    rw [inf.verdict_zero]
    exact (AList.mem_insert _).trans (or_iff_right_of_imp fun hk => hk ▸ hmem)

theorem Consumer.mem_collectExpired_zero (c : Consumer) (expired : List ℕ) (k : ℕ) :
    k ∈ (c.collectExpired 0 expired).inflight ↔ k ∈ c.inflight := by
  unfold Consumer.collectExpired
  split_ifs with hidle
  · exact Iff.rfl
  · clear hidle
    induction expired generalizing c with
    | nil => exact Iff.rfl
    | cons msgID expired ih => rw [foldl_cons, ih, Consumer.mem_expire_zero]

/-! ## With a dead-letter policy

A failed delivery puts nothing new in flight. -/

theorem Consumer.mem_of_mem_settle (hmem : msgID ∈ c.inflight)
    (hk : k ∈ (c.settle msgID v).inflight) : k ∈ c.inflight := by
  cases v with
  | redeliver =>
    rcases (AList.mem_insert _).mp hk with rfl | hk
    · exact hmem
    · exact hk
  | killed => exact (AList.mem_erase.mp hk).2

theorem Consumer.mem_of_mem_nackOrKill (h : c.nackOrKill msgID threshold = .ok (c', v))
    (hk : k ∈ c'.inflight) : k ∈ c.inflight := by
  unfold Consumer.nackOrKill at h
  split at h
  · cases h
  next inf hinf =>
    cases h
    exact Consumer.mem_of_mem_settle (AList.lookup_isSome.mp (by rw [hinf]; rfl)) hk

theorem Consumer.mem_of_mem_expire (hk : k ∈ (c.expire threshold msgID).inflight) :
    k ∈ c.inflight := by
  unfold Consumer.expire at hk
  split at hk
  · exact hk
  next inf hinf =>
    exact Consumer.mem_of_mem_settle (AList.lookup_isSome.mp (by rw [hinf]; rfl)) hk

theorem Consumer.mem_of_mem_collectExpired
    (hk : k ∈ (c.collectExpired threshold expired).inflight) : k ∈ c.inflight := by
  unfold Consumer.collectExpired at hk
  split_ifs at hk with hidle
  · exact hk
  · clear hidle
    induction expired generalizing c with
    | nil => exact hk
    | cons msgID expired ih => exact Consumer.mem_of_mem_expire (ih hk)

/-! ## What a failed delivery leaves alone -/

theorem Consumer.lookup_settle_of_ne (c : Consumer) (v : Verdict) (hne : k ≠ msgID) :
    (c.settle msgID v).inflight.lookup k = c.inflight.lookup k := by
  cases v with
  | redeliver => exact AList.lookup_insert_ne hne
  | killed => exact AList.lookup_erase_ne hne

theorem Consumer.lookup_expire_of_ne (c : Consumer) (hne : k ≠ msgID) :
    (c.expire threshold msgID).inflight.lookup k = c.inflight.lookup k := by
  unfold Consumer.expire
  split
  · rfl
  · exact c.lookup_settle_of_ne _ hne

theorem Consumer.lookup_foldl_expire (c : Consumer) (hk : k ∉ expired) :
    (expired.foldl (Consumer.expire threshold) c).inflight.lookup k = c.inflight.lookup k := by
  induction expired generalizing c with
  | nil => rfl
  | cons msgID expired ih =>
    rw [mem_cons, not_or] at hk
    rw [foldl_cons, ih _ hk.2, c.lookup_expire_of_ne hk.1]

/-- A sweep changes nothing about the messages whose deadlines have not passed. -/
theorem Consumer.lookup_collectExpired (c : Consumer) (hk : k ∉ expired) :
    (c.collectExpired threshold expired).inflight.lookup k = c.inflight.lookup k := by
  unfold Consumer.collectExpired
  split_ifs
  · rfl
  · exact c.lookup_foldl_expire hk

/-- A nack changes nothing about other messages. -/
theorem Consumer.lookup_nackOrKill (h : c.nackOrKill msgID threshold = .ok (c', v))
    (hne : k ≠ msgID) : c'.inflight.lookup k = c.inflight.lookup k := by
  unfold Consumer.nackOrKill at h
  split at h
  · cases h
  · cases h
    exact c.lookup_settle_of_ne _ hne

/-- A message that a nack hands back stays in flight. -/
theorem Consumer.mem_nackOrKill_redeliver
    (h : c.nackOrKill msgID threshold = .ok (c', .redeliver inf)) : msgID ∈ c'.inflight := by
  unfold Consumer.nackOrKill at h
  split at h
  · cases h
  · obtain ⟨rfl, hverdict⟩ := Prod.mk.inj (Except.ok.inj h)
    rw [hverdict]
    exact (AList.mem_insert _).mpr (.inl rfl)

/-- What a verdict leaves in flight. -/
def Verdict.kept : Verdict → Option Inflight
  | .redeliver inf => some inf
  | .killed _ => none

theorem Consumer.lookup_settle_self (c : Consumer) (msgID : ℕ) (v : Verdict) :
    (c.settle msgID v).inflight.lookup msgID = v.kept := by
  cases v with
  | redeliver => exact AList.lookup_insert _
  | killed => exact AList.lookup_erase _ _

theorem Consumer.lookup_foldl_expire_of_mem (hnodup : expired.Nodup) (hk : k ∈ expired)
    (hinf : c.inflight.lookup k = some inf) :
    (expired.foldl (Consumer.expire threshold) c).inflight.lookup k =
      (inf.verdict threshold).kept := by
  induction expired generalizing c with
  | nil => cases hk
  | cons msgID expired ih =>
    obtain ⟨hnot, hrest⟩ := nodup_cons.mp hnodup
    rw [foldl_cons]
    by_cases hne : k = msgID
    · -- Its own turn decides, and it has no other.
      subst hne
      rw [Consumer.lookup_foldl_expire _ hnot, Consumer.expire, hinf]
      exact c.lookup_settle_self k _
    · refine ih hrest ((mem_cons.mp hk).resolve_left hne) ?_
      rw [c.lookup_expire_of_ne hne]
      exact hinf

/-- A message that a sweep hands back stays in flight. -/
theorem Consumer.mem_foldl_expire {inf' : Inflight} (hnodup : expired.Nodup) (hk : k ∈ expired)
    (hinf : c.inflight.lookup k = some inf) (hverdict : inf.verdict threshold = .redeliver inf') :
    k ∈ (expired.foldl (Consumer.expire threshold) c).inflight := by
  refine AList.lookup_isSome.mp ?_
  rw [Consumer.lookup_foldl_expire_of_mem hnodup hk hinf, hverdict]
  rfl

/-- The tasks of a sweep are messages whose deadlines have passed and that stay in flight. -/
theorem Consumer.mem_redeliveries {task : ℕ × Inflight} (hnodup : expired.Nodup)
    (h : task ∈ c.redeliveries threshold expired) :
    task.1 ∈ expired ∧ task.1 ∈ (c.collectExpired threshold expired).inflight := by
  unfold Consumer.redeliveries at h
  unfold Consumer.collectExpired
  split_ifs at h ⊢
  · cases h
  · obtain ⟨k, hk, htask⟩ := mem_filterMap.mp h
    obtain ⟨inf, hinf, hcase⟩ := Option.bind_eq_some_iff.mp htask
    split at hcase
    next inf' hverdict =>
      obtain rfl := Option.some.inj hcase
      exact ⟨hk, Consumer.mem_foldl_expire hnodup hk hinf hverdict⟩
    · cases hcase

/-- Each message is handed back at most once. -/
theorem Consumer.nodup_redeliveries (hnodup : expired.Nodup) :
    ((c.redeliveries threshold expired).map Prod.fst).Nodup := by
  unfold Consumer.redeliveries
  split_ifs
  · exact nodup_nil
  · refine List.Sublist.nodup ?_ hnodup
    clear hnodup
    induction expired with
    | nil => exact .slnil
    | cons msgID expired ih =>
      rw [filterMap_cons]
      split
      · exact ih.cons _
      next task htask =>
        obtain ⟨inf, -, hcase⟩ := Option.bind_eq_some_iff.mp htask
        split at hcase
        · obtain rfl := Option.some.inj hcase
          exact ih.cons_cons msgID
        · cases hcase

/-! ## A failed delivery changes only what is in flight -/

theorem Consumer.settle_eq (c : Consumer) (msgID : ℕ) (v : Verdict) :
    c.settle msgID v = { c with inflight := (c.settle msgID v).inflight } := by
  cases v <;> rfl

theorem Consumer.expire_eq (threshold : ℕ) (c : Consumer) (msgID : ℕ) :
    c.expire threshold msgID = { c with inflight := (c.expire threshold msgID).inflight } := by
  unfold Consumer.expire
  split
  · rfl
  · exact c.settle_eq _ _

theorem Consumer.collectExpired_eq (c : Consumer) (threshold : ℕ) (expired : List ℕ) :
    c.collectExpired threshold expired =
      { c with inflight := (c.collectExpired threshold expired).inflight } := by
  unfold Consumer.collectExpired
  split_ifs with hidle
  · rfl
  · clear hidle
    induction expired generalizing c with
    | nil => rfl
    | cons msgID expired ih =>
      rw [foldl_cons, ih, c.expire_eq]

theorem Consumer.nackOrKill_eq (h : c.nackOrKill msgID threshold = .ok (c', v)) :
    c' = { c with inflight := c'.inflight } := by
  unfold Consumer.nackOrKill at h
  split at h
  · cases h
  · cases h
    exact c.settle_eq _ _

@[simp]
theorem Consumer.offsets_collectExpired (c : Consumer) (threshold : ℕ) (expired : List ℕ) :
    (c.collectExpired threshold expired).offsets = c.offsets := by
  rw [c.collectExpired_eq]

theorem Consumer.offsets_nackOrKill (h : c.nackOrKill msgID threshold = .ok (c', v)) :
    c'.offsets = c.offsets := by
  rw [Consumer.nackOrKill_eq h]

end ToyMQ.Broker
