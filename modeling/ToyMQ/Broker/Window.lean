import ToyMQ.Broker.Feed

/-!
# The receive window of a consumer

While one subscription serves a consumer, a goroutine that has credit and has not registered its
record yet holds a slot of the window, so that no more than `window` messages are ever in flight.
Records left in flight by an earlier subscription count; reading one again takes no further slot.

`Feed.Serving` is the invariant, for a consumer whose earlier goroutines have ended.
`Serving.background` says what the goroutine and the log do by themselves: nothing leaves flight,
and no record behind the goroutine is sent (`Phase.MaySend`). `Serving.settled` is the same for
acks, nacks and sweeps. `receive_window_kept` is the bound for any number of overlapping
subscriptions, with the invariant `Delivery.Bounded`.
-/

namespace ToyMQ.Broker

open Lib List
open Wal (Record)

/-! ## Where the goroutine is -/

/-- The records that a goroutine may still put on the channel of its session. -/
def Phase.MaySend : Phase → ℕ → Prop
  | .swapped, _ | .waiting, _ | .spawned, _ | .starting _, _ => True
  | .credit pos, k | .reading pos, k => pos ≤ k
  | .holding _ rec, k => rec.msgID.toNat ≤ k
  | .sending _ msgID, k => msgID ≤ k
  | .exiting, _ | .done, _ => False

instance : (phase : Phase) → (k : ℕ) → Decidable (phase.MaySend k)
  | .swapped, _ | .waiting, _ | .spawned, _ | .starting _, _ => inferInstanceAs (Decidable True)
  | .credit pos, k | .reading pos, k => inferInstanceAs (Decidable (pos ≤ k))
  | .holding _ rec, k => inferInstanceAs (Decidable (rec.msgID.toNat ≤ k))
  | .sending _ msgID, k => inferInstanceAs (Decidable (msgID ≤ k))
  | .exiting, _ | .done, _ => inferInstanceAs (Decidable False)

/-- The slots of the window that a goroutine has credit for and has not used. -/
def Phase.reserved : Phase → ℕ
  | .reading _ | .holding _ _ => 1
  | _ => 0

/-- The record that the goroutine holds or sends is the last one that it has read. -/
def Phase.AtRecord (inflight : AList fun _ : ℕ => Inflight) (committed : ℕ) : Phase → Prop
  | .holding pos rec => pos = rec.msgID.toNat + 1 ∧ rec.msgID.toNat < committed
  | .sending pos msgID => pos = msgID + 1 ∧ msgID ∈ inflight
  | _ => True

namespace Feed

structure Serving (window : ℕ) (s : Feed) (phase : Phase) : Prop where
  log : s.delivery.log.Ok
  inflight_lt : ∀ k ∈ s.delivery.consumer.inflight, k < s.delivery.log.committed
  window_eq : s.delivery.consumer.window = window
  last : ∃ earlier, s.phases = earlier ++ [phase] ∧ ∀ ph ∈ earlier, ph = .done
  room : s.delivery.consumer.inflight.keys.length + phase.reserved ≤ window
  at_record : phase.AtRecord s.delivery.consumer.inflight s.delivery.log.committed

/-- An empty partition, with a goroutine that was just started for its first subscription. -/
def subscribed (id : Bytes) (window : ℕ) : Feed :=
  { Feed.new id window with
    delivery := { Delivery.new id window with
      consumer := { Consumer.new id window with subscribed := true }
      subs := [⟨.spawned, false⟩] } }

theorem serving_subscribed (id : Bytes) (window : ℕ) :
    (subscribed id window).Serving window .spawned :=
  ⟨Wal.LogSpec.ok_new, fun k hk => absurd hk (AList.notMem_empty k), rfl,
    ⟨[], rfl, fun _ hph => absurd hph not_mem_nil⟩, Nat.zero_le window, trivial⟩

/-- What happens to a feed while it is served and nothing is acked, nacked or swept. -/
def background : FeedAction → Bool
  | .deliver (.write _) | .deliver (.commit _) | .deliver (.advance _) | .deliver .flushOffsets
  | .drop _ | .fail _ => true
  | _ => false

/-- The messages that an ack, a nack or a sweep decides on. -/
def settles : DeliveryAction → Option (List ℕ)
  | .ack msgID | .nack msgID => some [msgID]
  | .sweep expired => some expired
  | _ => none

/-- What an ack, a nack or a sweep does: it takes messages out of flight, and only those that it
touches. -/
structure Settled (touched : List ℕ) (s s' : Feed) : Prop where
  phases : s'.phases = s.phases
  log : s'.delivery.log = s.delivery.log
  window : s'.delivery.consumer.window = s.delivery.consumer.window
  inflight : ∀ k ∈ s'.delivery.consumer.inflight, k ∈ s.delivery.consumer.inflight
  lookup : ∀ k ∉ touched, s'.delivery.consumer.inflight.lookup k =
    s.delivery.consumer.inflight.lookup k

variable {touched : List ℕ} {s s' : Feed}

/-- What is not touched stays in flight. -/
theorem Settled.mem (h : Settled touched s s') {k : ℕ} (hk : k ∉ touched)
    (hmem : k ∈ s.delivery.consumer.inflight) : k ∈ s'.delivery.consumer.inflight := by
  rw [← AList.lookup_isSome, h.lookup k hk]
  exact AList.lookup_isSome.mpr hmem

theorem Settled.of_step {threshold : ℕ} {a : DeliveryAction} (ha : settles a = some touched)
    (hstep : s.step threshold (.deliver a) = some s') : Settled touched s s' := by
  cases a with
  | ack =>
    cases ha
    obtain ⟨d, hd, rfl⟩ := Option.map_eq_some_iff.mp hstep
    dsimp only [Delivery.step] at hd
    split at hd
    · cases hd
      exact ⟨rfl, rfl, rfl, fun k hk => hk, fun k hk => rfl⟩
    next c hack =>
      -- Of the in-flight map, an ack that is accepted removes the one entry.
      cases hd
      unfold Consumer.ack at hack
      split_ifs at hack
      cases hack
      exact ⟨rfl, rfl, rfl, fun k hk => (AList.mem_erase.mp hk).2,
        fun k hk => AList.lookup_erase_ne (fun heq => hk (mem_singleton.mpr heq))⟩
  | nack =>
    cases ha
    cases hstep
    dsimp only [Consumer.failed]
    split
    · exact ⟨rfl, rfl, rfl, fun k hk => hk, fun k hk => rfl⟩
    next hnack =>
      exact ⟨rfl, rfl, by rw [Consumer.nackOrKill_eq hnack],
        fun k hk => Consumer.mem_of_mem_nackOrKill hnack hk,
        fun k hk => Consumer.lookup_nackOrKill hnack (fun heq => hk (mem_singleton.mpr heq))⟩
  | sweep =>
    cases ha
    cases hstep
    exact ⟨rfl, rfl, by dsimp only [Consumer.failed]; rw [Consumer.collectExpired_eq],
      fun k hk => Consumer.mem_of_mem_collectExpired hk,
      fun k hk => Consumer.lookup_collectExpired _ hk⟩
  | _ => cases ha

/-- Fewer messages are in flight when nothing new is. -/
theorem length_keys_le {a b : AList fun _ : ℕ => Inflight} (h : ∀ k ∈ a, k ∈ b) :
    a.keys.length ≤ b.keys.length :=
  (subperm_of_subset a.nodupKeys fun k hk =>
    AList.mem_keys.mp (h k (AList.mem_keys.mpr hk))).length_le

namespace Serving

variable {window threshold : ℕ} {s s' : Feed} {phase : Phase}

/-- No more is in flight than the window allows. -/
theorem inflight_le (h : s.Serving window phase) :
    s.delivery.consumer.inflight.keys.length ≤ window :=
  (Nat.le_add_right _ _).trans h.room

/-- The log numbers its records with 64 bits. -/
theorem lt_of_mem (h : s.Serving window phase) {k : ℕ} (hk : k ∈ s.delivery.consumer.inflight) :
    k < 2 ^ 64 := by
  have hlen : k < s.delivery.log.records.length :=
    (h.inflight_lt k hk).trans_le h.log.committed_le
  have hid := (h.log.numbered.msgID_eq (getElem?_eq_getElem hlen)).trans (Nat.zero_add k)
  rw [← hid]
  exact UInt64.toNat_lt _

variable {i : ℕ} {phase' : Phase}

/-- The goroutine that acts is the last one. -/
theorem eq_last (h : s.Serving window phase) {ph : Phase} (hi : s.phases[i]? = some ph)
    (hne : ph ≠ .done) :
    ph = phase ∧ ∀ ph', ∃ earlier, s.phases.set i ph' = earlier ++ [ph'] ∧
      ∀ p ∈ earlier, p = .done := by
  obtain ⟨earlier, hphases, hdone⟩ := h.last
  rw [hphases] at hi ⊢
  have hge : earlier.length ≤ i := by
    by_contra hlt
    rw [getElem?_append_left (Nat.lt_of_not_le hlt)] at hi
    exact hne (hdone ph (mem_of_getElem? hi))
  rw [getElem?_append_right hge] at hi
  obtain rfl := mem_singleton.mp (mem_of_getElem? hi)
  have hzero : i - earlier.length = 0 := by
    have hlt := (List.getElem?_eq_some_iff.mp hi).1
    rw [length_singleton] at hlt
    omega
  refine ⟨rfl, fun ph' => ⟨earlier, ?_, hdone⟩⟩
  rw [set_append_right _ _ hge, hzero]
  rfl

/-- The log grows, and the rest stays. -/
theorem of_log (h : s.Serving window phase)
    (hconsumer : s'.delivery.consumer.inflight = s.delivery.consumer.inflight)
    (hwindow : s'.delivery.consumer.window = s.delivery.consumer.window)
    (hphases : s'.phases = s.phases)
    (hlog : s'.delivery.log.Ok ∧ s.delivery.log.committed ≤ s'.delivery.log.committed) :
    s'.Serving window phase := by
  refine ⟨hlog.1, ?_, hwindow.trans h.window_eq, hphases ▸ h.last, hconsumer ▸ h.room, ?_⟩
  · intro k hk
    rw [hconsumer] at hk
    exact (h.inflight_lt k hk).trans_le hlog.2
  · rw [hconsumer]
    have hat := h.at_record
    cases phase with
    | holding => exact ⟨hat.1, hat.2.trans_le hlog.2⟩
    | _ => exact hat

theorem of_setPhase (h : s.Serving window phase) (hi : s.phases[i]? = some phase)
    (hne : phase ≠ .done)
    (hroom : s.delivery.consumer.inflight.keys.length + phase'.reserved ≤ window)
    (hat : phase'.AtRecord s.delivery.consumer.inflight s.delivery.log.committed) :
    Serving window { s with delivery := s.delivery.setPhase i phase' } phase' := by
  refine ⟨h.log, h.inflight_lt, h.window_eq, ?_, hroom, hat⟩
  have hphases : ({ s with delivery := s.delivery.setPhase i phase' } : Feed).phases =
      s.phases.set i phase' := s.delivery.phases_setPhase i phase'
  rw [hphases]
  exact (h.eq_last hi hne).2 phase'

theorem register {pos : ℕ} {rec : Record} (h : s.Serving window (.holding pos rec))
    (hi : s.phases[i]? = some (.holding pos rec)) :
    Serving window
      { s with
        delivery := { s.delivery with
          consumer := s.delivery.consumer.register rec.msgID.toNat rec.payload }.setPhase i
            (.sending pos rec.msgID.toNat) }
      (.sending pos rec.msgID.toNat) := by
  have hroom := h.room
  obtain ⟨hpos, hlt⟩ := h.at_record
  refine ⟨h.log, ?_, h.window_eq, ?_, ?_, hpos, (AList.mem_insert _).mpr (.inl rfl)⟩
  · intro k hk
    rcases (AList.mem_insert _).mp hk with rfl | hk
    · exact hlt
    · exact h.inflight_lt k hk
  · have hphases := Delivery.phases_setPhase { s.delivery with
      consumer := s.delivery.consumer.register rec.msgID.toNat rec.payload } i
        (.sending pos rec.msgID.toNat)
    obtain ⟨earlier, hset, hdone⟩ := (h.eq_last hi (by simp)).2 (.sending pos rec.msgID.toNat)
    exact ⟨earlier, hphases.trans hset, hdone⟩
  · have hkeys : (s.delivery.consumer.register rec.msgID.toNat rec.payload).inflight.keys.length ≤
        s.delivery.consumer.inflight.keys.length + 1 := by
      unfold Consumer.register
      rw [AList.keys_insert, length_cons]
      exact Nat.succ_le_succ length_erase_le
    exact hkeys.trans hroom

theorem goes (h : s.Serving window phase) (hi : s.phases[i]? = some phase)
    (hgoes : s.Goes phase phase') :
    (s.setPhase i phase').Serving window phase' ∧ ∀ k, phase'.MaySend k → phase.MaySend k := by
  have hne := hgoes.running.2
  cases hgoes with
  | opened => exact ⟨h.of_setPhase hi hne h.inflight_le trivial, fun k hk => trivial⟩
  | credit hcredit =>
    -- The credit is a free slot.
    have hslot : s.delivery.consumer.inflight.keys.length + 1 ≤ window := by
      unfold Consumer.hasCredit at hcredit
      rw [Bool.and_eq_true, decide_eq_true_eq, h.window_eq] at hcredit
      exact hcredit.2
    exact ⟨h.of_setPhase hi hne hslot trivial, fun k hk => hk⟩
  | @read pos rec hlt hrec =>
    have hid := (h.log.numbered.msgID_eq hrec).trans (Nat.zero_add pos)
    have hnext : (Phase.holding (pos + 1) rec).AtRecord s.delivery.consumer.inflight
        s.delivery.log.committed := ⟨by rw [hid], hid.symm ▸ hlt⟩
    refine ⟨h.of_setPhase hi hne h.room hnext, fun k hk => ?_⟩
    exact hid ▸ (show rec.msgID.toNat ≤ k from hk)
  | left | ended => exact ⟨h.of_setPhase hi hne h.inflight_le trivial, fun k hk => hk.elim⟩

/-- What happens beside acks, nacks and sweeps, until the goroutine sends. -/
theorem background (h : s.Serving window phase) {a : FeedAction} (ha : Feed.background a = true)
    (hsend : ∀ i pos msgID, a = .deliver (.advance i) →
      s.phases[i]? ≠ some (.sending pos msgID))
    (hstep : s.step threshold a = some s') :
    ∃ phase', s'.Serving window phase' ∧ (∀ k, phase'.MaySend k → phase.MaySend k) ∧
      ∀ k ∈ s.delivery.consumer.inflight, k ∈ s'.delivery.consumer.inflight := by
  cases rule_of_step hstep with
  | write hlog | commit hlog =>
    exact ⟨phase, h.of_log rfl rfl rfl (h.log.of_step hlog), fun k hk => hk, fun k hk => hk⟩
  | flushOffsets | drop =>
    exact ⟨phase, h.of_log rfl rfl rfl ⟨h.log, le_rfl⟩, fun k hk => hk, fun k hk => hk⟩
  -- Only the last goroutine can move, for all others have ended.
  | goes hactor hi hgoes =>
    obtain rfl := (h.eq_last hi hgoes.running.2).1
    obtain ⟨hserving, hsends⟩ := h.goes hi hgoes
    exact ⟨_, hserving, hsends, fun k hk => hk⟩
  | start hi =>
    obtain rfl := (h.eq_last hi (by simp)).1
    exact ⟨_, h.of_setPhase hi (by simp) h.inflight_le trivial, fun k hk => trivial, fun k hk => hk⟩
  | register hi =>
    obtain rfl := (h.eq_last hi (by simp)).1
    exact ⟨_, h.register hi, fun k hk => hk, fun k hk => (AList.mem_insert _).mpr (.inr hk)⟩
  | sent hi => exact absurd hi (hsend _ _ _ rfl)
  | subscribe | first | cancelPrev | prevDone | cancel | rollback | ack | ackRefused | nack | sweep
  | setPaused | restart => cases ha

/-- The goroutine has sent its record. -/
theorem sent {pos msgID : ℕ} (h : s.Serving window phase)
    (hi : s.phases[i]? = some (.sending pos msgID))
    (hstep : s.step threshold (.deliver (.advance i)) = some s') :
    phase = .sending pos msgID ∧ s'.Serving window (.credit pos) ∧
      s'.delivery.consumer = s.delivery.consumer := by
  obtain rfl := eq_of_sent hi hstep
  obtain rfl := (h.eq_last hi (by simp)).1
  exact ⟨rfl, h.of_setPhase hi (by simp) h.inflight_le trivial, rfl⟩

theorem settled (h : s.Serving window phase) {a : DeliveryAction} {touched : List ℕ}
    (ha : settles a = some touched) (hfree : ∀ k ∈ touched, ¬ phase.MaySend k)
    (hstep : s.step threshold (.deliver a) = some s') : s'.Serving window phase := by
  have hset := Settled.of_step ha hstep
  refine ⟨hset.log ▸ h.log, ?_, hset.window.trans h.window_eq, hset.phases ▸ h.last, ?_, ?_⟩
  · intro k hk
    rw [hset.log]
    exact h.inflight_lt k (hset.inflight k hk)
  · have hkeys := length_keys_le hset.inflight
    have hroom := h.room
    omega
  · have hat := h.at_record
    rw [hset.log]
    cases phase with
    | sending pos msgID =>
      -- What the goroutine sends is in flight, and nothing touches it.
      have hnot : msgID ∉ touched := fun hmem => hfree msgID hmem le_rfl
      exact ⟨hat.1, hset.mem hnot hat.2⟩
    | _ => exact hat

end Serving

end Feed

/-! ## Any number of subscriptions

Overlapping subscribes hand the window on. A goroutine starts when all those before it have ended
(`Chain`), so that at most one slot is held at a time; a goroutine that ends gives its slot back. -/

/-- The goroutine is past its start and has not ended. -/
def Phase.Running (phase : Phase) : Prop := phase.Started ∧ phase ≠ .done

/-- A goroutine that does not run holds no slot. -/
theorem Phase.reserved_of_idle {phase : Phase} (h : phase = .done ∨ ¬ phase.Started) :
    phase.reserved = 0 := by
  cases phase <;> first | rfl | simp [Phase.Started] at h

namespace Delivery

/-- A goroutine runs alone, and there is room for what is in flight and for the slot that a
goroutine holds. -/
structure Bounded (window : ℕ) (d : Delivery) : Prop where
  window_eq : d.consumer.window = window
  chain : Chain d.phases
  inflight_le : d.consumer.inflight.keys.length ≤ window
  room : ∀ phase ∈ d.phases, d.consumer.inflight.keys.length + phase.reserved ≤ window

theorem bounded_of_idle {window : ℕ} {d : Delivery} (hwindow : d.consumer.window = window)
    (hsubs : d.subs = []) (hinflight : d.consumer.inflight = ∅) : d.Bounded window := by
  have hphases : d.phases = [] := by rw [phases, hsubs, map_nil]
  refine ⟨hwindow, fun i j a b hi => ?_, ?_, fun phase hphase => ?_⟩
  · rw [hphases] at hi
    cases hi
  · rw [hinflight]
    exact Nat.zero_le window
  · rw [hphases] at hphase
    cases hphase

namespace Bounded

variable {window : ℕ} {d d' : Delivery}

/-- Nothing new is in flight, and no goroutine moves. -/
theorem of_shrink (h : d.Bounded window) (hphases : d'.phases = d.phases)
    (hwindow : d'.consumer.window = d.consumer.window)
    (hinflight : ∀ k ∈ d'.consumer.inflight, k ∈ d.consumer.inflight) : d'.Bounded window := by
  have hle := Feed.length_keys_le hinflight
  refine ⟨hwindow.trans h.window_eq, hphases ▸ h.chain, hle.trans h.inflight_le, ?_⟩
  intro phase hphase
  exact (Nat.add_le_add_right hle _).trans (h.room phase (hphases ▸ hphase))

variable {i : ℕ} {phase : Phase}

theorem setPhase (h : d.Bounded window) {a : Phase} (hi : d.phases[i]? = some a) (ha : a ≠ .done)
    (hstart : phase.Started → a.Started ∨
      ∀ (j : ℕ) (b : Phase), d.phases[j]? = some b → j < i → b = .done)
    (hroom : d.consumer.inflight.keys.length + phase.reserved ≤ window) :
    (d.setPhase i phase).Bounded window := by
  refine ⟨h.window_eq, ?_, h.inflight_le, ?_⟩
  · rw [phases_setPhase]
    exact h.chain.set hi ha hstart
  · intro b hb
    rw [phases_setPhase] at hb
    rcases mem_or_eq_of_mem_set hb with hmem | rfl
    · exact h.room b hmem
    · exact hroom

theorem register (h : d.Bounded window) {pos : ℕ} {rec : Record}
    (hi : d.phases[i]? = some (.holding pos rec)) :
    ({ d with consumer := d.consumer.register rec.msgID.toNat rec.payload }.setPhase i
      (.sending pos rec.msgID.toNat)).Bounded window := by
  have hslot := h.room _ (mem_of_getElem? hi)
  have hkeys : (d.consumer.register rec.msgID.toNat rec.payload).inflight.keys.length ≤
      d.consumer.inflight.keys.length + 1 := by
    unfold Consumer.register
    rw [AList.keys_insert, length_cons]
    exact Nat.succ_le_succ length_erase_le
  have hle := hkeys.trans hslot
  refine ⟨h.window_eq, ?_, hle, ?_⟩
  · rw [phases_setPhase]
    exact h.chain.set hi (by simp) fun _ => .inl trivial
  · intro b hb
    rw [phases_setPhase] at hb
    obtain ⟨j, hj⟩ := getElem?_of_mem hb
    rw [getElem?_set] at hj
    -- The others do not run next to this one, so that they hold no slot.
    have hfree : b.reserved = 0 := by
      split_ifs at hj with hij hlen
      · cases hj
        rfl
      · exact Phase.reserved_of_idle (h.chain.idle hi trivial (by simp) hj (Ne.symm hij))
    rw [hfree]
    exact hle

/-- A new subscription. -/
theorem subscribe (h : d.Bounded window) :
    ({ d with
      consumer := { d.consumer with subscribed := true }
      subs := d.subs ++ [⟨.swapped, false⟩] } : Delivery).Bounded window := by
  have hphases : (d.subs ++ [(⟨.swapped, false⟩ : Sub)]).map Sub.phase = d.phases ++ [.swapped] :=
    map_append
  refine ⟨h.window_eq, ?_, h.inflight_le, ?_⟩
  · unfold phases
    rw [hphases]
    exact h.chain.append_swapped
  · unfold phases
    rw [hphases]
    intro b hb
    rcases mem_append.mp hb with hb | hb
    · exact h.room b hb
    · rw [mem_singleton.mp hb]
      exact h.inflight_le

/-- Cancelling a context changes no phase. -/
theorem cancel (h : d.Bounded window) (i : ℕ) : (d.cancel i).Bounded window :=
  h.of_shrink (phases_cancel d i) rfl fun _ hk => hk

theorem goes {s : Feed} (h : s.delivery.Bounded window) {phase' : Phase}
    (hi : s.phases[i]? = some phase) (hgoes : s.Goes phase phase') :
    (s.setPhase i phase').delivery.Bounded window := by
  obtain ⟨hstarted, hne⟩ := hgoes.running
  refine h.setPhase hi hne (fun _ => .inl hstarted) ?_
  cases hgoes with
  | credit hcredit =>
    unfold Consumer.hasCredit at hcredit
    rw [Bool.and_eq_true, decide_eq_true_eq, h.window_eq] at hcredit
    exact hcredit.2
  | read =>
    have hslot := h.room _ (mem_of_getElem? hi)
    exact hslot
  | opened | left | ended => exact h.inflight_le

/-- A record is taken back, and the goroutine leaves. -/
theorem rollback (h : d.Bounded window) {pos msgID : ℕ}
    (hi : d.phases[i]? = some (.sending pos msgID)) :
    ({ d with consumer := d.consumer.rollback msgID }.setPhase i .exiting).Bounded window := by
  have hback : ({ d with consumer := d.consumer.rollback msgID } : Delivery).Bounded window :=
    h.of_shrink rfl rfl fun k hk => (AList.mem_erase.mp hk).2
  exact hback.setPhase hi (by simp) (fun _ => .inl trivial) hback.inflight_le

end Bounded

end Delivery

namespace Feed

variable {window threshold : ℕ} {s s' : Feed}

theorem bounded_of_step (h : s.delivery.Bounded window) {a : FeedAction}
    (hstep : s.step threshold a = some s') : s'.delivery.Bounded window := by
  cases rule_of_step hstep with
  | write | commit | setPaused | flushOffsets => exact h.of_shrink rfl rfl fun _ hk => hk
  | ackRefused | drop => exact h
  | subscribe => exact h.subscribe
  | first hi =>
    exact h.setPhase hi (by simp) (fun _ => .inr fun j b _ hj => absurd hj (Nat.not_lt_zero j))
      h.inflight_le
  | @cancelPrev i hi =>
    refine (h.cancel (i - 1)).setPhase (a := .swapped) ?_ (by simp) (fun hst => hst.elim)
      h.inflight_le
    rw [Delivery.phases_cancel]
    exact hi
  | prevDone hi hprev =>
    exact h.setPhase hi (by simp) (fun _ => .inr (h.chain.done_before hprev)) h.inflight_le
  | cancel i => exact h.cancel i
  | goes hactor hi hgoes => exact h.goes hi hgoes
  | start hi | sent hi => exact h.setPhase hi (by simp) (fun _ => .inl trivial) h.inflight_le
  | register hi => exact h.register hi
  | rollback hi => exact h.rollback hi
  | ack => exact h.of_shrink rfl rfl fun k hk => (AList.mem_erase.mp hk).2
  | nack | sweep =>
    have hset := Settled.of_step rfl hstep
    exact h.of_shrink hset.phases hset.window hset.inflight
  | restart => exact Delivery.bounded_of_idle h.window_eq rfl rfl

/-- However subscribes, deliveries and settlements interleave, at most one delivery goroutine of the
consumer is past its start, and no more is in flight than the window allows. -/
theorem receive_window_kept {id : Bytes} {as : List FeedAction}
    (hrun : Run (step threshold) (fun _ _ => True) (new id window) as s) :
    (∀ (i j : ℕ) (a b : Phase), s.phases[i]? = some a → s.phases[j]? = some b →
        a.Running → b.Running → i = j) ∧
      s.delivery.consumer.inflight.keys.length ≤ window := by
  have hnew : (new id window).delivery.Bounded window := Delivery.bounded_of_idle rfl rfl rfl
  have hok : s.delivery.Bounded window :=
    hrun.invariant (I := fun s : Feed => s.delivery.Bounded window) hnew
      fun _ _ _ _ h hstep => bounded_of_step h hstep
  refine ⟨fun i j a b hi hj ha hb => ?_, hok.inflight_le⟩
  by_contra hne
  rcases hok.chain.idle hi ha.1 ha.2 hj (Ne.symm hne) with hdone | hwaits
  · exact hb.2 hdone
  · exact hwaits hb.1

/-- Two records and a window of one. Two subscribes overlap while the first record is in flight; the
earlier of them is cancelled before its goroutine starts. -/
def overlapping : List FeedAction :=
  [.deliver (.write ⟨0, 0, [], [97], 0, 0⟩), .deliver (.write ⟨1, 0, [], [98], 0, 0⟩),
    .deliver (.commit 2), .deliver .subscribe, .deliver (.cancelPrev 0), .deliver (.advance 0),
    .deliver (.advance 0), .deliver (.advance 0), .deliver (.advance 0), .deliver (.advance 0),
    .deliver (.advance 0), .deliver .subscribe, .deliver .subscribe, .deliver (.cancelPrev 2),
    .deliver (.cancelPrev 1), .deliver (.stop 0), .deliver (.advance 0), .deliver (.prevDone 1)]

/-- The second goroutine runs, the third one waits for it, and the window is full. -/
theorem receive_window_kept_overlapping :
    ∃ s, Run (step 3) (fun _ _ => True) (new [99] 1) overlapping s ∧
      (s.phases = [.done, .spawned, .waiting] ∧ s.delivery.consumer.inflight.keys = [0]) ∧
      (∀ (i j : ℕ) (a b : Phase), s.phases[i]? = some a → s.phases[j]? = some b →
        a.Running → b.Running → i = j) ∧
      s.delivery.consumer.inflight.keys.length ≤ 1 := by
  exact exists_run_of_exec (by decide +kernel) fun _ hrun h => ⟨h, receive_window_kept hrun⟩

end Feed

end ToyMQ.Broker
