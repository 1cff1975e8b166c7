import ToyMQ.Broker.Consumer
import ToyMQ.Wal.Spec

/-!
# Delivery to a consumer

One partition and one of its consumers, on a standalone broker without retention and without a
dead-letter policy. A subscribe replaces the subscription before it, waits until that one's
goroutine has ended and starts its own, which follows the log from behind the last acknowledged
offset. The broker may restart with any offsets that were ever flushed, and with any part of the log
that has all of what an fsync covered.

`no_message_lost` is the contract, as long as a restart finds what was committed: each committed
record is acknowledged, in flight, in the hands of the goroutine or ahead of it, or at or after the
place where the next one would start. `message_lost` shows what happens otherwise: `Open` commits
records that nothing has synced. The argument is that a goroutine past the wait is the only one
(`Chain`), and that whatever is behind its position has been settled (`PhaseOk`).
-/

namespace ToyMQ.Broker

open Lib
open Wal (Record LogSpec)

/-! ## The system -/

/-- How far a subscription has got. -/
inductive Phase where
  /-- `subscribe` has replaced the subscription before it. -/
  | swapped
  /-- It has cancelled that one, and waits for its goroutine to end. -/
  | waiting
  /-- `runDelivery` has started. -/
  | spawned
  /-- It has read where to start, and opens a reader there. -/
  | starting (pos : ℕ)
  /-- It waits for credit, with the reader before record `pos`. -/
  | credit (pos : ℕ)
  /-- It is inside `Next`. -/
  | reading (pos : ℕ)
  /-- It has read a record, and may wait until that is visible. -/
  | holding (pos : ℕ) (rec : Record)
  /-- It has put the record in flight, and sends it. -/
  | sending (pos : ℕ) (msgID : ℕ)
  /-- It has left the loop. -/
  | exiting
  /-- The goroutine has ended. -/
  | done
deriving DecidableEq

/-- The next position of the reader, while the goroutine delivers. -/
def Phase.position : Phase → Option ℕ
  | .starting pos | .credit pos | .reading pos | .holding pos _ | .sending pos _ => some pos
  | .swapped | .waiting | .spawned | .exiting | .done => none

/-- The record that was read and is not in flight yet. -/
def Phase.held : Phase → Option ℕ
  | .holding _ rec => some rec.msgID.toNat
  | _ => none

/-- `subscribe` is over, and the goroutine runs or has run. -/
def Phase.Started : Phase → Prop
  | .swapped | .waiting => False
  | _ => True

/-- `Subscription`. -/
structure Sub where
  phase : Phase
  cancelled : Bool
deriving DecidableEq

/-- A partition's log with one of its consumers. -/
structure Delivery where
  log : LogSpec
  consumer : Consumer
  /-- The subscriptions in the order in which they replaced one another. -/
  subs : List Sub
  /-- The offsets that were flushed, over the whole life of the directory. -/
  flushed : List Offsets
  /-- The records of the log whose acks succeeded, over the whole life of the directory. -/
  acked : Finset ℕ
  /-- How many records an fsync has covered. A power loss takes none of them. -/
  synced : ℕ

/-- An empty partition. -/
def Delivery.new (id : Bytes) (window : ℕ) : Delivery := ⟨.new, .new id window, [], [], ∅, 0⟩

/-- A step of the system. -/
inductive DeliveryAction where
  /-- `Append` writes a record. -/
  | write (rec : Record)
  /-- An fsync covers the first `k` records, and they are committed. -/
  | commit (k : ℕ)
  | subscribe
  /-- `subscribe` cancels the subscription before it, if there is one. -/
  | cancelPrev (i : ℕ)
  /-- `subscribe` goes on once the goroutine before it has ended. -/
  | prevDone (i : ℕ)
  /-- The context of a subscription is cancelled. -/
  | cancel (i : ℕ)
  /-- The goroutine of a subscription takes a step. -/
  | advance (i : ℕ)
  /-- The goroutine of a subscription notices that it is cancelled. -/
  | stop (i : ℕ)
  | ack (msgID : ℕ)
  | nack (msgID : ℕ)
  | sweep (expired : List ℕ)
  | setPaused (paused : Bool)
  | flushOffsets
  /-- The broker restarts after a kill or a power loss, finds `k` records, and reloads flushed
  offsets if there are any. -/
  | restart (k : ℕ) (offsets : Offsets)

namespace Delivery

/-- Moves a subscription to a phase. -/
def setPhase (s : Delivery) (i : ℕ) (phase : Phase) : Delivery :=
  { s with subs := s.subs.modify i fun sub => { sub with phase := phase } }

/-- Cancels the context of a subscription. -/
def cancel (s : Delivery) (i : ℕ) : Delivery :=
  { s with subs := s.subs.modify i fun sub => { sub with cancelled := true } }

/-- The next step of `runDelivery`. Nothing was dropped from the log, so that the retained floor
is 0. -/
def advance (s : Delivery) (i : ℕ) : Phase → Option Delivery
  | .spawned =>
    match s.consumer.offsets.startID 0 with
    | none => some (s.setPhase i .exiting)
    | some pos => some (s.setPhase i (.starting pos))
  | .starting pos => some (s.setPhase i (.credit pos))
  | .credit pos => if s.consumer.hasCredit then some (s.setPhase i (.reading pos)) else none
  | .reading pos =>
    if pos < s.log.committed then
      s.log.records[pos]?.map fun rec => s.setPhase i (.holding (pos + 1) rec)
    else none
  | .holding pos rec =>
    some ({ s with consumer := s.consumer.register rec.msgID.toNat rec.payload }.setPhase i
      (.sending pos rec.msgID.toNat))
  | .sending pos _ => some (s.setPhase i (.credit pos))
  | .exiting => some (s.setPhase i .done)
  | .swapped | .waiting | .done => none

/-- `runDelivery` leaves its loop where it waits. A record that needs no wait is put in flight in
any case. -/
def stop (s : Delivery) (i : ℕ) : Phase → Option Delivery
  | .credit _ | .reading _ => some (s.setPhase i .exiting)
  | .holding _ rec => if rec.visibleAtNs ≠ 0 then some (s.setPhase i .exiting) else none
  | .sending _ msgID =>
    some ({ s with consumer := s.consumer.rollback msgID }.setPhase i .exiting)
  | .swapped | .waiting | .spawned | .starting _ | .exiting | .done => none

/-- A step. The dead-letter threshold is 0. -/
def step (s : Delivery) : DeliveryAction → Option Delivery
  | .write rec => (s.log.step (.write rec)).map fun log => { s with log := log }
  | .commit k =>
    (s.log.step (.commit k)).map fun log => { s with log := log, synced := max s.synced k }
  | .subscribe =>
    some { s with
      consumer := { s.consumer with subscribed := true }
      subs := s.subs ++ [⟨.swapped, false⟩] }
  | .cancelPrev i =>
    match s.subs[i]? with
    | some ⟨.swapped, _⟩ =>
      if i = 0 then some (s.setPhase i .spawned)
      else some ((s.cancel (i - 1)).setPhase i .waiting)
    | _ => none
  | .prevDone i =>
    match s.subs[i]? with
    | some ⟨.waiting, _⟩ =>
      if s.subs[i - 1]?.map Sub.phase = some .done then some (s.setPhase i .spawned) else none
    | _ => none
  | .cancel i => some (s.cancel i)
  | .advance i => s.subs[i]?.bind fun sub => s.advance i sub.phase
  | .stop i => s.subs[i]?.bind fun sub => if sub.cancelled then s.stop i sub.phase else none
  | .ack msgID =>
    match s.consumer.ack msgID with
    | .error _ => some s
    | .ok c => some { s with consumer := c, acked := insert msgID s.acked }
  | .nack msgID =>
    match s.consumer.nackOrKill msgID 0 with
    | .error _ => some s
    | .ok (c, _) => some { s with consumer := c }
  | .sweep expired => some { s with consumer := s.consumer.collectExpired 0 expired }
  | .setPaused paused => some { s with consumer := { s.consumer with paused := paused } }
  | .flushOffsets => some { s with flushed := s.flushed ++ [s.consumer.offsets] }
  | .restart k offsets =>
    -- `Open` commits what it finds without an fsync, so that `synced` can be below `committed`.
    if s.synced ≤ k ∧ (offsets ∈ s.flushed ∨ offsets = .new) then
      (s.log.reopen k).map fun log =>
        { s with
          log := log
          consumer := { Consumer.new s.consumer.id s.consumer.window with offsets := offsets }
          subs := []
          acked := s.acked.filter (· < k) }
    else none

/-! ## The order of the subscriptions -/

/-- The phases of the subscriptions. -/
def phases (s : Delivery) : List Phase := s.subs.map Sub.phase

@[simp]
theorem phases_setPhase (s : Delivery) (i : ℕ) (phase : Phase) :
    (s.setPhase i phase).phases = s.phases.set i phase := by
  refine List.ext_getElem? fun j => ?_
  unfold phases setPhase
  rw [List.getElem?_map, List.getElem?_modify, List.getElem?_set, List.getElem?_map,
    List.length_map]
  by_cases hij : i = j
  · subst hij
    by_cases hlen : i < s.subs.length
    · simp [hlen]
    · simp [hlen]
  · simp [hij]

@[simp]
theorem phases_cancel (s : Delivery) (i : ℕ) : (s.cancel i).phases = s.phases := by
  refine List.ext_getElem? fun j => ?_
  unfold phases cancel
  rw [List.getElem?_map, List.getElem?_modify, List.getElem?_map]
  by_cases hij : i = j <;> simp [hij, Function.comp_def]

end Delivery

/-- A goroutine runs only when all those before it have ended. -/
def Chain (phases : List Phase) : Prop :=
  ∀ (i j : ℕ) (a b : Phase), phases[i]? = some a → phases[j]? = some b → i < j → b.Started →
    a = .done

namespace Chain

variable {phases : List Phase} {i : ℕ} {a : Phase}

/-- A new subscription has not started. -/
theorem append_swapped (h : Chain phases) : Chain (phases ++ [.swapped]) := by
  intro i j a b hi hj hij hb
  have hlen : j < phases.length := by
    by_contra hnot
    rw [List.getElem?_append_right (Nat.le_of_not_lt hnot)] at hj
    obtain rfl := List.mem_singleton.mp (List.mem_of_getElem? hj)
    exact hb
  rw [List.getElem?_append_left hlen] at hj
  rw [List.getElem?_append_left (hij.trans hlen)] at hi
  exact h i j a b hi hj hij hb

theorem set (h : Chain phases) (hi : phases[i]? = some a) (ha : a ≠ .done) {phase : Phase}
    (hstart : phase.Started → a.Started ∨
      ∀ (j : ℕ) (b : Phase), phases[j]? = some b → j < i → b = .done) :
    Chain (phases.set i phase) := by
  have hlen : i < phases.length := (List.getElem?_eq_some_iff.mp hi).1
  intro j k b c hj hk hjk hc
  rw [List.getElem?_set] at hj hk
  by_cases hik : i = k
  · subst hik
    rw [if_neg (Nat.ne_of_gt hjk)] at hj
    simp only [if_true, hlen, Option.some.injEq] at hk
    rcases hstart (hk ▸ hc) with hstarted | hdone
    · exact h j i b a hj hi hjk hstarted
    · exact hdone j b hj hjk
  · rw [if_neg hik] at hk
    by_cases hij : i = j
    · -- A later goroutine runs, so that this one had ended.
      subst hij
      exact absurd (h i k a c hi hk hjk hc) ha
    · rw [if_neg hij] at hj
      exact h j k b c hj hk hjk hc

/-- Next to a goroutine that runs, no other one does. -/
theorem idle (h : Chain phases) (hi : phases[i]? = some a) (hstarted : a.Started)
    (ha : a ≠ .done) {j : ℕ} {b : Phase} (hj : phases[j]? = some b) (hne : j ≠ i) :
    b = .done ∨ ¬ b.Started := by
  rcases Nat.lt_or_gt_of_ne hne with hlt | hgt
  · exact .inl (h j i b a hj hi hlt hstarted)
  · exact .inr fun hb => ha (h i j a b hi hj hgt hb)

theorem done_before (h : Chain phases) (hprev : phases[i - 1]? = some .done) (j : ℕ) (b : Phase)
    (hj : phases[j]? = some b) (hji : j < i) : b = .done := by
  rcases Nat.lt_or_ge j (i - 1) with hlt | hge
  · exact h j (i - 1) b .done hj hprev hlt trivial
  · obtain rfl : j = i - 1 := by omega
    exact Option.some.inj (hj.symm.trans hprev)

end Chain

/-! ## The invariant -/

/-- What a goroutine has left behind: every record before its position is settled, the one that
it holds apart. The position is within the range of ids that a reader can be opened at. -/
def PhaseOk (settled : ℕ → Prop) (committed : ℕ) : Phase → Prop
  | .starting pos | .credit pos | .reading pos | .sending pos _ =>
    pos ≤ committed ∧ ∀ k < pos, settled k
  | .holding pos rec =>
    pos ≤ committed ∧ rec.msgID.toNat < committed ∧ ∀ k < pos, settled k ∨ k = rec.msgID.toNat
  | .swapped | .waiting | .spawned | .exiting | .done => True

variable {committed : ℕ} {phase : Phase}

theorem PhaseOk.mono {settled settled' : ℕ → Prop} {committed' : ℕ}
    (h : PhaseOk settled committed phase) (hsettled : ∀ k, settled k → settled' k)
    (hcommitted : committed ≤ committed') : PhaseOk settled' committed' phase := by
  cases phase with
  | starting | credit | reading | sending =>
    exact ⟨h.1.trans hcommitted, fun k hk => hsettled k (h.2 k hk)⟩
  | holding =>
    exact ⟨h.1.trans hcommitted, h.2.1.trans_le hcommitted,
      fun k hk => (h.2.2 k hk).imp_left (hsettled k)⟩
  | _ => trivial

/-- A goroutine that does not run has nothing to answer for. -/
theorem phaseOk_of_idle {settled : ℕ → Prop} (h : phase = .done ∨ ¬ phase.Started) :
    PhaseOk settled committed phase := by
  cases phase <;> first | trivial | simp [Phase.Started] at h

/-- A goroutine that does not run has no reader. -/
theorem Phase.position_of_idle (h : phase = .done ∨ ¬ phase.Started) : phase.position = none := by
  cases phase <;> first | rfl | simp [Phase.Started] at h

theorem PhaseOk.settled_or_ahead {settled : ℕ → Prop} (h : PhaseOk settled committed phase)
    (hpos : phase.position ≠ none) (k : ℕ) :
    settled k ∨ ∃ pos, phase.position = some pos ∧ (phase.held = some k ∨ pos ≤ k) := by
  cases phase with
  | starting pos | credit pos | reading pos | sending pos =>
    rcases Nat.lt_or_ge k pos with hlt | hge
    · exact .inl (h.2 k hlt)
    · exact .inr ⟨pos, rfl, .inr hge⟩
  | holding pos =>
    rcases Nat.lt_or_ge k pos with hlt | hge
    · rcases h.2.2 k hlt with hset | rfl
      · exact .inl hset
      · exact .inr ⟨pos, rfl, .inl rfl⟩
    · exact .inr ⟨pos, rfl, .inr hge⟩
  | swapped | waiting | spawned | exiting | done => exact absurd rfl hpos

namespace Delivery

/-- The record has been acknowledged or is in flight. -/
def Settled (s : Delivery) (k : ℕ) : Prop := k ∈ s.acked ∨ k ∈ s.consumer.inflight

/-- A restart finds every record that was committed. -/
def KeepsCommitted (s : Delivery) : DeliveryAction → Prop
  | .restart k _ => s.log.committed ≤ k
  | _ => True

instance (s : Delivery) : (a : DeliveryAction) → Decidable (s.KeepsCommitted a)
  | .restart k _ => inferInstanceAs (Decidable (s.log.committed ≤ k))
  | .write _ | .commit _ | .subscribe | .cancelPrev _ | .prevDone _ | .cancel _ | .advance _
  | .stop _ | .ack _ | .nack _ | .sweep _ | .setPaused _ | .flushOffsets => isTrue trivial

/-- The invariant. -/
structure Ok (s : Delivery) : Prop where
  log : s.log.Ok
  /-- The offsets record nothing but acknowledged ids. -/
  covers : ∀ k, s.consumer.offsets.Covers k → k ∈ s.acked
  flushed : ∀ o ∈ s.flushed, ∀ k, o.Covers k → k ∈ s.acked
  acked : ∀ k ∈ s.acked, k < s.log.committed
  inflight : ∀ k ∈ s.consumer.inflight, k < s.log.committed
  chain : Chain s.phases
  phases : ∀ phase ∈ s.phases, PhaseOk s.Settled s.log.committed phase

namespace Ok

variable {s : Delivery}

/-- The log grows. -/
theorem withLog (h : s.Ok) {e : Wal.LogEvent} {log : LogSpec} (hlog : s.log.step e = some log)
    (synced : ℕ) : { s with log := log, synced := synced }.Ok := by
  obtain ⟨hok, hle⟩ := h.log.of_step hlog
  exact
    { log := hok
      covers := h.covers
      flushed := h.flushed
      acked := fun k hk => (h.acked k hk).trans_le hle
      inflight := fun k hk => (h.inflight k hk).trans_le hle
      chain := h.chain
      phases := fun phase hp => (h.phases phase hp).mono (fun _ hk => hk) hle }

variable {c : Consumer} {i msgID : ℕ} {phase : Phase} {s' : Delivery}

theorem withConsumer (h : s.Ok) {acked : Finset ℕ} (hsub : s.acked ⊆ acked)
    (hcovers : ∀ k, c.offsets.Covers k → k ∈ acked) (hacked : ∀ k ∈ acked, k < s.log.committed)
    (hinflight : ∀ k ∈ c.inflight, k < s.log.committed)
    (hsettled : ∀ k, s.Settled k → k ∈ acked ∨ k ∈ c.inflight) :
    { s with consumer := c, acked := acked }.Ok :=
  { log := h.log
    covers := hcovers
    flushed := fun o ho k hk => hsub (h.flushed o ho k hk)
    acked := hacked
    inflight := hinflight
    chain := h.chain
    phases := fun phase hp => (h.phases phase hp).mono hsettled le_rfl }

/-- A subscription moves on. -/
theorem setPhase (h : s.Ok) {a : Phase} (hi : s.phases[i]? = some a) (ha : a ≠ .done)
    (hstart : phase.Started → a.Started ∨
      ∀ (j : ℕ) (b : Phase), s.phases[j]? = some b → j < i → b = .done)
    (hok : PhaseOk s.Settled s.log.committed phase) : (s.setPhase i phase).Ok :=
  { log := h.log
    covers := h.covers
    flushed := h.flushed
    acked := h.acked
    inflight := h.inflight
    chain := by
      rw [phases_setPhase]
      exact h.chain.set hi ha hstart
    phases := by
      intro b hb
      rw [phases_setPhase] at hb
      rcases List.mem_or_eq_of_mem_set hb with hmem | rfl
      · exact h.phases b hmem
      · exact hok }

theorem rollback (h : s.Ok) {pos : ℕ} (hi : s.phases[i]? = some (.sending pos msgID)) :
    ({ s with consumer := s.consumer.rollback msgID }.setPhase i .exiting).Ok :=
  { log := h.log
    covers := h.covers
    flushed := h.flushed
    acked := h.acked
    inflight := fun k hk => h.inflight k (AList.mem_erase.mp hk).2
    chain := by
      rw [phases_setPhase]
      exact h.chain.set hi nofun fun _ => .inl trivial
    phases := by
      intro b hb
      rw [phases_setPhase] at hb
      obtain ⟨j, hj⟩ := List.getElem?_of_mem hb
      rw [List.getElem?_set] at hj
      split_ifs at hj with hij hlen
      · cases hj
        trivial
      · exact phaseOk_of_idle (h.chain.idle hi trivial nofun hj (Ne.symm hij)) }

/-- Every step of a delivery goroutine. -/
theorem of_advance (h : s.Ok) (hi : s.phases[i]? = some phase)
    (hstep : s.advance i phase = some s') : s'.Ok := by
  have hphase := h.phases phase (List.mem_of_getElem? hi)
  cases phase with
  | spawned =>
    unfold advance Offsets.startID at hstep
    by_cases hacked : s.consumer.offsets.hasAcked
    · -- What is at or below the mark is acknowledged, and thus committed.
      have hcov : ∀ k ≤ s.consumer.offsets.lastAcked, k ∈ s.acked := fun k hk =>
        h.covers k (.inl ⟨hacked, hk⟩)
      simp only [hacked, Bool.not_true, Bool.false_eq_true, if_false, Nat.not_lt_zero] at hstep
      cases hstep
      exact h.setPhase hi nofun (fun _ => .inl trivial)
        ⟨h.acked _ (hcov _ le_rfl), fun k hk => .inl (hcov k (Nat.le_of_lt_succ hk))⟩
    · simp only [hacked, Bool.not_false, if_true] at hstep
      cases hstep
      exact h.setPhase hi nofun (fun _ => .inl trivial)
        ⟨Nat.zero_le _, fun k hk => absurd hk (Nat.not_lt_zero k)⟩
  | starting | sending =>
    cases hstep
    exact h.setPhase hi nofun (fun _ => .inl trivial) hphase
  | credit =>
    dsimp only [advance] at hstep
    split_ifs at hstep
    cases hstep
    exact h.setPhase hi nofun (fun _ => .inl trivial) hphase
  | reading pos =>
    dsimp only [advance] at hstep
    split_ifs at hstep with hlt
    obtain ⟨rec, hrec, rfl⟩ := Option.map_eq_some_iff.mp hstep
    -- The position moves past a record that is only held: it is settled when it is registered.
    have hid : rec.msgID.toNat = pos := (h.log.numbered.msgID_eq hrec).trans (Nat.zero_add pos)
    refine h.setPhase hi nofun (fun _ => .inl trivial) ⟨hlt, hid ▸ hlt, fun k hk => ?_⟩
    rcases Nat.lt_succ_iff_lt_or_eq.mp hk with hk | rfl
    · exact .inl (hphase.2 k hk)
    · exact .inr hid.symm
  | holding pos rec =>
    cases hstep
    obtain ⟨hpos, hrec, hbehind⟩ := hphase
    have hreg : { s with consumer := s.consumer.register rec.msgID.toNat rec.payload }.Ok := by
      refine h.withConsumer subset_rfl h.covers h.acked ?_ ?_
      · intro k hk
        rcases (AList.mem_insert _).mp hk with rfl | hk
        · exact hrec
        · exact h.inflight k hk
      · exact fun k hk => hk.imp_right fun hin => (AList.mem_insert _).mpr (.inr hin)
    refine hreg.setPhase hi nofun (fun _ => .inl trivial) ⟨hpos, fun k hk => ?_⟩
    rcases hbehind k hk with hset | rfl
    · exact hset.imp_right fun hin => (AList.mem_insert _).mpr (.inr hin)
    · exact .inr ((AList.mem_insert _).mpr (.inl rfl))
  | exiting =>
    cases hstep
    exact h.setPhase hi nofun (fun _ => .inl trivial) trivial
  | swapped | waiting | done => cases hstep

/-- Every way in which a delivery goroutine ends. -/
theorem of_stop (h : s.Ok) (hi : s.phases[i]? = some phase) (hstep : s.stop i phase = some s') :
    s'.Ok := by
  cases phase with
  | credit | reading =>
    cases hstep
    exact h.setPhase hi nofun (fun _ => .inl trivial) trivial
  | holding =>
    dsimp only [stop] at hstep
    split_ifs at hstep
    cases hstep
    exact h.setPhase hi nofun (fun _ => .inl trivial) trivial
  | sending =>
    cases hstep
    exact h.rollback hi
  | swapped | waiting | spawned | starting | exiting | done => cases hstep

/-- Cancelling a context changes no phase. -/
theorem cancel (h : s.Ok) (i : ℕ) : (s.cancel i).Ok :=
  { log := h.log
    covers := h.covers
    flushed := h.flushed
    acked := h.acked
    inflight := h.inflight
    chain := by
      rw [phases_cancel]
      exact h.chain
    phases := by
      rw [phases_cancel]
      exact h.phases }

theorem of_ack (h : s.Ok) (hack : s.consumer.ack msgID = .ok c) :
    { s with consumer := c, acked := insert msgID s.acked }.Ok := by
  unfold Consumer.ack at hack
  split_ifs at hack with hmem
  cases hack
  refine h.withConsumer (Finset.subset_insert _ _) ?_ ?_ ?_ ?_
  · intro k hk
    rcases (Offsets.covers_ack _ msgID k).mp hk with hk | rfl
    · exact Finset.mem_insert_of_mem (h.covers k hk)
    · exact Finset.mem_insert_self _ _
  · intro k hk
    rcases Finset.mem_insert.mp hk with rfl | hk
    · exact h.inflight _ hmem
    · exact h.acked k hk
  · exact fun k hk => h.inflight k (AList.mem_erase.mp hk).2
  · intro k hk
    by_cases hid : k = msgID
    · exact .inl (hid ▸ Finset.mem_insert_self _ _)
    · exact hk.imp Finset.mem_insert_of_mem fun hin => AList.mem_erase.mpr ⟨hid, hin⟩

theorem withFlight (h : s.Ok) (hoffsets : c.offsets = s.consumer.offsets)
    (hflight : ∀ k, k ∈ c.inflight ↔ k ∈ s.consumer.inflight) : { s with consumer := c }.Ok :=
  h.withConsumer subset_rfl (fun k hk => h.covers k (hoffsets ▸ hk)) h.acked
    (fun k hk => h.inflight k ((hflight k).mp hk)) fun k hk => hk.imp_right (hflight k).mpr

/-- A new subscription. -/
theorem subscribe (h : s.Ok) :
    ({ s with
      consumer := { s.consumer with subscribed := true }
      subs := s.subs ++ [⟨.swapped, false⟩] } : Delivery).Ok := by
  have hphases : (s.subs ++ [(⟨.swapped, false⟩ : Sub)]).map Sub.phase = s.phases ++ [.swapped] :=
    List.map_append
  exact
    { log := h.log
      covers := h.covers
      flushed := h.flushed
      acked := h.acked
      inflight := h.inflight
      chain := by
        unfold Delivery.phases
        rw [hphases]
        exact h.chain.append_swapped
      phases := by
        unfold Delivery.phases
        rw [hphases]
        intro b hb
        rcases List.mem_append.mp hb with hb | hb
        · exact h.phases b hb
        · rw [List.mem_singleton.mp hb]
          trivial }

theorem restart (h : s.Ok) {k : ℕ} {log : LogSpec} (hlog : s.log.reopen k = some log)
    (hkeeps : s.log.committed ≤ k) {offsets : Offsets}
    (hoffsets : offsets ∈ s.flushed ∨ offsets = .new) :
    { s with
      log := log
      consumer := { Consumer.new s.consumer.id s.consumer.window with offsets := offsets }
      subs := []
      acked := s.acked.filter (· < k) }.Ok := by
  obtain ⟨hok, hcommitted⟩ := h.log.of_reopen hlog
  have hacked : s.acked.filter (· < k) = s.acked :=
    Finset.filter_true_of_mem fun j hj => (h.acked j hj).trans_le hkeeps
  rw [hacked]
  refine
    { log := hok
      covers := fun k hk => ?_
      flushed := h.flushed
      acked := fun j hj => (h.acked j hj).trans_le (hkeeps.trans_eq hcommitted.symm)
      inflight := fun k hk => absurd hk (AList.notMem_empty k)
      chain := fun i j a b hi => by simp [Delivery.phases] at hi
      phases := fun b hb => by simp [Delivery.phases] at hb }
  rcases hoffsets with hmem | rfl
  · exact h.flushed offsets hmem k hk
  · simp [Offsets.Covers, Offsets.new] at hk

/-- Every step keeps the invariant. -/
theorem of_step (h : s.Ok) {a : DeliveryAction} (ha : s.KeepsCommitted a)
    (hstep : s.step a = some s') : s'.Ok := by
  have hphase : ∀ {i : ℕ} {sub : Sub}, s.subs[i]? = some sub →
      s.phases[i]? = some sub.phase := by
    intro i sub hi
    rw [Delivery.phases, List.getElem?_map, hi]
    rfl
  cases a with
  | write =>
    obtain ⟨log, hlog, rfl⟩ := Option.map_eq_some_iff.mp hstep
    exact h.withLog hlog s.synced
  | commit k =>
    obtain ⟨log, hlog, rfl⟩ := Option.map_eq_some_iff.mp hstep
    exact h.withLog hlog (max s.synced k)
  | subscribe =>
    cases hstep
    exact h.subscribe
  | cancelPrev i =>
    dsimp only [step] at hstep
    split at hstep
    next c hi =>
      split_ifs at hstep with hzero
      · cases hstep
        exact h.setPhase (hphase hi) nofun
          (fun _ => .inr fun j b _ hj => absurd hj (by omega)) trivial
      · cases hstep
        refine (h.cancel (i - 1)).setPhase (a := .swapped) ?_ nofun (fun hst => hst.elim) trivial
        rw [phases_cancel]
        exact hphase hi
    · cases hstep
  | prevDone =>
    dsimp only [step] at hstep
    split at hstep
    next c hi =>
      split_ifs at hstep with hdone
      cases hstep
      refine h.setPhase (hphase hi) nofun (fun _ => .inr (h.chain.done_before ?_)) trivial
      rw [Delivery.phases, List.getElem?_map]
      exact hdone
    · cases hstep
  | cancel i =>
    cases hstep
    exact h.cancel i
  | advance =>
    obtain ⟨sub, hi, hadv⟩ := Option.bind_eq_some_iff.mp hstep
    exact h.of_advance (hphase hi) hadv
  | stop =>
    obtain ⟨sub, hi, hstop⟩ := Option.bind_eq_some_iff.mp hstep
    split_ifs at hstop
    exact h.of_stop (hphase hi) hstop
  | ack =>
    dsimp only [step] at hstep
    split at hstep
    · cases hstep
      exact h
    next c hack =>
      cases hstep
      exact h.of_ack hack
  | nack =>
    dsimp only [step] at hstep
    split at hstep
    · cases hstep
      exact h
    next c v hnack =>
      cases hstep
      exact h.withFlight (Consumer.offsets_nackOrKill hnack) (Consumer.mem_nackOrKill_zero hnack)
  | sweep expired =>
    cases hstep
    exact h.withFlight (s.consumer.offsets_collectExpired 0 expired)
      (s.consumer.mem_collectExpired_zero expired)
  | setPaused =>
    cases hstep
    exact h.withFlight rfl fun _ => Iff.rfl
  | flushOffsets =>
    cases hstep
    refine { h with flushed := fun o ho => ?_ }
    rcases List.mem_append.mp ho with ho | ho
    · exact h.flushed o ho
    · rw [List.mem_singleton.mp ho]
      exact h.covers
  | restart =>
    dsimp only [step] at hstep
    split_ifs at hstep with hmay
    obtain ⟨log, hlog, rfl⟩ := Option.map_eq_some_iff.mp hstep
    exact h.restart hlog ha hmay.2

theorem settled_or_start (h : s.Ok) (k : ℕ) :
    s.Settled k ∨ ∃ start, s.consumer.offsets.startID 0 = some start ∧ start ≤ k := by
  unfold Offsets.startID
  by_cases hacked : s.consumer.offsets.hasAcked
  · simp only [hacked, Bool.not_true, Bool.false_eq_true, if_false, Nat.not_lt_zero,
      Option.some.injEq, exists_eq_left']
    rcases Nat.lt_or_ge s.consumer.offsets.lastAcked k with hlt | hge
    · exact .inr hlt
    · exact .inl (.inl (h.covers k (.inl ⟨hacked, hge⟩)))
  · simp [hacked]

end Ok

theorem ok_new (id : Bytes) (window : ℕ) : (new id window).Ok :=
  { log := LogSpec.ok_new
    covers := fun k hk => by simp [new, Consumer.new, Offsets.Covers, Offsets.new] at hk
    flushed := fun o ho => by simp [new] at ho
    acked := fun k hk => by simp [new] at hk
    inflight := fun k hk => absurd hk (AList.notMem_empty k)
    chain := fun i j a b hi => by simp [phases, new] at hi
    phases := fun b hb => by simp [phases, new] at hb }

/-- No message is lost to the consumer when every restart keeps what was committed. In every state
that the system reaches at most one goroutine delivers, and every committed record is acknowledged,
in flight, read by that goroutine and not in flight yet, at or after the next position of its
reader, or, when no goroutine delivers, at or after the place where the next subscribe starts. -/
theorem no_message_lost {id : Bytes} {window : ℕ} {as : List DeliveryAction} {s : Delivery}
    (hrun : Run step KeepsCommitted (new id window) as s) :
    (∀ (i j : ℕ) (a b : Phase), s.phases[i]? = some a → s.phases[j]? = some b →
        a.position ≠ none → b.position ≠ none → i = j) ∧
      ∀ k < s.log.committed,
        k ∈ s.acked ∨ k ∈ s.consumer.inflight ∨
        (∃ phase ∈ s.phases, ∃ pos, phase.position = some pos ∧
          (phase.held = some k ∨ pos ≤ k)) ∨
        ((∀ phase ∈ s.phases, phase.position = none) ∧
          ∃ start, s.consumer.offsets.startID 0 = some start ∧ start ≤ k) := by
  have hok : s.Ok := hrun.invariant (ok_new id window) fun _ _ _ ha h hstep => h.of_step ha hstep
  constructor
  · intro i j a b hi hj ha hb
    by_contra hne
    have hruns : a.Started ∧ a ≠ .done := by
      by_contra hidle
      exact ha (Phase.position_of_idle (by tauto))
    exact hb (Phase.position_of_idle (hok.chain.idle hi hruns.1 hruns.2 hj (Ne.symm hne)))
  · intro k hk
    by_cases hlive : ∀ phase ∈ s.phases, phase.position = none
    · rcases hok.settled_or_start k with hset | hstart
      · exact hset.imp_right .inl
      · exact .inr (.inr (.inr ⟨hlive, hstart⟩))
    · simp only [not_forall, exists_prop] at hlive
      obtain ⟨phase, hmem, hpos⟩ := hlive
      rcases (hok.phases phase hmem).settled_or_ahead hpos k with hset | hahead
      · exact hset.imp_right .inl
      · exact .inr (.inr (.inl ⟨phase, hmem, hahead⟩))

/-- Two messages are published. The first is delivered, acknowledged and flushed; the second is
being sent when another subscribe takes over, and is taken back. -/
def takeover : List DeliveryAction :=
  [.write ⟨0, 0, [], [97], 0, 0⟩, .write ⟨1, 0, [], [98], 0, 0⟩, .commit 2, .subscribe,
    .cancelPrev 0, .advance 0, .advance 0, .advance 0, .advance 0, .advance 0, .advance 0, .ack 0,
    .flushOffsets, .advance 0, .advance 0, .advance 0, .subscribe, .cancelPrev 1, .stop 0,
    .advance 0, .prevDone 1]

/-- After the takeover the second message is where the new goroutine will start. -/
theorem no_message_lost_takeover :
    ∃ s, Run step KeepsCommitted (new [99] 8) takeover s ∧
      (s.log.committed = 2 ∧ s.acked = {0} ∧ s.consumer.inflight.keys = [] ∧
        s.phases = [.done, .spawned]) ∧
      ((∀ (i j : ℕ) (a b : Phase), s.phases[i]? = some a → s.phases[j]? = some b →
          a.position ≠ none → b.position ≠ none → i = j) ∧
        ∀ k < s.log.committed,
          k ∈ s.acked ∨ k ∈ s.consumer.inflight ∨
          (∃ phase ∈ s.phases, ∃ pos, phase.position = some pos ∧
            (phase.held = some k ∨ pos ≤ k)) ∨
          ((∀ phase ∈ s.phases, phase.position = none) ∧
            ∃ start, s.consumer.offsets.startID 0 = some start ∧ start ≤ k)) := by
  exact exists_run_of_exec (by decide +kernel) fun _ hrun h => ⟨h, no_message_lost hrun⟩

/-- The broker is killed before the fsync of its first record. `Open` finds the record in the page
cache and commits it; it is delivered, acknowledged and flushed. A power loss then takes the record
but not the offsets, and another one is published under its id. -/
def powerLoss : List DeliveryAction :=
  [.write ⟨0, 0, [], [97], 0, 0⟩, .restart 1 .new, .subscribe, .cancelPrev 0, .advance 0,
    .advance 0, .advance 0, .advance 0, .advance 0, .advance 0, .ack 0, .flushOffsets,
    .restart 0 ⟨true, 0, ∅⟩, .write ⟨0, 0, [], [98], 0, 0⟩, .commit 1]

/-- The second record is committed, and the consumer starts behind it. -/
theorem message_lost :
    ∃ s, Run step (fun _ _ => True) (new [99] 8) powerLoss s ∧
      s.log.records = [⟨0, 0, [], [98], 0, 0⟩] ∧ s.log.committed = 1 ∧ s.acked = ∅ ∧
      s.consumer.inflight.keys = [] ∧ s.phases = [] ∧
      s.consumer.offsets.startID 0 = some 1 := by
  decide +kernel

end Delivery

end ToyMQ.Broker
