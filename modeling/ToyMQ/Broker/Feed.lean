import ToyMQ.Broker.Delivery

/-!
# A consumer under retention and dead-lettering

`Delivery` on a broker that also does the rest of what a standalone broker does to a consumer:
retention raises the floor of the log, a failed delivery kills the message at the dead-letter
threshold, a reader may fail, and a restart may find fewer records than were committed. It comes
back with any offsets file that was ever written, or with none.

Beside the state stands what has been settled for the consumer, `Known`. A restart goes back to what
was settled when its offsets file was written, without the messages that the log has lost.

`Rule` lists the steps with their guards (`rule_of_step`), and `step_change` says what a step does
to the offsets (`Ledger.Step`), to a goroutine (`Move`), to the messages in flight and to the log.
The invariants `Ledger.Ok`, `Feed.Ok` and `Feed.Ahead` follow from it.
-/

namespace ToyMQ.Broker

open Lib List Option
open Wal (Record LogSpec Numbered)

/-! ## The system -/

/-- What has been settled for a consumer, by the ids of the messages. -/
structure Known where
  /-- The ids for which an ack returned success. -/
  recorded : Finset ℕ
  /-- Those of them whose message the log has not lost. -/
  acked : Finset ℕ
  /-- The messages that were dead-lettered and that the log has not lost. -/
  dead : Finset ℕ
deriving DecidableEq

/-- The two ways in which a message is settled. -/
inductive Fate where
  | acked
  | dead
deriving DecidableEq, Repr

namespace Known

/-- The messages that were settled in one of the two ways. -/
def ids (kn : Known) : Fate → Finset ℕ
  | .acked => kn.acked
  | .dead => kn.dead

/-- Nothing is settled. -/
def empty : Known := ⟨∅, ∅, ∅⟩

/-- An ack returns success. -/
def ack (kn : Known) (msgID : ℕ) : Known :=
  { kn with recorded := insert msgID kn.recorded, acked := insert msgID kn.acked }

/-- Messages are dead-lettered. -/
def kill (kn : Known) (msgIDs : Finset ℕ) : Known := { kn with dead := kn.dead ∪ msgIDs }

/-- The log has lost all but its first `k` records. -/
def keep (kn : Known) (k : ℕ) : Known :=
  { kn with acked := kn.acked.filter (· < k), dead := kn.dead.filter (· < k) }

end Known

/-- The consumer after a nack or a sweep of the redelivery loop. -/
def Consumer.failed (c : Consumer) (threshold : ℕ) : DeliveryAction → Consumer
  | .nack msgID =>
    match c.nackOrKill msgID threshold with
    | .error _ => c
    | .ok (c', _) => c'
  | .sweep expired => c.collectExpired threshold expired
  | _ => c

theorem Consumer.failed_eq (c : Consumer) (threshold : ℕ) (a : DeliveryAction) :
    c.failed threshold a = { c with inflight := (c.failed threshold a).inflight } := by
  cases a with
  | nack =>
    dsimp only [Consumer.failed]
    split
    · rfl
    next hnack => exact Consumer.nackOrKill_eq hnack
  | sweep expired => exact c.collectExpired_eq threshold expired
  | _ => rfl

/-- The files after the log has lost all but its first `k` records. -/
def keepFiles (k : ℕ) (files : List (ConsumerOffsets × Known)) : List (ConsumerOffsets × Known) :=
  files.map fun file => (file.1, file.2.keep k)

/-- A partition's log with one of its consumers, under retention and dead-lettering. -/
structure Feed where
  delivery : Delivery
  /-- `RetainedFloor`. -/
  floor : ℕ
  known : Known
  /-- What was settled when the goroutine of a subscription started. -/
  since : ℕ → Known
  /-- The entries of the consumer in the offsets files that were ever written, each with what was
  settled at that time. -/
  files : List (ConsumerOffsets × Known)

/-- An empty partition. -/
def Feed.new (id : Bytes) (window : ℕ) : Feed :=
  ⟨.new id window, 0, .empty, fun _ => .empty, []⟩

/-- A step of the system. -/
inductive FeedAction where
  /-- What also happens without retention; `restart` is replaced by the one below. -/
  | deliver (a : DeliveryAction)
  /-- Retention drops sealed segments, and the records before `floor` with them. -/
  | drop (floor : ℕ)
  /-- `NewReader` or `Next` returns an error to the goroutine of a subscription. -/
  | fail (i : ℕ)
  /-- The broker restarts, finds `k` records from `floor` on, and loads an offsets file. -/
  | restart (k floor : ℕ) (file : Option ℕ)

/-- Where a goroutine may leave its loop, with nothing in flight to take back. -/
def Phase.mayLeave : Phase → Bool
  | .spawned | .starting _ | .credit _ | .reading _ | .holding _ _ => true
  | _ => false

theorem Phase.started_of_mayLeave {phase : Phase} (h : phase.mayLeave = true) : phase.Started := by
  cases phase <;> trivial

/-- The subscription whose goroutine takes the step, or whose `subscribe` does. -/
def FeedAction.actor : FeedAction → Option ℕ
  | .deliver (.cancelPrev i) | .deliver (.prevDone i) | .deliver (.advance i)
  | .deliver (.stop i) | .fail i => some i
  | _ => none

namespace Feed

/-- The messages that a nack or a sweep dead-letters. -/
def kills (threshold : ℕ) (s : Feed) : FeedAction → Finset ℕ
  | .deliver a =>
    (s.delivery.consumer.inflight.keys.filter
      (· ∉ (s.delivery.consumer.failed threshold a).inflight)).toFinset
  | _ => ∅

/-- The next step of `runDelivery`. It starts at the floor when nothing was acknowledged, and
`NewReader` refuses an id below the floor. From an id that is not in the log, a reader goes on with
the next record to come. -/
def advance (s : Feed) (i : ℕ) : Phase → Option Delivery
  | .spawned =>
    match s.delivery.consumer.offsets.startID s.floor with
    | none => some (s.delivery.setPhase i .exiting)
    | some pos => some (s.delivery.setPhase i (.starting pos))
  | .starting pos =>
    if pos < s.floor then some (s.delivery.setPhase i .exiting)
    else some (s.delivery.setPhase i (.credit (min pos s.delivery.log.committed)))
  | phase => s.delivery.advance i phase

/-- A step that also happens without retention. -/
def deliver (threshold : ℕ) (s : Feed) (a : DeliveryAction) : Option Feed :=
  match a with
  | .cancelPrev i | .prevDone i =>
    (s.delivery.step a).map fun d =>
      { s with delivery := d, since := Function.update s.since i s.known }
  | .advance i =>
    s.delivery.subs[i]?.bind fun sub =>
      (s.advance i sub.phase).map fun d => { s with delivery := d }
  | .ack msgID =>
    (s.delivery.step a).map fun d =>
      { s with
        delivery := d
        known := if msgID ∈ s.delivery.consumer.inflight then s.known.ack msgID else s.known }
  | .nack _ | .sweep _ =>
    some { s with
      delivery := { s.delivery with consumer := s.delivery.consumer.failed threshold a }
      known := s.known.kill (s.kills threshold (.deliver a)) }
  | .flushOffsets =>
    (s.delivery.step a).map fun d =>
      { s with
        delivery := d
        files := s.files ++ [(s.delivery.consumer.offsets.snapshot, s.known)] }
  | .restart _ _ => none
  | .write _ | .commit _ | .subscribe | .cancel _ | .stop _ | .setPaused _ =>
    (s.delivery.step a).map fun d => { s with delivery := d }

/-- The broker after a restart that finds `k` records from `floor` on and these offsets. -/
def reopened (s : Feed) (k floor : ℕ) (offsets : Offsets) (known : Known) : Feed :=
  { s with
    delivery := { s.delivery with
      log := ⟨s.delivery.log.records.take k, k⟩
      consumer :=
        { Consumer.new s.delivery.consumer.id s.delivery.consumer.window with offsets := offsets }
      subs := [] }
    floor := floor
    known := known.keep k
    files := keepFiles k s.files }

/-- A step, for a dead-letter threshold. -/
def step (threshold : ℕ) (s : Feed) : FeedAction → Option Feed
  | .deliver a => s.deliver threshold a
  | .drop floor =>
    if s.floor ≤ floor ∧ floor ≤ s.delivery.log.committed then some { s with floor := floor }
    else none
  | .fail i =>
    match s.delivery.phases[i]? with
    | some (.starting _) | some (.reading _) =>
      some { s with delivery := s.delivery.setPhase i .exiting }
    | _ => none
  | .restart k floor file =>
    if k ≤ s.delivery.log.records.length ∧ floor ≤ k then
      match file with
      | none => some (s.reopened k floor .new .empty)
      | some j =>
        s.files[j]?.map fun file => s.reopened k floor (Offsets.new.load file.1) file.2
    else none

end Feed

/-! ## The offsets and what they know -/

structure Ledger where
  offsets : Offsets
  known : Known
  files : List (ConsumerOffsets × Known)

/-- What a step does to the offsets. A message that is dead-lettered leaves them as they are. -/
inductive Ledger.Step (kills : Finset ℕ) : Ledger → Ledger → Prop where
  | kill (l : Ledger) : Step kills l { l with known := l.known.kill kills }
  | ack (l : Ledger) (msgID : ℕ) :
    Step kills l { l with offsets := l.offsets.ack msgID, known := l.known.ack msgID }
  | flush (l : Ledger) : Step kills l { l with files := l.files ++ [(l.offsets.snapshot, l.known)] }
  | reset (l : Ledger) (k : ℕ) : Step kills l ⟨.new, .empty, keepFiles k l.files⟩
  | reload (l : Ledger) (k : ℕ) {file : ConsumerOffsets × Known} (hfile : file ∈ l.files) :
    Step kills l ⟨Offsets.new.load file.1, file.2.keep k, keepFiles k l.files⟩

/-- The offsets record exactly the ids of the acks, and keep none next to the mark. -/
structure Offsets.Knows (o : Offsets) (kn : Known) : Prop where
  gapped : o.Gapped
  covers : ∀ k, o.Covers k ↔ k ∈ kn.recorded
  acked : kn.acked ⊆ kn.recorded

namespace Offsets.Knows

variable {o : Offsets} {kn : Known}

theorem new : Offsets.new.Knows .empty :=
  ⟨gapped_new, fun k => by simp [Offsets.Covers, Offsets.new, Known.empty], subset_rfl⟩

theorem ack (h : o.Knows kn) (msgID : ℕ) : (o.ack msgID).Knows (kn.ack msgID) :=
  { gapped := h.gapped.ack msgID
    covers := fun k => by
      rw [Offsets.covers_ack, h.covers, Known.ack, Finset.mem_insert, or_comm]
    acked := Finset.insert_subset_insert msgID h.acked }

theorem keep (h : o.Knows kn) (k : ℕ) : o.Knows (kn.keep k) :=
  ⟨h.gapped, h.covers, (Finset.filter_subset _ _).trans h.acked⟩

end Offsets.Knows

namespace Ledger

/-- The offsets of the consumer, and those that a restart can load, know what was settled. -/
structure Ok (l : Ledger) : Prop where
  offsets : l.offsets.Knows l.known
  files : ∀ file ∈ l.files, (Offsets.new.load file.1).Knows file.2

variable {l l' : Ledger} {kills : Finset ℕ}

theorem Ok.of_step (h : l.Ok) (hstep : Step kills l l') : l'.Ok := by
  have hkeep : ∀ k, ∀ file ∈ keepFiles k l.files, (Offsets.new.load file.1).Knows file.2 := by
    intro k file hfile
    obtain ⟨file, hmem, rfl⟩ := List.mem_map.mp hfile
    exact (h.files file hmem).keep k
  cases hstep with
  | kill => exact ⟨⟨h.offsets.gapped, h.offsets.covers, h.offsets.acked⟩, h.files⟩
  | ack msgID => exact ⟨h.offsets.ack msgID, h.files⟩
  | flush =>
    refine ⟨h.offsets, fun file hfile => ?_⟩
    rcases mem_append.mp hfile with hmem | hlast
    · exact h.files file hmem
    · rw [mem_singleton.mp hlast, Offsets.load_snapshot]
      exact h.offsets
  | reset k => exact ⟨.new, hkeep k⟩
  | reload k hfile => exact ⟨(h.files _ hfile).keep k, hkeep k⟩

/-- Every message that was dead-lettered is below the mark. -/
structure Marked (l : Ledger) : Prop where
  dead : ∀ m ∈ l.known.dead, m < l.offsets.next
  files : ∀ file ∈ l.files, ∀ m ∈ file.2.dead, m < (Offsets.new.load file.1).next

theorem Marked.of_step (h : l.Marked) (hkills : ∀ m ∈ kills, m < l.offsets.next)
    (hstep : Step kills l l') : l'.Marked := by
  have hkeep : ∀ k, ∀ file ∈ keepFiles k l.files, ∀ m ∈ file.2.dead,
      m < (Offsets.new.load file.1).next := by
    intro k file hfile m hm
    obtain ⟨file, hmem, rfl⟩ := List.mem_map.mp hfile
    exact h.files file hmem m (Finset.mem_filter.mp hm).1
  cases hstep with
  | kill =>
    refine ⟨fun m hm => ?_, h.files⟩
    rcases Finset.mem_union.mp hm with hm | hm
    · exact h.dead m hm
    · exact hkills m hm
  | ack msgID => exact ⟨fun m hm => (h.dead m hm).trans_le (l.offsets.next_le_ack msgID), h.files⟩
  | flush =>
    refine ⟨h.dead, fun file hfile => ?_⟩
    rcases mem_append.mp hfile with hmem | hlast
    · exact h.files file hmem
    · rw [mem_singleton.mp hlast, Offsets.load_snapshot]
      exact h.dead
  | reset k => exact ⟨fun m hm => absurd hm (Finset.notMem_empty m), hkeep k⟩
  | reload k hfile =>
    exact ⟨fun m hm => h.files _ hfile m (Finset.mem_filter.mp hm).1, hkeep k⟩

end Ledger

/-! ## What a step does -/

namespace Feed

/-- The phases of the subscriptions. -/
def phases (s : Feed) : List Phase := s.delivery.phases

/-- The offsets with what they should know. -/
def ledger (s : Feed) : Ledger := ⟨s.delivery.consumer.offsets, s.known, s.files⟩

/-- The action lets a goroutine read where it starts. -/
def starts (s : Feed) : FeedAction → Bool
  | .deliver (.advance i) => s.phases[i]? == some .spawned
  | _ => false

/-- What a goroutine does when an action lets it move, once it has started. -/
inductive Move (s : Feed) (a : FeedAction) : Phase → Phase → Prop where
  | start {pos : ℕ} (hstarts : s.starts a)
    (hstart : s.delivery.consumer.offsets.startID s.floor = some pos) :
    Move s a .spawned (.starting pos)
  | opened (pos : ℕ) : Move s a (.starting pos) (.credit (min pos s.delivery.log.committed))
  | credit (pos : ℕ) : Move s a (.credit pos) (.reading pos)
  | read {pos : ℕ} {rec : Record} (hlt : pos < s.delivery.log.committed)
    (hrec : s.delivery.log.records[pos]? = some rec) :
    Move s a (.reading pos) (.holding (pos + 1) rec)
  | register (pos : ℕ) (rec : Record) : Move s a (.holding pos rec) (.sending pos rec.msgID.toNat)
  | sent (pos msgID : ℕ) : Move s a (.sending pos msgID) (.credit pos)
  | leave {phase : Phase} (hstarted : phase.Started) : Move s a phase .exiting
  | done : Move s a .exiting .done

/-- What an action other than a restart does to the subscriptions. -/
inductive Workers (s : Feed) (a : FeedAction) (s' : Feed) : Prop where
  | same (hphases : s'.phases = s.phases) (hsince : s'.since = s.since)
  | subscribed (hphases : s'.phases = s.phases ++ [.swapped]) (hsince : s'.since = s.since)
  | moved {i : ℕ} {phase phase' : Phase} (hi : s.phases[i]? = some phase)
    (hmove : s.Move a phase phase') (hphases : s'.phases = s.phases.set i phase')
    (hsince : s'.since = s.since)
  /-- A subscription goes on to wait for the one before it, or starts its goroutine. -/
  | awaited {i : ℕ} {phase : Phase} (hphase : phase = .waiting ∨ phase = .spawned)
    (hphases : s'.phases = s.phases.set i phase)
    (hsince : s'.since = Function.update s.since i s.known)

/-- Where a goroutine goes on, when it changes nothing but its own phase and sends nothing. -/
inductive Goes (s : Feed) : Phase → Phase → Prop where
  | opened (pos : ℕ) : Goes s (.starting pos) (.credit (min pos s.delivery.log.committed))
  | credit {pos : ℕ} (hcredit : s.delivery.consumer.hasCredit = true) :
    Goes s (.credit pos) (.reading pos)
  | read {pos : ℕ} {rec : Record} (hlt : pos < s.delivery.log.committed)
    (hrec : s.delivery.log.records[pos]? = some rec) :
    Goes s (.reading pos) (.holding (pos + 1) rec)
  | left {phase : Phase} (hphase : phase.mayLeave = true) : Goes s phase .exiting
  | ended : Goes s .exiting .done

/-- Moves a subscription to a phase. -/
def setPhase (s : Feed) (i : ℕ) (phase : Phase) : Feed :=
  { s with delivery := s.delivery.setPhase i phase }

/-- Replaces the consumer. -/
def withConsumer (s : Feed) (c : Consumer) : Feed :=
  { s with delivery := { s.delivery with consumer := c } }

/-- What a step can do, one rule for each outcome. -/
inductive Rule (threshold : ℕ) (s : Feed) : FeedAction → Feed → Prop where
  | write {rec : Record} {log : LogSpec} (hlog : s.delivery.log.step (.write rec) = some log) :
    Rule threshold s (.deliver (.write rec)) { s with delivery := { s.delivery with log := log } }
  | commit {k : ℕ} {log : LogSpec} (hlog : s.delivery.log.step (.commit k) = some log) :
    Rule threshold s (.deliver (.commit k))
      { s with
        delivery := { s.delivery with log := log, synced := max s.delivery.synced k } }
  | subscribe :
    Rule threshold s (.deliver .subscribe) { s with
      delivery := { s.delivery with
        consumer := { s.delivery.consumer with subscribed := true }
        subs := s.delivery.subs ++ [⟨.swapped, false⟩] } }
  /-- There is no subscription before this one. -/
  | first (hi : s.phases[0]? = some .swapped) :
    Rule threshold s (.deliver (.cancelPrev 0))
      { s.setPhase 0 .spawned with since := Function.update s.since 0 s.known }
  | cancelPrev {i : ℕ} (hi : s.phases[i]? = some .swapped) (hne : i ≠ 0) :
    Rule threshold s (.deliver (.cancelPrev i)) { s with
      delivery := (s.delivery.cancel (i - 1)).setPhase i .waiting
      since := Function.update s.since i s.known }
  | prevDone {i : ℕ} (hi : s.phases[i]? = some .waiting) (hprev : s.phases[i - 1]? = some .done) :
    Rule threshold s (.deliver (.prevDone i))
      { s.setPhase i .spawned with since := Function.update s.since i s.known }
  | cancel (i : ℕ) :
    Rule threshold s (.deliver (.cancel i)) { s with delivery := s.delivery.cancel i }
  | goes {a : FeedAction} {i : ℕ} {phase phase' : Phase} (ha : a.actor = some i)
    (hi : s.phases[i]? = some phase) (h : s.Goes phase phase') :
    Rule threshold s a (s.setPhase i phase')
  | start {i pos : ℕ} (hi : s.phases[i]? = some .spawned)
    (hstart : s.delivery.consumer.offsets.startID s.floor = some pos) :
    Rule threshold s (.deliver (.advance i)) (s.setPhase i (.starting pos))
  | register {i pos : ℕ} {rec : Record} (hi : s.phases[i]? = some (.holding pos rec)) :
    Rule threshold s (.deliver (.advance i))
      ((s.withConsumer (s.delivery.consumer.register rec.msgID.toNat rec.payload)).setPhase i
        (.sending pos rec.msgID.toNat))
  | sent {i pos msgID : ℕ} (hi : s.phases[i]? = some (.sending pos msgID)) :
    Rule threshold s (.deliver (.advance i)) (s.setPhase i (.credit pos))
  | rollback {i pos msgID : ℕ} (hi : s.phases[i]? = some (.sending pos msgID)) :
    Rule threshold s (.deliver (.stop i))
      ((s.withConsumer (s.delivery.consumer.rollback msgID)).setPhase i .exiting)
  | ack {msgID : ℕ} (hmem : msgID ∈ s.delivery.consumer.inflight) :
    Rule threshold s (.deliver (.ack msgID)) { s with
      delivery := { s.delivery with
        consumer := { s.delivery.consumer with
          offsets := s.delivery.consumer.offsets.ack msgID
          inflight := s.delivery.consumer.inflight.erase msgID }
        acked := insert msgID s.delivery.acked }
      known := s.known.ack msgID }
  | ackRefused {msgID : ℕ} (hmem : msgID ∉ s.delivery.consumer.inflight) :
    Rule threshold s (.deliver (.ack msgID)) s
  | nack (msgID : ℕ) :
    Rule threshold s (.deliver (.nack msgID))
      { s.withConsumer (s.delivery.consumer.failed threshold (.nack msgID)) with
        known := s.known.kill (s.kills threshold (.deliver (.nack msgID))) }
  | sweep (expired : List ℕ) :
    Rule threshold s (.deliver (.sweep expired))
      { s.withConsumer (s.delivery.consumer.failed threshold (.sweep expired)) with
        known := s.known.kill (s.kills threshold (.deliver (.sweep expired))) }
  | setPaused (paused : Bool) :
    Rule threshold s (.deliver (.setPaused paused))
      (s.withConsumer { s.delivery.consumer with paused := paused })
  | flushOffsets :
    Rule threshold s (.deliver .flushOffsets) { s with
      delivery := { s.delivery with
        flushed := s.delivery.flushed ++ [s.delivery.consumer.offsets] }
      files := s.files ++ [(s.delivery.consumer.offsets.snapshot, s.known)] }
  | drop {floor : ℕ} : Rule threshold s (.drop floor) { s with floor := floor }
  | restart {k floor : ℕ} {file : Option ℕ} {offsets : Offsets} {known : Known}
    (hk : k ≤ s.delivery.log.records.length)
    (hfile : (offsets = .new ∧ known = .empty) ∨
      ∃ entry ∈ s.files, offsets = Offsets.new.load entry.1 ∧ known = entry.2) :
    Rule threshold s (.restart k floor file) (s.reopened k floor offsets known)

variable {s s' : Feed} {threshold i msgID : ℕ} {a : FeedAction} {phase phase' : Phase}
  {d : Delivery}

theorem rule_of_advance (hi : s.phases[i]? = some phase) (h : s.advance i phase = some d) :
    Rule threshold s (.deliver (.advance i)) { s with delivery := d } := by
  cases phase with
  | spawned =>
    dsimp only [advance] at h
    split at h
    · cases h
      exact .goes rfl hi (.left rfl)
    next pos hstart =>
      cases h
      exact .start hi hstart
  | starting pos =>
    dsimp only [advance] at h
    split_ifs at h
    · cases h
      exact .goes rfl hi (.left rfl)
    · cases h
      exact .goes rfl hi (.opened pos)
  | credit =>
    dsimp only [advance, Delivery.advance] at h
    split_ifs at h with hcredit
    cases h
    exact .goes rfl hi (.credit hcredit)
  | reading =>
    dsimp only [advance, Delivery.advance] at h
    split_ifs at h with hlt
    obtain ⟨rec, hrec, rfl⟩ := map_eq_some_iff.mp h
    exact .goes rfl hi (.read hlt hrec)
  | holding =>
    cases h
    exact .register hi
  | sending =>
    cases h
    exact .sent hi
  | exiting =>
    cases h
    exact .goes rfl hi .ended
  | swapped | waiting | done => cases h

theorem rule_of_stop (hi : s.phases[i]? = some phase) (h : s.delivery.stop i phase = some d) :
    Rule threshold s (.deliver (.stop i)) { s with delivery := d } := by
  cases phase with
  | credit | reading =>
    cases h
    exact .goes rfl hi (.left rfl)
  | holding =>
    dsimp only [Delivery.stop] at h
    split_ifs at h
    cases h
    exact .goes rfl hi (.left rfl)
  | sending =>
    cases h
    exact .rollback hi
  | swapped | waiting | spawned | starting | exiting | done => cases h

theorem rule_of_deliver {a : DeliveryAction} (h : s.deliver threshold a = some s') :
    Rule threshold s (.deliver a) s' := by
  have hphase : ∀ {i : ℕ} {sub : Sub}, s.delivery.subs[i]? = some sub →
      s.phases[i]? = some sub.phase := by
    intro i sub hi
    rw [phases, Delivery.phases, getElem?_map, hi]
    rfl
  cases a with
  | write =>
    obtain ⟨d, hd, rfl⟩ := map_eq_some_iff.mp h
    obtain ⟨log, hlog, rfl⟩ := map_eq_some_iff.mp hd
    exact .write hlog
  | commit =>
    obtain ⟨d, hd, rfl⟩ := map_eq_some_iff.mp h
    obtain ⟨log, hlog, rfl⟩ := map_eq_some_iff.mp hd
    exact .commit hlog
  | subscribe =>
    cases h
    exact .subscribe
  | cancelPrev =>
    obtain ⟨d, hd, rfl⟩ := map_eq_some_iff.mp h
    dsimp only [Delivery.step] at hd
    split at hd
    next hsub =>
      split_ifs at hd with hzero
      · cases hd
        subst hzero
        exact .first (hphase hsub)
      · cases hd
        exact .cancelPrev (hphase hsub) hzero
    · cases hd
  | prevDone =>
    obtain ⟨d, hd, rfl⟩ := map_eq_some_iff.mp h
    dsimp only [Delivery.step] at hd
    split at hd
    next hsub =>
      split_ifs at hd with hdone
      cases hd
      refine .prevDone (hphase hsub) ?_
      rw [phases, Delivery.phases, getElem?_map]
      exact hdone
    · cases hd
  | cancel i =>
    cases h
    exact .cancel i
  | advance =>
    obtain ⟨sub, hi, hadv⟩ := bind_eq_some_iff.mp h
    obtain ⟨d, hd, rfl⟩ := map_eq_some_iff.mp hadv
    exact rule_of_advance (hphase hi) hd
  | stop =>
    obtain ⟨d, hd, rfl⟩ := map_eq_some_iff.mp h
    obtain ⟨sub, hi, hstop⟩ := bind_eq_some_iff.mp hd
    split_ifs at hstop
    exact rule_of_stop (hphase hi) hstop
  | ack msgID =>
    obtain ⟨d, hd, rfl⟩ := map_eq_some_iff.mp h
    by_cases hmem : msgID ∈ s.delivery.consumer.inflight
    · rw [Delivery.step, Consumer.ack, if_pos hmem] at hd
      cases hd
      rw [if_pos hmem]
      exact .ack hmem
    · rw [Delivery.step, Consumer.ack, if_neg hmem] at hd
      cases hd
      rw [if_neg hmem]
      exact .ackRefused hmem
  | nack msgID =>
    cases h
    exact .nack msgID
  | sweep expired =>
    cases h
    exact .sweep expired
  | setPaused paused =>
    cases h
    exact .setPaused paused
  | flushOffsets =>
    cases h
    exact .flushOffsets
  | restart => cases h

/-- Every step is one of the rules. -/
theorem rule_of_step {a : FeedAction} (h : s.step threshold a = some s') :
    Rule threshold s a s' := by
  cases a with
  | deliver => exact rule_of_deliver h
  | drop =>
    dsimp only [step] at h
    split_ifs at h
    cases h
    exact .drop
  | fail =>
    dsimp only [step] at h
    split at h
    next hi =>
      cases h
      exact .goes rfl hi (.left rfl)
    next hi =>
      cases h
      exact .goes rfl hi (.left rfl)
    · cases h
  | restart k floor file =>
    dsimp only [step] at h
    split_ifs at h with hk
    cases file with
    | none =>
      cases h
      exact .restart hk.1 (.inl ⟨rfl, rfl⟩)
    | some =>
      obtain ⟨entry, hentry, rfl⟩ := map_eq_some_iff.mp h
      exact .restart hk.1 (.inr ⟨entry, mem_of_getElem? hentry, rfl, rfl⟩)

theorem eq_of_sent {pos : ℕ} (hi : s.phases[i]? = some (.sending pos msgID))
    (h : s.step threshold (.deliver (.advance i)) = some s') : s' = s.setPhase i (.credit pos) := by
  obtain ⟨sub, hsub, hadv⟩ := bind_eq_some_iff.mp h
  have hphase : sub.phase = .sending pos msgID := by
    rw [phases, Delivery.phases, getElem?_map, hsub] at hi
    exact Option.some.inj hi
  rw [hphase] at hadv
  cases hadv
  rfl

/-- A goroutine that goes on was running. -/
theorem Goes.running (h : s.Goes phase phase') : phase.Started ∧ phase ≠ .done := by
  cases h with
  | left hphase =>
    refine ⟨Phase.started_of_mayLeave hphase, ?_⟩
    rintro rfl
    cases hphase
  | _ => exact ⟨trivial, by simp⟩

/-- What an action other than a restart does. -/
structure Change (threshold : ℕ) (s : Feed) (a : FeedAction) (s' : Feed) : Prop where
  ledger : Ledger.Step (s.kills threshold a) s.ledger s'.ledger
  workers : Workers s a s'
  /-- Only a goroutine that holds a record puts one in flight. -/
  inflight : ∀ k ∈ s'.delivery.consumer.inflight, k ∈ s.delivery.consumer.inflight ∨
    ∃ phase ∈ s.phases, phase.held = some k
  log : s.delivery.log.Ok →
    s'.delivery.log.Ok ∧ s.delivery.log.committed ≤ s'.delivery.log.committed
  known_sub : ∀ fate, s.known.ids fate ⊆ s'.known.ids fate
  /-- Only what is in flight gets settled. -/
  known_new : ∀ fate, ∀ m ∈ s'.known.ids fate,
    m ∈ s.known.ids fate ∨ m ∈ s.delivery.consumer.inflight

theorem ledger_of_eq (hkills : s.kills threshold a = ∅) (h : s'.ledger = s.ledger) :
    Ledger.Step (s.kills threshold a) s.ledger s'.ledger := by
  have hstep : Ledger.Step ∅ s.ledger { s.ledger with known := s.known.kill ∅ } := .kill _
  rw [Known.kill, Finset.union_empty] at hstep
  rw [hkills, h]
  exact hstep

theorem Change.of_workers (hworkers : Workers s a s') (hkills : s.kills threshold a = ∅)
    (hledger : s'.ledger = s.ledger)
    (hinflight : s'.delivery.consumer.inflight = s.delivery.consumer.inflight)
    (hlog : s.delivery.log.Ok →
      s'.delivery.log.Ok ∧ s.delivery.log.committed ≤ s'.delivery.log.committed) :
    Change threshold s a s' := by
  have hknown : s'.known = s.known := congrArg Ledger.known hledger
  exact
    { ledger := ledger_of_eq hkills hledger
      workers := hworkers
      inflight := fun k hk => .inl (hinflight ▸ hk)
      log := hlog
      known_sub := fun fate => by rw [hknown]
      known_new := fun fate m hm => .inl (hknown ▸ hm) }

/-- A goroutine moves, and nothing else happens. -/
theorem Change.of_move (hi : s.phases[i]? = some phase) (hkills : s.kills threshold a = ∅)
    (hmove : s.Move a phase phase') :
    Change threshold s a { s with delivery := s.delivery.setPhase i phase' } :=
  .of_workers (.moved hi hmove (s.delivery.phases_setPhase i _) rfl) hkills rfl rfl
    fun h => ⟨h, le_rfl⟩

variable {k : ℕ}

/-- A failed delivery puts nothing new in flight. -/
theorem mem_of_mem_failed {c : Consumer} {a : DeliveryAction}
    (hk : k ∈ (c.failed threshold a).inflight) : k ∈ c.inflight := by
  cases a with
  | nack =>
    dsimp only [Consumer.failed] at hk
    split at hk
    · exact hk
    next hnack => exact Consumer.mem_of_mem_nackOrKill hnack hk
  | sweep => exact Consumer.mem_of_mem_collectExpired hk
  | _ => exact hk

theorem mem_inflight_of_kills {m : ℕ} (hm : m ∈ s.kills threshold a) :
    m ∈ s.delivery.consumer.inflight := by
  cases a with
  | deliver => exact AList.mem_keys.mpr (mem_filter.mp (List.mem_toFinset.mp hm)).1
  | _ => exact absurd hm (Finset.notMem_empty m)

/-- All but a nack and a sweep dead-letter nothing. -/
theorem kills_eq_empty {a : DeliveryAction}
    (h : s.delivery.consumer.failed threshold a = s.delivery.consumer) :
    s.kills threshold (.deliver a) = ∅ := by
  refine Finset.eq_empty_of_forall_notMem fun m hm => ?_
  obtain ⟨hin, hout⟩ := mem_filter.mp (List.mem_toFinset.mp hm)
  rw [h] at hout
  exact of_decide_eq_true hout (AList.mem_keys.mpr hin)

theorem kills_of_actor (ha : a.actor = some i) : s.kills threshold a = ∅ := by
  cases a with
  | deliver a =>
    cases a with
    | cancelPrev | prevDone | advance | stop => exact kills_eq_empty rfl
    | _ => cases ha
  | _ => rfl

/-- An ack of a message in flight. -/
theorem Change.of_ack (hmem : msgID ∈ s.delivery.consumer.inflight) :
    Change threshold s (.deliver (.ack msgID)) { s with
      delivery := { s.delivery with
        consumer := { s.delivery.consumer with
          offsets := s.delivery.consumer.offsets.ack msgID
          inflight := s.delivery.consumer.inflight.erase msgID }
        acked := insert msgID s.delivery.acked }
      known := s.known.ack msgID } := by
  refine
    { ledger := .ack s.ledger msgID
      workers := .same rfl rfl
      inflight := fun k hk => .inl (AList.mem_erase.mp hk).2
      log := fun h => ⟨h, le_rfl⟩
      known_sub := fun fate => ?_
      known_new := fun fate m hm => ?_ }
  · cases fate with
    | acked => exact Finset.subset_insert _ _
    | dead => exact subset_rfl
  · cases fate with
    | acked =>
      rcases Finset.mem_insert.mp hm with rfl | hm
      · exact .inr hmem
      · exact .inl hm
    | dead => exact .inl hm

/-- A nack, or a sweep. -/
theorem Change.of_failed (s : Feed) (a : DeliveryAction) :
    Change threshold s (.deliver a)
      { s.withConsumer (s.delivery.consumer.failed threshold a) with
        known := s.known.kill (s.kills threshold (.deliver a)) } := by
  refine
    { ledger := ?_
      workers := .same rfl rfl
      inflight := fun k hk => .inl (mem_of_mem_failed hk)
      log := fun h => ⟨h, le_rfl⟩
      known_sub := fun fate => ?_
      known_new := fun fate m hm => ?_ }
  · have hoffsets : (s.delivery.consumer.failed threshold a).offsets =
        s.delivery.consumer.offsets := by
      rw [s.delivery.consumer.failed_eq threshold a]
    unfold Feed.ledger withConsumer
    rw [hoffsets]
    exact .kill s.ledger
  · cases fate with
    | acked => exact subset_rfl
    | dead => exact Finset.subset_union_left
  · cases fate with
    | acked => exact .inl hm
    | dead => exact (Finset.mem_union.mp hm).imp_right mem_inflight_of_kills

/-- What a restart does. -/
structure Restart (s s' : Feed) : Prop where
  ledger : Ledger.Step ∅ s.ledger s'.ledger
  phases : s'.phases = []
  inflight : s'.delivery.consumer.inflight = ∅
  log : s.delivery.log.Ok → s'.delivery.log.Ok
  known : ∀ fate, ∀ m ∈ s'.known.ids fate, m < s'.delivery.log.committed

theorem restart_of_reopened (floor : ℕ) {offsets : Offsets} {known : Known}
    (hk : k ≤ s.delivery.log.records.length)
    (hledger : Ledger.Step ∅ s.ledger ⟨offsets, known.keep k, keepFiles k s.files⟩) :
    Restart s (s.reopened k floor offsets known) :=
  { ledger := hledger
    phases := rfl
    inflight := rfl
    log := fun h => by
      refine ⟨?_, (length_take_of_le hk).ge⟩
      have hsplit :
          Numbered 0 (s.delivery.log.records.take k ++ s.delivery.log.records.drop k) := by
        rw [take_append_drop]
        exact h.numbered
      exact (Wal.numbered_append.mp hsplit).1
    known := fun fate m hm => by
      cases fate with
      | acked | dead => exact (Finset.mem_filter.mp hm).2 }

/-- Where a goroutine goes on is where it may move. -/
theorem Goes.move (h : s.Goes phase phase') : s.Move a phase phase' := by
  cases h with
  | opened pos => exact .opened pos
  | credit => exact .credit _
  | read hlt hrec => exact .read hlt hrec
  | left hphase => exact .leave (Phase.started_of_mayLeave hphase)
  | ended => exact .done

theorem step_change (h : s.step threshold a = some s') :
    Change threshold s a s' ∨ Restart s s' := by
  -- The actions that leave alone what is in flight, what is known and the log.
  have hquiet : ∀ {a : FeedAction} {s' : Feed}, s.kills threshold a = ∅ → Workers s a s' →
      s'.ledger = s.ledger → s'.delivery.consumer.inflight = s.delivery.consumer.inflight →
      s'.delivery.log = s.delivery.log → Change threshold s a s' :=
    fun hkills hworkers hledger hinflight hlog =>
      .of_workers hworkers hkills hledger hinflight fun h => by rw [hlog]; exact ⟨h, le_rfl⟩
  cases rule_of_step h with
  | write hlog | commit hlog =>
    exact .inl (.of_workers (.same rfl rfl) (kills_eq_empty rfl) rfl rfl
      fun hok => hok.of_step hlog)
  | subscribe =>
    exact .inl (hquiet (kills_eq_empty rfl) (.subscribed map_append rfl) rfl rfl rfl)
  | first =>
    exact .inl (hquiet (kills_eq_empty rfl)
      (.awaited (.inr rfl) (s.delivery.phases_setPhase 0 _) rfl) rfl rfl rfl)
  | @cancelPrev i =>
    refine .inl (hquiet (kills_eq_empty rfl) (.awaited (.inl rfl) ?_ rfl) rfl rfl rfl)
    exact (Delivery.phases_setPhase _ i _).trans (by rw [Delivery.phases_cancel]; rfl)
  | @prevDone i =>
    exact .inl (hquiet (kills_eq_empty rfl)
      (.awaited (.inr rfl) (s.delivery.phases_setPhase i _) rfl) rfl rfl rfl)
  | cancel i =>
    exact .inl (hquiet (kills_eq_empty rfl) (.same (s.delivery.phases_cancel i) rfl) rfl rfl rfl)
  | goes ha hi hgoes => exact .inl (.of_move hi (kills_of_actor ha) hgoes.move)
  | start hi hstart =>
    exact .inl (.of_move hi (kills_eq_empty rfl) (.start (by simp [starts, hi]) hstart))
  | @register i pos rec hi =>
    refine .inl
      { ledger := ledger_of_eq (kills_eq_empty rfl) rfl
        workers := .moved hi (.register pos rec) (Delivery.phases_setPhase _ i _) rfl
        inflight := fun k hk => ?_
        log := fun h => ⟨h, le_rfl⟩
        known_sub := fun fate => subset_rfl
        known_new := fun fate m hm => .inl hm }
    -- The one message that is new in flight is the record held until now.
    rcases (AList.mem_insert _).mp hk with rfl | hk
    · exact .inr ⟨.holding pos rec, mem_of_getElem? hi, rfl⟩
    · exact .inl hk
  | sent hi => exact .inl (.of_move hi (kills_eq_empty rfl) (.sent _ _))
  | @rollback i pos msgID hi =>
    exact .inl
      { ledger := ledger_of_eq (kills_eq_empty rfl) rfl
        workers := .moved hi (.leave trivial) (Delivery.phases_setPhase _ i _) rfl
        inflight := fun k hk => .inl (AList.mem_erase.mp hk).2
        log := fun h => ⟨h, le_rfl⟩
        known_sub := fun fate => subset_rfl
        known_new := fun fate m hm => .inl hm }
  | ack hmem => exact .inl (.of_ack hmem)
  | ackRefused | setPaused => exact .inl (hquiet (kills_eq_empty rfl) (.same rfl rfl) rfl rfl rfl)
  | nack | sweep => exact .inl (.of_failed s _)
  | flushOffsets =>
    exact .inl
      { ledger := .flush s.ledger
        workers := .same rfl rfl
        inflight := fun k hk => .inl hk
        log := fun h => ⟨h, le_rfl⟩
        known_sub := fun fate => subset_rfl
        known_new := fun fate m hm => .inl hm }
  | drop => exact .inl (hquiet rfl (.same rfl rfl) rfl rfl rfl)
  | @restart k floor file offsets known hk hfile =>
    refine .inr (restart_of_reopened floor hk ?_)
    rcases hfile with ⟨rfl, rfl⟩ | ⟨entry, hmem, rfl, rfl⟩
    · exact .reset s.ledger k
    · exact .reload s.ledger k hmem

/-! ## The invariants -/

/-- The invariant. -/
structure Ok (s : Feed) : Prop where
  ledger : s.ledger.Ok
  log : s.delivery.log.Ok
  inflight : ∀ k ∈ s.delivery.consumer.inflight, k < s.delivery.log.committed
  held : ∀ phase ∈ s.phases, ∀ k, phase.held = some k → k < s.delivery.log.committed
  known : ∀ fate, ∀ m ∈ s.known.ids fate, m < s.delivery.log.committed
  /-- What was settled when a goroutine started is settled still. -/
  since : ∀ (i : ℕ) (phase : Phase), s.phases[i]? = some phase → phase.Started →
    ∀ fate, (s.since i).ids fate ⊆ s.known.ids fate

theorem ok_new (id : Bytes) (window : ℕ) : (new id window).Ok :=
  { ledger := ⟨.new, fun file hfile => absurd hfile not_mem_nil⟩
    log := LogSpec.ok_new
    inflight := fun k hk => absurd hk (AList.notMem_empty k)
    held := fun phase hp => absurd hp not_mem_nil
    known := fun fate m hm => by cases fate <;> exact absurd hm (Finset.notMem_empty m)
    since := fun i phase hi => by simp [phases, Delivery.phases, new, Delivery.new] at hi }

theorem Move.started (h : s.Move a phase phase') : phase.Started := by
  cases h <;> trivial

theorem Move.held (h : s.Move a phase phase') (hlog : s.delivery.log.Ok)
    (hk : phase'.held = some k) : k < s.delivery.log.committed := by
  cases h with
  | read hlt hrec =>
    have hid := (hlog.numbered.msgID_eq hrec).trans (Nat.zero_add _)
    cases hk
    exact hid ▸ hlt
  | _ => cases hk

/-- The phases after an action, one subscription at a time: it is as before, is new, has moved, or
now waits or starts its goroutine, knowing what is settled by then. -/
theorem Workers.phase_cases (h : Workers s a s') (hi : s'.phases[i]? = some phase) :
    (s.phases[i]? = some phase ∧ s'.since i = s.since i) ∨
      phase = .swapped ∨
      (∃ phase₀, s.phases[i]? = some phase₀ ∧ s.Move a phase₀ phase ∧ s'.since i = s.since i) ∨
      ((phase = .waiting ∨ phase = .spawned) ∧ s'.since i = s.known) := by
  cases h with
  | same hphases hsince => exact .inl ⟨hphases ▸ hi, congrFun hsince i⟩
  | subscribed hphases hsince =>
    rw [hphases] at hi
    rcases Nat.lt_or_ge i s.phases.length with hlt | hge
    · rw [getElem?_append_left hlt] at hi
      exact .inl ⟨hi, congrFun hsince i⟩
    · rw [getElem?_append_right hge] at hi
      exact .inr (.inl (mem_singleton.mp (mem_of_getElem? hi)))
  | moved hj hmove hphases hsince =>
    rw [hphases, getElem?_set] at hi
    split_ifs at hi with hij hlen
    · cases hi
      exact .inr (.inr (.inl ⟨_, hij ▸ hj, hmove, congrFun hsince i⟩))
    · exact .inl ⟨hi, congrFun hsince i⟩
  | awaited hphase hphases hsince =>
    rw [hphases, getElem?_set] at hi
    rw [hsince]
    split_ifs at hi with hij hlen
    · cases hi
      exact .inr (.inr (.inr ⟨hphase, hij ▸ Function.update_self _ _ _⟩))
    · exact .inl ⟨hi, Function.update_of_ne (Ne.symm hij) _ _⟩

theorem Ok.since_of_workers (h : s.Ok) (hworkers : Workers s a s') (i : ℕ) (phase : Phase)
    (hi : s'.phases[i]? = some phase) (hstarted : phase.Started) (fate : Fate) :
    (s'.since i).ids fate ⊆ s.known.ids fate := by
  rcases hworkers.phase_cases hi with ⟨hj, hsince⟩ | rfl | ⟨phase₀, hj, hmove, hsince⟩ | ⟨-, hsince⟩
  · exact hsince ▸ h.since i phase hj hstarted fate
  · -- The new subscription has not started.
    exact hstarted.elim
  · exact hsince ▸ h.since i phase₀ hj hmove.started fate
  · rw [hsince]

theorem Ok.held_of_workers (h : s.Ok) (hworkers : Workers s a s') :
    ∀ phase ∈ s'.phases, ∀ k, phase.held = some k → k < s.delivery.log.committed := by
  intro phase hp k hk
  obtain ⟨i, hi⟩ := mem_iff_getElem?.mp hp
  rcases hworkers.phase_cases hi with ⟨hj, -⟩ | rfl | ⟨phase₀, -, hmove, -⟩ | ⟨rfl | rfl, -⟩
  · exact h.held phase (mem_of_getElem? hj) k hk
  · cases hk
  · exact hmove.held h.log hk
  · cases hk
  · cases hk

/-- Every step keeps the invariant. -/
theorem Ok.of_step (h : s.Ok) (hstep : s.step threshold a = some s') : s'.Ok := by
  rcases step_change hstep with hchange | hrestart
  · obtain ⟨hlog, hle⟩ := hchange.log h.log
    exact
      { ledger := h.ledger.of_step hchange.ledger
        log := hlog
        inflight := fun k hk => by
          rcases hchange.inflight k hk with hk | ⟨phase, hp, hk⟩
          · exact (h.inflight k hk).trans_le hle
          · exact (h.held phase hp k hk).trans_le hle
        held := fun phase hp k hk => (h.held_of_workers hchange.workers phase hp k hk).trans_le hle
        known := fun fate m hm => by
          rcases hchange.known_new fate m hm with hm | hm
          · exact (h.known fate m hm).trans_le hle
          · exact (h.inflight m hm).trans_le hle
        since := fun i phase hi hstarted fate =>
          (h.since_of_workers hchange.workers i phase hi hstarted fate).trans
            (hchange.known_sub fate) }
  · exact
      { ledger := h.ledger.of_step hrestart.ledger
        log := hrestart.log h.log
        inflight := fun k hk => absurd (hrestart.inflight ▸ hk) (AList.notMem_empty k)
        held := fun phase hp => absurd (hrestart.phases ▸ hp) not_mem_nil
        known := hrestart.known
        since := fun i phase hi => by simp [hrestart.phases] at hi }

end Feed

/-- All of these ids are before what a goroutine in this phase delivers. -/
def Phase.Ahead (ids : Finset ℕ) : Phase → Prop
  | .starting pos | .credit pos | .reading pos => ∀ m ∈ ids, m < pos
  | .holding pos rec => ∀ m ∈ ids, m < rec.msgID.toNat ∧ m < pos
  | .sending pos msgID => ∀ m ∈ ids, m < msgID ∧ m < pos
  | .swapped | .waiting | .spawned | .exiting | .done => True

namespace Feed

variable {s s' : Feed} {threshold : ℕ} {a : FeedAction} {fate : Fate}

/-- Each goroutine is ahead of what was settled when it started. -/
def Ahead (fate : Fate) (s : Feed) : Prop :=
  ∀ (i : ℕ) (phase : Phase), s.phases[i]? = some phase → phase.Ahead ((s.since i).ids fate)

theorem Move.ahead {phase phase' : Phase} {ids : Finset ℕ} (h : s.Move a phase phase')
    (hlog : s.delivery.log.Ok) (hids : ∀ m ∈ ids, m < s.delivery.log.committed)
    (hstart : s.starts a → ∀ m ∈ ids, m < s.delivery.consumer.offsets.next)
    (hahead : phase.Ahead ids) : phase'.Ahead ids := by
  cases h with
  | @start pos hstarts hpos =>
    intro m hm
    have hlt := hstart hstarts m hm
    unfold Offsets.next at hlt
    unfold Offsets.startID at hpos
    cases hacked : s.delivery.consumer.offsets.hasAcked with
    | false => simp [hacked] at hlt
    | true =>
      simp only [hacked, if_true, Bool.not_true, Bool.false_eq_true, if_false,
        ite_none_left_eq_some, Option.some.injEq] at hlt hpos
      exact hpos.2 ▸ hlt
  | opened => exact fun m hm => lt_min (hahead m hm) (hids m hm)
  | credit | register => exact hahead
  | @read pos rec hlt hrec =>
    intro m hm
    have hid : rec.msgID.toNat = pos := (hlog.numbered.msgID_eq hrec).trans (Nat.zero_add pos)
    exact ⟨hid ▸ hahead m hm, (hahead m hm).trans (Nat.lt_succ_self pos)⟩
  | sent => exact fun m hm => (hahead m hm).2
  | leave | done => trivial

theorem Ahead.of_step (h : s.Ahead fate) (hok : s.Ok)
    (hstart : s.starts a → ∀ m ∈ s.known.ids fate, m < s.delivery.consumer.offsets.next)
    (hstep : s.step threshold a = some s') : s'.Ahead fate := by
  rcases step_change hstep with hchange | hrestart
  · intro i phase hi
    rcases hchange.workers.phase_cases hi with
      ⟨hj, hsince⟩ | rfl | ⟨phase₀, hj, hmove, hsince⟩ | ⟨rfl | rfl, -⟩
    · exact hsince ▸ h i phase hj
    · trivial
    · -- A goroutine that moves had started, so what it knew is settled by now.
      rw [hsince]
      have hsub := hok.since i phase₀ hj hmove.started fate
      exact hmove.ahead hok.log (fun m hm => hok.known fate m (hsub hm))
        (fun hs m hm => hstart hs m (hsub hm)) (h i phase₀ hj)
    · trivial
    · trivial
  · intro i phase hi
    simp [hrestart.phases] at hi

theorem ahead_new (fate : Fate) (id : Bytes) (window : ℕ) : (new id window).Ahead fate :=
  fun i phase hi => by simp [phases, Delivery.phases, new, Delivery.new] at hi

theorem Ahead.notMem (h : s.Ahead fate) {i pos msgID : ℕ}
    (hi : s.phases[i]? = some (.sending pos msgID)) : msgID ∉ (s.since i).ids fate :=
  fun hmem => lt_irrefl msgID (h i _ hi msgID hmem).1

end Feed

end ToyMQ.Broker
