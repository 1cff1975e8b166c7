import Mathlib.Order.Interval.Finset.Nat
import ToyMQ.Broker.Feed

/-!
# Where a consumer resumes

A subscription begins after what was settled, on the runs that keep the offsets without a gap.

* `acked_not_resent`: a goroutine does not deliver what was acknowledged before it started, when
  goroutines start while no id is kept above the mark. Delivery is positioned by the mark alone
  (`acked_resent`).
* `dead_letter_settles`: a message that was dead-lettered counts as acknowledged when it is below
  the mark. Otherwise the mark stays below it for good (`dead_letter_resent`).
* `resumes_after_acked`: a consumer that acknowledged every message from its first to `k` resumes
  at `k + 1` exactly if that first one was 0 (`restarts_at_floor`).
-/

namespace ToyMQ.Broker

open Lib

/-- The subscription comes after `k`: it starts right there, unless that was dropped, and nothing up
to `k` is kept above the mark. -/
def Offsets.ResumesAfter (o : Offsets) (floor k : ℕ) : Prop :=
  (floor ≤ k + 1 → o.startID floor = some (k + 1)) ∧ ∀ j ∈ o.aboveLast, k < j

variable {o : Offsets} {floor k : ℕ}

/-- Where a consumer with a mark starts. -/
theorem Offsets.startID_of_next {m : ℕ} (h : m < o.next) (floor : ℕ) :
    o.startID floor = if o.next < floor then none else some o.next := by
  unfold Offsets.next at h ⊢
  unfold Offsets.startID
  cases hacked : o.hasAcked with
  | false => simp [hacked] at h
  | true => simp

/-- Offsets that record everything up to `k` resume after it. -/
theorem Offsets.Gapped.resumesAfter (h : o.Gapped) (hcovers : ∀ j, o.Covers j ↔ j ≤ k) :
    o.ResumesAfter floor k := by
  obtain ⟨hnext, habove⟩ := h.eq_of_covers hcovers
  have hmark : k < o.next := hnext ▸ Nat.lt_succ_self k
  refine ⟨fun hfloor => ?_, fun j hj => ?_⟩
  · rw [Offsets.startID_of_next hmark, hnext, if_neg (not_lt.mpr hfloor)]
  · rw [habove] at hj
    exact absurd hj (Finset.notMem_empty j)

/-- Offsets that record `k` but not 0 keep `k` above a mark that they do not have. -/
theorem Offsets.not_resumesAfter (hk : o.Covers k) (hzero : ¬ o.Covers 0) :
    ¬ o.ResumesAfter floor k := by
  rw [Offsets.covers_iff] at hk hzero
  intro hresumes
  rcases hk with hlt | hmem
  · exact hzero (.inl (Nat.zero_lt_of_lt hlt))
  · exact lt_irrefl k (hresumes.2 k hmem)

namespace Feed

variable {id : Bytes} {window threshold : ℕ} {as : List FeedAction} {s : Feed}

theorem ok_of_run {ok : Feed → FeedAction → Prop}
    (hrun : Run (step threshold) ok (new id window) as s) : s.Ok :=
  hrun.invariant (ok_new id window) fun _ _ _ _ h hstep => h.of_step hstep

/-! ## Acknowledged messages -/

/-- No goroutine reads where to start while an id is kept above the mark. -/
def StartsWithoutGap (s : Feed) (a : FeedAction) : Prop :=
  s.starts a → s.delivery.consumer.offsets.aboveLast = ∅

instance (s : Feed) (a : FeedAction) : Decidable (s.StartsWithoutGap a) :=
  inferInstanceAs (Decidable (_ → _))

theorem Ok.acked_lt_next (h : s.Ok) (habove : s.delivery.consumer.offsets.aboveLast = ∅) :
    ∀ m ∈ s.known.ids .acked, m < s.delivery.consumer.offsets.next := by
  intro m hm
  have hcovers := (h.ledger.offsets.covers m).mpr (h.ledger.offsets.acked hm)
  rcases (Offsets.covers_iff _ m).mp hcovers with hlt | hin
  · exact hlt
  · change m ∈ s.delivery.consumer.offsets.aboveLast at hin
    rw [habove] at hin
    exact absurd hin (Finset.notMem_empty m)

/-- An acknowledged message is not delivered again. In every run in which goroutines start only
while no id is kept above the mark, a goroutine that has put a message in flight, and sends it,
started before that message was acknowledged. This includes the goroutines after a restart, for the
acks before the offsets file was written that it loads. -/
theorem acked_not_resent
    (hrun : Run (step threshold) StartsWithoutGap (new id window) as s) {i pos msgID : ℕ}
    (hi : s.phases[i]? = some (.sending pos msgID)) : msgID ∉ (s.since i).acked := by
  have hinv : s.Ok ∧ s.Ahead .acked := by
    refine hrun.invariant (I := fun s => s.Ok ∧ s.Ahead .acked)
      ⟨ok_new id window, ahead_new .acked id window⟩ ?_
    rintro s a s' hgap ⟨hok, hahead⟩ hstep
    exact ⟨hok.of_step hstep,
      hahead.of_step hok (fun hstarts => hok.acked_lt_next (hgap hstarts)) hstep⟩
  exact hinv.2.notMem hi

/-- Two messages are published, and the first subscription delivers both. -/
def deliverBoth : List DeliveryAction :=
  [.write ⟨0, 0, [], [97], 0, 0⟩, .write ⟨1, 0, [], [98], 0, 0⟩, .commit 2, .subscribe,
    .cancelPrev 0] ++ List.replicate 10 (.advance 0)

/-- A second subscription takes over from the first, and takes `n` steps. -/
def takeOver (n : ℕ) : List DeliveryAction :=
  [.subscribe, .cancelPrev 1, .stop 0, .advance 0, .prevDone 1] ++ List.replicate n (.advance 1)

/-- What the consumer does between the two subscriptions. -/
def settleBetween (between : List DeliveryAction) (n : ℕ) : List FeedAction :=
  (deliverBoth ++ between ++ takeOver n).map .deliver

/-- The first message is acknowledged before the second subscription starts, which sends the other
one. -/
theorem acked_not_resent_takeOver :
    ∃ s, Run (step 0) StartsWithoutGap (new [99] 8)
        (settleBetween [.ack 0] 5) s ∧
      s.phases = [.done, .sending 2 1] ∧ (s.since 1).acked = {0} ∧ 1 ∉ (s.since 1).acked := by
  refine exists_run_of_exec (P := fun s =>
    s.phases = [.done, .sending 2 1] ∧ (s.since 1).acked = {0}) (by decide +kernel) ?_
  rintro s hrun ⟨hphases, hsince⟩
  have hi : s.phases[1]? = some (.sending 2 1) := by rw [hphases]; rfl
  exact ⟨hphases, hsince, acked_not_resent hrun hi⟩

/-- The second of two messages is acknowledged, and the next subscription delivers it again. -/
theorem acked_resent :
    ∃ s, Run (step 0) (fun _ _ => True) (new [99] 8)
        (settleBetween [.ack 1] 9) s ∧
      s.phases[1]? = some (.sending 2 1) ∧ 1 ∈ (s.since 1).acked ∧
      1 ∈ s.delivery.consumer.inflight := by
  decide +kernel

/-! ## Dead-lettered messages -/

/-- Only messages below the mark are dead-lettered. -/
def KillsBelowMark (threshold : ℕ) (s : Feed) (a : FeedAction) : Prop :=
  ∀ m ∈ s.kills threshold a, m < s.delivery.consumer.offsets.next

instance (s : Feed) (a : FeedAction) : Decidable (KillsBelowMark threshold s a) :=
  inferInstanceAs (Decidable (∀ m ∈ _, _))

theorem marked_of_step {s s' : Feed} {a : FeedAction} (h : s.ledger.Marked)
    (hkills : KillsBelowMark threshold s a) (hstep : s.step threshold a = some s') :
    s'.ledger.Marked := by
  rcases step_change hstep with hchange | hrestart
  · exact h.of_step hkills hchange.ledger
  · exact h.of_step (fun m hm => absurd hm (Finset.notMem_empty m)) hrestart.ledger

theorem marked_new (id : Bytes) (window : ℕ) : (new id window).ledger.Marked :=
  ⟨fun m hm => absurd hm (Finset.notMem_empty m), fun _ hfile => absurd hfile List.not_mem_nil⟩

theorem Ok.next_unsettled (h : s.Ok) (hmarked : s.ledger.Marked) :
    ¬ (s.delivery.consumer.offsets.next ∈ s.known.acked ∨
      s.delivery.consumer.offsets.next ∈ s.known.dead) := by
  rintro (hacked | hdead)
  · -- It is neither below the mark nor kept above it.
    have hcovers := (h.ledger.offsets.covers _).mpr (h.ledger.offsets.acked hacked)
    rcases (Offsets.covers_iff _ _).mp hcovers with hlt | hin
    · exact lt_irrefl _ hlt
    · exact lt_irrefl _ (h.ledger.offsets.gapped _ hin)
  · exact lt_irrefl _ (hmarked.dead _ hdead)

/-- A message that was dead-lettered counts as acknowledged. In every run in which only messages
below the mark are dead-lettered, a goroutine that sends a message started before that message was
dead-lettered; and when all messages up to `k` that are retained were acknowledged or dead-lettered,
among them a dead-lettered one, the next subscription starts above `k`. It does start when all
messages up to `k` were settled and `k + 1` has not been dropped. -/
theorem dead_letter_settles
    (hrun : Run (step threshold) (KillsBelowMark threshold) (new id window) as s) :
    (∀ i pos msgID, s.phases[i]? = some (.sending pos msgID) → msgID ∉ (s.since i).dead) ∧
    ∀ m ∈ s.known.dead, ∀ k, m ≤ k →
      ((∀ j, s.floor ≤ j → j ≤ k → j ∈ s.known.acked ∨ j ∈ s.known.dead) →
        ∀ n, s.delivery.consumer.offsets.startID s.floor = some n → k < n) ∧
      ((∀ j ≤ k, j ∈ s.known.acked ∨ j ∈ s.known.dead) → s.floor ≤ k + 1 →
        ∃ n, s.delivery.consumer.offsets.startID s.floor = some n ∧ k < n) := by
  have hinv : s.Ok ∧ s.Ahead .dead ∧ s.ledger.Marked := by
    refine hrun.invariant (I := fun s => s.Ok ∧ s.Ahead .dead ∧ s.ledger.Marked)
      ⟨ok_new id window, ahead_new .dead id window, marked_new id window⟩ ?_
    rintro s a s' hkills ⟨hok, hahead, hmarked⟩ hstep
    exact ⟨hok.of_step hstep, hahead.of_step hok (fun _ => hmarked.dead) hstep,
      marked_of_step hmarked hkills hstep⟩
  obtain ⟨hok, hahead, hmarked⟩ := hinv
  refine ⟨fun i pos msgID hi => hahead.notMem hi, fun m hm k hmk => ?_⟩
  have hmark : m < s.delivery.consumer.offsets.next := hmarked.dead m hm
  have hstart := Offsets.startID_of_next hmark s.floor
  constructor
  · intro hsettled n hn
    rw [hstart, Option.ite_none_left_eq_some] at hn
    obtain ⟨hfloor, hnext⟩ := hn
    cases hnext
    by_contra hle
    exact hok.next_unsettled hmarked (hsettled _ (not_lt.mp hfloor) (not_lt.mp hle))
  · intro hsettled hfloor
    have hlt : k < s.delivery.consumer.offsets.next := by
      by_contra hle
      exact hok.next_unsettled hmarked (hsettled _ (not_lt.mp hle))
    rw [hstart, if_neg (by omega)]
    exact ⟨_, rfl, hlt⟩

/-- The first message is delivered by two subscriptions. It is acknowledged, and then nacked as the
second delivery of it, which kills it below the mark. A third subscription sends the other
message. -/
def killBelowMark : List DeliveryAction :=
  deliverBoth ++ takeOver 2 ++ [.ack 0] ++ List.replicate 4 (.advance 1) ++ [.nack 0] ++
    [.subscribe, .cancelPrev 2, .stop 1, .advance 1, .prevDone 2] ++
    List.replicate 5 (.advance 2)

theorem dead_letter_settles_belowMark :
    ∃ s, Run (step 1) (KillsBelowMark 1) (new [99] 8) (killBelowMark.map .deliver) s ∧
      (s.phases[2]? = some (.sending 2 1) ∧ (s.since 2).dead = {0} ∧ s.known.dead = {0} ∧
        s.floor = 0) ∧
      1 ∉ (s.since 2).dead ∧
      ∃ n, s.delivery.consumer.offsets.startID 0 = some n ∧ 0 < n := by
  refine exists_run_of_exec (P := fun s => s.phases[2]? = some (.sending 2 1) ∧
    (s.since 2).dead = {0} ∧ s.known.dead = {0} ∧ s.floor = 0) (by decide +kernel) ?_
  rintro s hrun ⟨hphase, hsince, hdead, hfloor⟩
  obtain ⟨hsent, hstart⟩ := dead_letter_settles hrun
  have hmem : 0 ∈ s.known.dead := by simp [hdead]
  refine ⟨⟨hphase, hsince, hdead, hfloor⟩, hsent 2 2 1 hphase, ?_⟩
  have hall : ∀ j ≤ 0, j ∈ s.known.acked ∨ j ∈ s.known.dead := fun j hj =>
    .inr (Nat.le_zero.mp hj ▸ hmem)
  have hnext := (hstart 0 hmem 0 le_rfl).2 hall (by omega)
  rwa [hfloor] at hnext

/-- Of two messages the first is dead-lettered and the second acknowledged. The consumer still
starts at the first, and its next subscription delivers it again. -/
theorem dead_letter_resent :
    ∃ s, Run (step 1) (fun _ _ => True) (new [99] 8)
        (settleBetween [.nack 0, .ack 1] 5) s ∧
      s.phases[1]? = some (.sending 1 0) ∧ (s.since 1).dead = {0} ∧ s.known.acked = {1} ∧
      s.delivery.consumer.offsets.startID s.floor = some 0 := by
  decide +kernel

/-! ## A whole range -/

/-- When a consumer resumes after what it acknowledged. In every state that a run reaches, if the
consumer has acknowledged exactly the messages from `f` to `k`, in whatever order, then it starts at
`k + 1` and keeps nothing up to `k` above the mark exactly if `f` is 0. The same goes for a consumer
that loads the offsets file written in that state. -/
theorem resumes_after_acked (hrun : Run (step threshold) (fun _ _ => True) (new id window) as s)
    {f k : ℕ} (hle : f ≤ k) (hacked : s.known.recorded = Finset.Icc f k) :
    (s.delivery.consumer.offsets.ResumesAfter s.floor k ↔ f = 0) ∧
      ((Offsets.new.load s.delivery.consumer.offsets.snapshot).ResumesAfter s.floor k ↔
        f = 0) := by
  have hknows : s.delivery.consumer.offsets.Knows s.known := (ok_of_run hrun).ledger.offsets
  have hcovers : ∀ j, s.delivery.consumer.offsets.Covers j ↔ f ≤ j ∧ j ≤ k := by
    intro j
    rw [hknows.covers, hacked, Finset.mem_Icc]
  rw [Offsets.load_snapshot, and_self_iff]
  constructor
  · intro hresumes
    by_contra hpos
    refine Offsets.not_resumesAfter ((hcovers k).mpr ⟨hle, le_rfl⟩) (fun h => ?_) hresumes
    exact hpos (Nat.le_zero.mp ((hcovers 0).mp h).1)
  · rintro rfl
    exact hknows.gapped.resumesAfter fun j =>
      (hcovers j).trans (and_iff_right (Nat.zero_le j))

/-- Both messages are acknowledged, the second one first. -/
theorem resumes_after_acked_swapped :
    ∃ s, Run (step 0) (fun _ _ => True) (new [99] 8)
        (settleBetween [.ack 1, .ack 0] 0) s ∧
      s.known.recorded = Finset.Icc 0 1 ∧
      s.delivery.consumer.offsets.ResumesAfter s.floor 1 ∧
      (Offsets.new.load s.delivery.consumer.offsets.snapshot).ResumesAfter s.floor 1 := by
  exact exists_run_of_exec (by decide +kernel) fun _ hrun hacked =>
    have hresumes := resumes_after_acked hrun (Nat.zero_le 1) hacked
    ⟨hacked, hresumes.1.mpr rfl, hresumes.2.mpr rfl⟩

/-- Retention drops the first of two messages, and then a new consumer receives and acknowledges the
second. -/
def startAtFloor : List FeedAction :=
  [.deliver (.write ⟨0, 0, [], [97], 0, 0⟩), .deliver (.write ⟨1, 0, [], [98], 0, 0⟩),
    .deliver (.commit 2), .drop 1, .deliver .subscribe, .deliver (.cancelPrev 0)] ++
    List.replicate 6 (.deliver (.advance 0)) ++ [.deliver (.ack 1)]

/-- A consumer that started at a raised floor has acknowledged all that there is. It starts at that
message again, and keeps it above a mark that it will never have; a restart changes nothing in
this. -/
theorem restarts_at_floor :
    ∃ s, Run (step 0) (fun _ _ => True) (new [99] 8)
        startAtFloor s ∧
      s.known.recorded = Finset.Icc 1 1 ∧ s.floor = 1 ∧
      s.delivery.consumer.offsets.startID s.floor = some 1 ∧
      s.delivery.consumer.offsets.aboveLast = {1} ∧
      ¬ s.delivery.consumer.offsets.ResumesAfter s.floor 1 ∧
      ¬ (Offsets.new.load s.delivery.consumer.offsets.snapshot).ResumesAfter s.floor 1 := by
  refine exists_run_of_exec (P := fun s => s.known.recorded = Finset.Icc 1 1 ∧ s.floor = 1 ∧
    s.delivery.consumer.offsets.startID s.floor = some 1 ∧
    s.delivery.consumer.offsets.aboveLast = {1}) (by decide +kernel) ?_
  rintro s - ⟨hacked, hfloor, hstart, habove⟩
  have hnot : ¬ s.delivery.consumer.offsets.ResumesAfter s.floor 1 := fun hresumes =>
    lt_irrefl 1 (hresumes.2 1 (by rw [habove]; exact Finset.mem_singleton_self 1))
  refine ⟨hacked, hfloor, hstart, habove, hnot, ?_⟩
  rw [Offsets.load_snapshot]
  exact hnot

end Feed

end ToyMQ.Broker
