import ToyMQ.Client.Connection

/-!
# Cancelled requests and the order of responses

The server answers every request with one frame, in the order of the requests. A request that was
cancelled stays in the pending queue, marked, and `deliver` passes over marked requests at the head
when a frame comes in. It hands the frame to the first request that is not marked, so that the frame
of a cancelled request goes to the next one.

`Slots` is a queue with the frames that were delivered and who received each. As long as the frame
of a cancelled request finds no other request waiting, and no request is added before the frames of
those passed over have come, every frame reaches its own request or nobody (`Slots.Aligned`).
-/

namespace ToyMQ.Client

open Lib Server List

/-! ## The queue with cancellation -/

namespace Pending

/-- `cancel`. -/
def cancel (q : Pending) (id : ℕ) : Pending :=
  { q with reqs := q.reqs.modify id fun p => { p with cancelled := true } }

/-- Whether a request is not cancelled. -/
def live (q : Pending) (id : ℕ) : Bool := !(q.reqs[id]?.map PendingReq.cancelled).getD true

/-- The request that `deliver` hands a frame to. -/
def receiver? (q : Pending) : Option ℕ := q.queue.find? q.live

theorem reqs_deliver (q : Pending) (f : Frame) :
    (q.deliver f).reqs =
      q.receiver?.elim q.reqs fun id => q.reqs.modify id fun p => { p with resp := some f } := by
  obtain ⟨reqs, queue⟩ := q
  unfold Pending.deliver receiver?
  induction queue with
  | nil => rfl
  | cons head rest ih =>
    rw [deliverTo, find?_cons]
    cases hlive : (Pending.live ⟨reqs, head :: rest⟩ head) with
    | true =>
      have hcancelled : (reqs[head]?.map PendingReq.cancelled).getD true = false := by
        rwa [live, Bool.not_eq_true'] at hlive
      rw [hcancelled]
      rfl
    | false =>
      have hcancelled : (reqs[head]?.map PendingReq.cancelled).getD true = true := by
        rwa [live, Bool.not_eq_false'] at hlive
      rw [hcancelled, if_pos rfl]
      exact ih

variable {q : Pending}

theorem queue_deliver_of_none (h : q.receiver? = none) (f : Frame) : (q.deliver f).queue = [] := by
  obtain ⟨reqs, queue⟩ := q
  unfold Pending.deliver
  unfold receiver? at h
  rw [find?_eq_none] at h
  induction queue with
  | nil => rfl
  | cons head rest ih =>
    have hcancelled : (reqs[head]?.map PendingReq.cancelled).getD true = true := by
      have hdead := h head mem_cons_self
      rwa [live, Bool.not_eq_true, Bool.not_eq_false'] at hdead
    rw [deliverTo, hcancelled, if_pos rfl]
    exact ih fun id hid => h id (mem_cons_of_mem head hid)

theorem queue_deliver_of_live {head : ℕ} {rest : List ℕ} (hq : q.queue = head :: rest)
    (hlive : q.live head = true) (f : Frame) :
    q.receiver? = some head ∧ (q.deliver f).queue = rest := by
  have hcancelled : (q.reqs[head]?.map PendingReq.cancelled).getD true = false := by
    rwa [live, Bool.not_eq_true'] at hlive
  constructor
  · rw [receiver?, hq, find?_cons, hlive]
  · rw [Pending.deliver, hq, deliverTo, hcancelled]
    rfl

end Pending

/-! ## Runs of the queue -/

/-- The pending queue, with the frames delivered so far and the request that received each. -/
structure Slots where
  pending : Pending
  frames : List Frame
  receivers : List (Option ℕ)

inductive SlotAction where
  | push
  | cancel (id : ℕ)
  /-- The response to the next request that has none comes in. -/
  | deliver (f : Frame)
deriving DecidableEq, Repr

namespace Slots

def new : Slots := ⟨⟨[], []⟩, [], []⟩

def step (s : Slots) : SlotAction → Option Slots
  | .push => some { s with pending := s.pending.push }
  | .cancel id =>
    if id < s.pending.reqs.length then some { s with pending := s.pending.cancel id } else none
  | .deliver f =>
    -- The server answers requests only.
    if s.frames.length < s.pending.reqs.length then
      some ⟨s.pending.deliver f, s.frames ++ [f], s.receivers ++ [s.pending.receiver?]⟩
    else none

/-- The frame at each place was received by the request at that place, or by nobody and the request
is cancelled. -/
def Own (s : Slots) : Prop :=
  ∀ (i : ℕ) (f : Frame) (r : Option ℕ), s.frames[i]? = some f → s.receivers[i]? = some r →
    ∃ p : PendingReq, s.pending.reqs[i]? = some p ∧
      (r = some i ∧ p.resp = some f ∨ r = none ∧ p.cancelled = true)

/-- The condition on the steps of a run. A frame comes in while the head of the queue is not
cancelled, or while all of the queue is. A request is added while the queue has all requests whose
frames are still to come. -/
def Orderly (s : Slots) : SlotAction → Prop
  | .push => s.pending.queue.length = s.pending.reqs.length - s.frames.length
  | .cancel _ => True
  | .deliver _ =>
    (∀ id ∈ s.pending.queue.head?, s.pending.live id = true) ∨
      ∀ id ∈ s.pending.queue, s.pending.live id = false

instance (s : Slots) : DecidablePred (Orderly s) := fun a =>
  match a with
  | .push => inferInstanceAs (Decidable (_ = _))
  | .cancel _ => .isTrue trivial
  | .deliver _ => inferInstanceAs (Decidable (_ ∨ _))

/-- The queue has the requests whose frames are still to come, or it is empty and all of them are
cancelled. -/
structure Aligned (s : Slots) : Prop where
  length_receivers : s.receivers.length = s.frames.length
  length_frames : s.frames.length ≤ s.pending.reqs.length
  queue : s.pending.queue =
      List.range' s.frames.length (s.pending.reqs.length - s.frames.length) ∨
    s.pending.queue = [] ∧
      ∀ id, s.frames.length ≤ id → s.pending.live id = false
  own : s.Own

variable {s s' : Slots}

theorem aligned_new : new.Aligned :=
  ⟨rfl, le_rfl, .inl rfl, fun _ _ _ h => by cases h⟩

/-- A request that has a frame is still there after a change that keeps its frame and its mark. -/
theorem Own.of_reqs (h : s.Own) (hframes : s'.frames = s.frames)
    (hreceivers : s'.receivers = s.receivers)
    (hreqs : ∀ (i : ℕ) (p : PendingReq), s.pending.reqs[i]? = some p → ∃ p' : PendingReq,
      s'.pending.reqs[i]? = some p' ∧ p'.resp = p.resp ∧
        (p.cancelled = true → p'.cancelled = true)) :
    s'.Own := by
  intro i f r hf hr
  rw [hframes] at hf
  rw [hreceivers] at hr
  obtain ⟨p, hp, hown⟩ := h i f r hf hr
  obtain ⟨p', hp', hresp, hcancelled⟩ := hreqs i p hp
  refine ⟨p', hp', hown.imp (fun hgot => ⟨hgot.1, hresp.trans hgot.2⟩) fun hnobody => ?_⟩
  exact ⟨hnobody.1, hcancelled hnobody.2⟩

theorem Aligned.push (h : s.Aligned)
    (hok : s.pending.queue.length = s.pending.reqs.length - s.frames.length) :
    ({ s with pending := s.pending.push } : Slots).Aligned := by
  have hlen := h.length_frames
  have hqueue : s.pending.queue =
      List.range' s.frames.length (s.pending.reqs.length - s.frames.length) := by
    rcases h.queue with hqueue | ⟨hempty, -⟩
    · exact hqueue
    · rw [hempty, length_nil] at hok
      rw [hempty, ← hok]
      rfl
  have hreqs : s.pending.push.reqs.length = s.pending.reqs.length + 1 := by
    rw [Pending.push, length_append, length_singleton]
  refine ⟨h.length_receivers, ?_, .inl ?_, h.own.of_reqs rfl rfl fun i p hp => ?_⟩
  · dsimp only
    omega
  · rw [hreqs, Nat.succ_sub hlen, range'_concat, ← hqueue, Nat.one_mul,
      Nat.add_sub_cancel' hlen]
    rfl
  · have hlt := (List.getElem?_eq_some_iff.mp hp).1
    exact ⟨p, (getElem?_append_left hlt).trans hp, rfl, id⟩

variable {q : Pending}

theorem live_cancel_of_not {id k : ℕ} (h : q.live id = false) : (q.cancel k).live id = false := by
  unfold Pending.live Pending.cancel at *
  rw [Bool.not_eq_false'] at h ⊢
  rw [getElem?_modify]
  cases hp : q.reqs[id]? with
  | none => rfl
  | some =>
    rw [hp] at h
    split_ifs
    · rfl
    · exact h

theorem Aligned.cancel (h : s.Aligned) (id : ℕ) :
    ({ s with pending := s.pending.cancel id } : Slots).Aligned := by
  have hreqs : (s.pending.cancel id).reqs.length = s.pending.reqs.length :=
    length_modify _ _ _
  refine ⟨h.length_receivers, hreqs ▸ h.length_frames, ?_, h.own.of_reqs rfl rfl fun i p hp => ?_⟩
  · rw [hreqs]
    exact h.queue.imp_right fun hempty =>
      ⟨hempty.1, fun k hk => live_cancel_of_not (hempty.2 k hk)⟩
  · dsimp only [Pending.cancel]
    rw [getElem?_modify, hp]
    split_ifs
    · exact ⟨_, rfl, rfl, fun _ => rfl⟩
    · exact ⟨_, rfl, rfl, fun hc => hc⟩

theorem Own.deliver {f : Frame} {r : Option ℕ} {pending : Pending} (h : s.Own)
    (hlen : s.receivers.length = s.frames.length)
    (hold : ∀ i < s.frames.length, pending.reqs[i]? = s.pending.reqs[i]?)
    (hnew : ∃ p : PendingReq, pending.reqs[s.frames.length]? = some p ∧
      (r = some s.frames.length ∧ p.resp = some f ∨ r = none ∧ p.cancelled = true)) :
    (⟨pending, s.frames ++ [f], s.receivers ++ [r]⟩ : Slots).Own := by
  intro i f' r' hf hr
  rcases Nat.lt_or_ge i s.frames.length with hi | hi
  · rw [getElem?_append_left hi] at hf
    rw [getElem?_append_left (by omega)] at hr
    rw [hold i hi]
    exact h i f' r' hf hr
  · have hbound := (List.getElem?_eq_some_iff.mp hf).1
    rw [length_append, length_singleton] at hbound
    have heq : i = s.frames.length := by omega
    subst heq
    rw [getElem?_concat_length] at hf
    rw [← hlen, getElem?_concat_length] at hr
    cases hf
    cases hr
    exact hnew

/-- The next request to be answered. -/
theorem exists_next (h : s.frames.length < s.pending.reqs.length) :
    ∃ p : PendingReq, s.pending.reqs[s.frames.length]? = some p ∧
      s.pending.live s.frames.length = !p.cancelled := by
  refine ⟨_, getElem?_eq_getElem h, ?_⟩
  unfold Pending.live
  rw [getElem?_eq_getElem h]
  rfl

theorem Aligned.deliver_nobody (h : s.Aligned) (f : Frame)
    (hlt : s.frames.length < s.pending.reqs.length) (hnone : s.pending.receiver? = none)
    (hdead : ∀ id, s.frames.length ≤ id → s.pending.live id = false) :
    (⟨s.pending.deliver f, s.frames ++ [f], s.receivers ++ [s.pending.receiver?]⟩ :
      Slots).Aligned := by
  have hreqs : (s.pending.deliver f).reqs = s.pending.reqs := by
    rw [Pending.reqs_deliver, hnone]
    rfl
  have hlive : ∀ id, (s.pending.deliver f).live id = s.pending.live id := fun id => by
    unfold Pending.live
    rw [hreqs]
  obtain ⟨p, hp, hp'⟩ := exists_next hlt
  have hcancelled : p.cancelled = true := by
    rwa [hdead _ le_rfl, eq_comm, Bool.not_eq_false'] at hp'
  refine ⟨?_, ?_, .inr ⟨Pending.queue_deliver_of_none hnone f, fun id hid => ?_⟩, ?_⟩
  · rw [length_append, length_append, h.length_receivers]
    rfl
  · rw [length_append, length_singleton, hreqs]
    omega
  · rw [length_append] at hid
    rw [hlive, hdead id (by omega)]
  · refine h.own.deliver h.length_receivers (fun i _ => by rw [hreqs]) ?_
    rw [hreqs, hnone]
    exact ⟨p, hp, .inr ⟨rfl, hcancelled⟩⟩

theorem Aligned.deliver_head {n : ℕ} (h : s.Aligned) (f : Frame)
    (hlen : s.pending.reqs.length = s.frames.length + 1 + n)
    (hqueue : s.pending.queue = s.frames.length :: List.range' (s.frames.length + 1) n)
    (hlive : s.pending.live s.frames.length = true) :
    (⟨s.pending.deliver f, s.frames ++ [f], s.receivers ++ [s.pending.receiver?]⟩ :
      Slots).Aligned := by
  obtain ⟨hreceiver, hrest⟩ := Pending.queue_deliver_of_live hqueue hlive f
  have hreqs : (s.pending.deliver f).reqs =
      s.pending.reqs.modify s.frames.length fun p => { p with resp := some f } := by
    rw [Pending.reqs_deliver, hreceiver]
    rfl
  obtain ⟨p, hp, -⟩ := exists_next (s := s) (by omega)
  refine ⟨?_, ?_, .inl ?_, ?_⟩
  · rw [length_append, length_append, h.length_receivers]
    rfl
  · rw [length_append, length_singleton, Pending.length_deliver]
    omega
  · rw [hrest, length_append, length_singleton, Pending.length_deliver, hlen,
      Nat.add_sub_cancel_left]
  · refine h.own.deliver h.length_receivers (fun i hi => ?_) ?_
    · rw [hreqs, getElem?_modify_ne _ _ (by omega)]
    · rw [hreqs, hreceiver]
      refine ⟨{ p with resp := some f }, ?_, .inl ⟨rfl, rfl⟩⟩
      rw [getElem?_modify_eq, hp]
      rfl

theorem live_of_length_le {id : ℕ} (h : q.reqs.length ≤ id) : q.live id = false := by
  unfold Pending.live
  rw [getElem?_eq_none h]
  rfl

theorem Aligned.deliver (h : s.Aligned) (f : Frame)
    (hlt : s.frames.length < s.pending.reqs.length) (hok : Orderly s (.deliver f)) :
    (⟨s.pending.deliver f, s.frames ++ [f], s.receivers ++ [s.pending.receiver?]⟩ :
      Slots).Aligned := by
  have hnobody : (∀ id ∈ s.pending.queue, s.pending.live id = false) →
      s.pending.receiver? = none := fun hdead =>
    find?_eq_none.mpr fun id hid => by rw [hdead id hid]; exact Bool.false_ne_true
  rcases h.queue with hqueue | ⟨hempty, hdead⟩
  · obtain ⟨n, hn⟩ := Nat.exists_eq_add_of_lt hlt
    have hcons : s.pending.queue = s.frames.length :: List.range' (s.frames.length + 1) n := by
      rw [hqueue, show s.pending.reqs.length - s.frames.length = n + 1 by omega]
      rfl
    rcases hok with hhead | hdead
    · exact h.deliver_head f (by omega) hcons (hhead _ (by rw [hcons]; rfl))
    · refine h.deliver_nobody f hlt (hnobody hdead) fun id hid => ?_
      rcases Nat.lt_or_ge id s.pending.reqs.length with hlt' | hge
      · refine hdead id ?_
        rw [hqueue, mem_range'_1]
        omega
      · exact live_of_length_le hge
  · refine h.deliver_nobody f hlt (hnobody fun id hid => ?_) hdead
    rw [hempty] at hid
    cases hid

theorem aligned_of_step {a : SlotAction} (hok : Orderly s a) (h : s.Aligned)
    (hstep : s.step a = some s') : s'.Aligned := by
  cases a with
  | push =>
    cases hstep
    exact h.push hok
  | cancel id =>
    simp only [step] at hstep
    split_ifs at hstep
    cases hstep
    exact h.cancel id
  | deliver f =>
    simp only [step] at hstep
    split_ifs at hstep with hlt
    cases hstep
    exact h.deliver f hlt hok

/-- In a run of pushes, cancellations and deliveries in which every frame comes in while the head of
the queue is not cancelled, or while all of it is, and requests are added while the queue has all
requests whose frames are still to come, each frame is received by the request it answers, or by
nobody if that was cancelled. -/
theorem frame_received_by_own {as : List SlotAction} (hrun : Run step Orderly new as s) :
    s.receivers.length = s.frames.length ∧ s.Own := by
  have haligned : s.Aligned :=
    hrun.invariant aligned_new fun _ _ _ hok h hstep => aligned_of_step hok h hstep
  exact ⟨haligned.length_receivers, haligned.own⟩

/-- The last of two requests is cancelled after the first was answered. -/
theorem frame_received_by_own_last :
    ∃ s, Run step Orderly new [.push, .push, .deliver (.ok 7), .cancel 1, .deliver (.ok 8)] s ∧
      s.receivers = [some 0, none] ∧ s.Own := by
  exact exists_run_of_exec (by decide +kernel) fun _ hrun hreceivers =>
    ⟨hreceivers, (frame_received_by_own hrun).2⟩

/-- The response to a cancelled request is received by the next request. -/
theorem cancelled_frame_misdelivered :
    ∃ s, Run step (fun _ _ => True) new [.push, .push, .cancel 0, .deliver (.ok 7)] s ∧
      s.receivers = [some 1] ∧
      s.pending.reqs = [⟨none, true⟩, ⟨some (.ok 7), false⟩] ∧ ¬ s.Own := by
  refine exists_run_of_exec (P := fun s => s.frames = [.ok 7] ∧ s.receivers = [some 1] ∧
    s.pending.reqs = [⟨none, true⟩, ⟨some (.ok 7), false⟩]) (by decide +kernel) ?_
  rintro s - ⟨hframes, hreceivers, hreqs⟩
  refine ⟨hreceivers, hreqs, fun hown => ?_⟩
  obtain ⟨p, -, hgot | hnobody⟩ := hown 0 (.ok 7) (some 1) (by rw [hframes]; rfl)
    (by rw [hreceivers]; rfl)
  · cases hgot.1
  · cases hnobody.1

end Slots

end ToyMQ.Client
