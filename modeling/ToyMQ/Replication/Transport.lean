import ToyMQ.Lib.Run
import Mathlib.Logic.Function.Basic
import Mathlib.Tactic.Cases

/-!
# The transport between the nodes

`asyncTransport` stands between the raft driver and a transport whose `Send` blocks. Every peer has
a queue, and a goroutine that takes messages from it and sends them one after the other; a message
for a peer whose queue is full is dropped.

`passed_in_order`: what a peer is sent is what was meant for it, in order and nothing twice, with
gaps where the queue was full. `peers_independent`: whatever the messages and the goroutines of the
other peers do, however long their sends take, a peer is served as if it were the only one.
-/

namespace ToyMQ.Replication

open Lib List Option

section

variable {π μ : Type} [DecidableEq π]

/-- The queue of a peer and its pump. -/
structure Lane (μ : Type) where
  queue : List μ := []
  /-- The message in the blocking `Send` of the pump. -/
  sending : Option μ := none
  stopped : Bool := false
  /-- What was to be sent to the peer, and what the pump has sent. -/
  sent : List μ := []
  passed : List μ := []
deriving DecidableEq, Repr

inductive PumpAction where
  | take
  /-- The inner `Send` returns. -/
  | sendDone
  /-- The pump finds the context done. -/
  | stop
deriving DecidableEq, Repr

/-- The enqueueing part of `Send`. -/
def Lane.send (depth : ℕ) (l : Lane μ) (msg : μ) : Lane μ :=
  if l.queue.length < depth then { l with queue := l.queue ++ [msg], sent := l.sent ++ [msg] }
  else { l with sent := l.sent ++ [msg] }

/-- `pump`. With a message in the queue and the context done, either case may be taken. -/
def Lane.pump (cancelled : Bool) (l : Lane μ) : PumpAction → Option (Lane μ)
  | .take =>
    match l.queue, l.sending with
    | msg :: queue, none =>
      if l.stopped then none
      else some { l with queue := queue, sending := some msg, passed := l.passed ++ [msg] }
    | _, _ => none
  | .sendDone => if l.sending.isSome then some { l with sending := none } else none
  | .stop =>
    if cancelled && l.sending.isNone && !l.stopped then some { l with stopped := true } else none

/-- `asyncTransport`. -/
structure AsyncTransport (π μ : Type) where
  queues : π → Option (Lane μ)
  cancelled : Bool
  /-- What was handed to the inner transport by the callers of `Send`. -/
  direct : List μ

inductive TransportAction (π μ : Type) where
  | send (msg : μ)
  | pump (peer : π) (a : PumpAction)
  /-- `Close` cancels the context. -/
  | cancel
deriving DecidableEq, Repr

/-- `newAsyncTransport`. -/
def newAsyncTransport (peers : List π) : AsyncTransport π μ :=
  ⟨fun p => if p ∈ peers then some {} else none, false, []⟩

namespace AsyncTransport

def setLane (t : AsyncTransport π μ) (p : π) (l : Lane μ) : AsyncTransport π μ :=
  { t with queues := Function.update t.queues p (some l) }

/-- A step, where `dest` is the peer that a message names. -/
def step (dest : μ → π) (depth : ℕ) (t : AsyncTransport π μ) :
    TransportAction π μ → Option (AsyncTransport π μ)
  | .send msg =>
    match t.queues (dest msg) with
    | none => some { t with direct := t.direct ++ [msg] }
    | some l => some (t.setLane (dest msg) (l.send depth msg))
  | .pump p a => (t.queues p).bind fun l => (l.pump t.cancelled a).map (t.setLane p)
  | .cancel => some { t with cancelled := true }

end AsyncTransport

/-! ## One peer -/

/-- The messages of a lane: those sent and those that wait are among those that were to be sent. -/
structure Lane.Ok (depth : ℕ) (l : Lane μ) : Prop where
  order : (l.passed ++ l.queue).Sublist l.sent
  bound : l.queue.length ≤ depth

variable {depth : ℕ} {l : Lane μ}

theorem Lane.Ok.send (h : l.Ok depth) (msg : μ) : (l.send depth msg).Ok depth := by
  unfold Lane.send
  split_ifs with hroom
  · refine ⟨?_, by rw [length_append]; exact hroom⟩
    rw [← append_assoc]
    exact h.order.append (List.Sublist.refl _)
  · exact ⟨h.order.trans (sublist_append_left _ _), h.bound⟩

theorem Lane.Ok.pump {cancelled : Bool} {l' : Lane μ} {a : PumpAction} (h : l.Ok depth)
    (hpump : l.pump cancelled a = some l') : l'.Ok depth ∧ l'.sent = l.sent := by
  obtain ⟨horder, hbound⟩ := h
  cases a with
  | take =>
    obtain ⟨queue, sending, stopped, sent, passed⟩ := l
    simp only [Lane.pump] at hpump
    split at hpump
    next msg rest _ =>
      simp only [ite_none_left_eq_some, Option.some.injEq] at hpump
      obtain ⟨-, rfl⟩ := hpump
      refine ⟨⟨?_, Nat.le_trans (Nat.le_succ _) hbound⟩, rfl⟩
      rwa [append_assoc]
    · cases hpump
  | sendDone | stop =>
    simp only [Lane.pump, ite_none_right_eq_some, Option.some.injEq] at hpump
    obtain ⟨-, rfl⟩ := hpump
    exact ⟨⟨horder, hbound⟩, rfl⟩

/-! ## A peer's view -/

namespace AsyncTransport

variable {dest : μ → π} {depth : ℕ} {t t' : AsyncTransport π μ} {as : List (TransportAction π μ)}
  {a : TransportAction π μ} {p : π}

/-- What a peer sees of the transport: its lane, and whether the transport is closed. -/
def view (p : π) (t : AsyncTransport π μ) : Option (Lane μ) × Bool := (t.queues p, t.cancelled)

/-- The actions that concern a peer. -/
def concerns (dest : μ → π) (p : π) : TransportAction π μ → Bool
  | .send msg => dest msg = p
  | .pump q _ => q = p
  | .cancel => true

/-- What an action that concerns a peer does to its view. -/
def viewStep (depth : ℕ) (v : Option (Lane μ) × Bool) :
    TransportAction π μ → Option (Option (Lane μ) × Bool)
  | .send msg => some (v.1.map (Lane.send depth · msg), v.2)
  | .pump _ a => (v.1.bind (Lane.pump v.2 · a)).map fun l => (some l, v.2)
  | .cancel => some (v.1, true)

theorem view_step (depth : ℕ) (ha : concerns dest p a = true) (t : AsyncTransport π μ) :
    (t.step dest depth a).map (view p) = viewStep depth (t.view p) a := by
  cases a with
  | send msg =>
    obtain rfl : dest msg = p := by simpa [concerns] using ha
    cases hl : t.queues (dest msg) <;> simp [step, view, viewStep, setLane, hl]
  | pump q a =>
    obtain rfl : q = p := by simpa [concerns] using ha
    cases hl : t.queues q with
    | none => simp [step, view, viewStep, hl]
    | some l =>
      cases hpump : l.pump t.cancelled a <;> simp [step, view, viewStep, setLane, hl, hpump]
  | cancel => rfl

theorem view_of_step (ha : concerns dest p a = false) (hstep : t.step dest depth a = some t') :
    t'.view p = t.view p := by
  cases a with
  | send msg =>
    have hto : dest msg ≠ p := by simpa [concerns] using ha
    simp only [step] at hstep
    split at hstep <;> cases hstep
    · rfl
    · simp [view, setLane, Function.update_of_ne hto.symm]
  | pump q =>
    have hq : q ≠ p := by simpa [concerns] using ha
    obtain ⟨l, -, hstep⟩ := bind_eq_some_iff.mp hstep
    obtain ⟨l', -, rfl⟩ := map_eq_some_iff.mp hstep
    simp [view, setLane, Function.update_of_ne hq.symm]
  | cancel => cases ha

/-- A peer fares as it would if nothing were sent to the others and their pumps never moved: a dead
or a slow peer takes nothing from the rest, neither a message nor a step. -/
theorem peers_independent (hrun : Run (step dest depth) (fun _ _ => True) t as t') (p : π) :
    ∃ u, Run (step dest depth) (fun _ _ => True) t (as.filter (concerns dest p)) u ∧
      u.queues p = t'.queues p := by
  have hgen : ∀ u : AsyncTransport π μ, u.view p = t.view p →
      ∃ u', Run (step dest depth) (fun _ _ => True) u (as.filter (concerns dest p)) u' ∧
        u'.view p = t'.view p := by
    induction hrun with
    | nil => exact fun u hu => ⟨u, .nil _, hu⟩
    | @cons s s₁ _ a as _ hstep _ ih =>
      intro u hu
      cases ha : concerns dest p a with
      | true =>
        have hviews := view_step depth ha u
        rw [hu, ← view_step depth ha s, hstep, map_some] at hviews
        obtain ⟨u₁, hu₁, hview⟩ := map_eq_some_iff.mp hviews
        obtain ⟨u', hu', hend⟩ := ih u₁ hview
        exact ⟨u', by rw [filter_cons_of_pos ha]; exact .cons trivial hu₁ hu', hend⟩
      | false =>
        obtain ⟨u', hu', hend⟩ := ih u (hu.trans (view_of_step ha hstep).symm)
        exact ⟨u', by rwa [filter_cons_of_neg (by simp [ha])], hend⟩
  obtain ⟨u, hu, hend⟩ := hgen t rfl
  exact ⟨u, hu, congrArg Prod.fst hend⟩

/-! ## What a peer is sent -/

/-- What an action was to send to a peer. -/
def sends (dest : μ → π) (p : π) : TransportAction π μ → Option μ
  | .send msg => if dest msg = p then some msg else none
  | _ => none

variable {l : Lane μ}

theorem lane_of_step (hl : t.queues p = some l) (hok : l.Ok depth)
    (hstep : t.step dest depth a = some t') :
    ∃ l', t'.queues p = some l' ∧ l'.Ok depth ∧ l'.sent = l.sent ++ (sends dest p a).toList := by
  cases ha : concerns dest p a with
  | false =>
    have hnone : sends dest p a = none := by cases a <;> simp_all [concerns, sends]
    have hview := congrArg Prod.fst (view_of_step ha hstep)
    exact ⟨l, hview.trans hl, hok, by simp [hnone]⟩
  | true =>
    have hview := view_step depth ha t
    rw [hstep, map_some] at hview
    simp only [view, hl] at hview
    cases a with
    | send msg =>
      have hq := congrArg Prod.fst (Option.some.inj hview)
      refine ⟨l.send depth msg, hq, hok.send msg, ?_⟩
      have hto : dest msg = p := by simpa [concerns] using ha
      simp only [sends, hto, if_true, Lane.send]
      split_ifs <;> rfl
    | pump =>
      obtain ⟨l', hpump, heq⟩ := map_eq_some_iff.mp hview.symm
      obtain ⟨hok', hsent⟩ := hok.pump hpump
      exact ⟨l', (congrArg Prod.fst heq).symm, hok', by simp [sends, hsent]⟩
    | cancel => exact ⟨l, congrArg Prod.fst (Option.some.inj hview), hok, by simp [sends]⟩

theorem lane_of_run (hrun : Run (step dest depth) (fun _ _ => True) t as t')
    (hl : t.queues p = some l) (hok : l.Ok depth) :
    ∃ l', t'.queues p = some l' ∧ l'.Ok depth ∧
      l'.sent = l.sent ++ as.filterMap (sends dest p) := by
  induction hrun generalizing l with
  | nil => exact ⟨l, hl, hok, (append_nil _).symm⟩
  | @cons s s₁ _ a as _ hstep _ ih =>
    obtain ⟨l₁, hl₁, hok₁, hsent₁⟩ := lane_of_step hl hok hstep
    obtain ⟨l', hl', hok', hsent'⟩ := ih hl₁ hok₁
    refine ⟨l', hl', hok', ?_⟩
    rw [hsent', hsent₁, append_assoc, filterMap_cons]
    cases sends dest p a <;> rfl

/-- Whatever is sent, and however the sends of the pumps interleave and block, each peer is passed
messages that were sent to it, in the order in which they were sent and none of them twice, and no
more than `depth` wait. -/
theorem passed_in_order {peers : List π} (hp : p ∈ peers)
    (hrun : Run (step dest depth) (fun _ _ => True) (newAsyncTransport peers) as t) :
    ∃ l, t.queues p = some l ∧ (l.passed ++ l.queue).Sublist (as.filterMap (sends dest p)) ∧
      l.queue.length ≤ depth := by
  obtain ⟨l, hl, hok, hsent⟩ := lane_of_run hrun (l := {}) (if_pos hp)
    ⟨List.Sublist.refl _, Nat.zero_le _⟩
  refine ⟨l, hl, ?_, hok.bound⟩
  have horder := hok.order
  rwa [hsent, nil_append] at horder

/-- Two messages for a peer and one for another, whose pump never returns from its send. -/
def stuckPeer : List (TransportAction ℕ (ℕ × ℕ)) :=
  [.send (1, 10), .send (2, 20), .pump 2 .take, .send (1, 11), .send (1, 12), .pump 1 .take]

/-- With a queue of two, the third message is dropped. -/
theorem passed_in_order_stuckPeer :
    ∃ t, Run (step Prod.fst 2) (fun _ _ => True) (newAsyncTransport [1, 2]) stuckPeer t ∧
      (t.queues 1).map Lane.sent = some [(1, 10), (1, 11), (1, 12)] ∧
      ∃ l, t.queues 1 = some l ∧
        (l.passed ++ l.queue).Sublist (stuckPeer.filterMap (sends Prod.fst 1)) ∧
        l.queue.length ≤ 2 :=
  exists_run_of_exec
    (P := fun t => (t.queues 1).map Lane.sent = some [(1, 10), (1, 11), (1, 12)])
    (by decide +kernel) fun _ hrun h => ⟨h, passed_in_order (by decide) hrun⟩

theorem peers_independent_stuckPeer :
    ∃ t, Run (step Prod.fst 2) (fun _ _ => True) (newAsyncTransport [1, 2]) stuckPeer t ∧
      ∃ u, Run (step Prod.fst 2) (fun _ _ => True) (newAsyncTransport [1, 2])
          (stuckPeer.filter (concerns Prod.fst 1)) u ∧ u.queues 1 = t.queues 1 :=
  exists_run_of_exec (P := fun _ => True) (by decide +kernel)
    fun _ hrun _ => peers_independent hrun 1

end AsyncTransport

end

end ToyMQ.Replication
