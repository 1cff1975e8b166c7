import ToyMQ.Client.Cancel

/-!
# Draining the pending queue

When a connection is lost, `drainErr` resolves every request that waits. It sends under the queue's
lock, as `deliver` does, on channels that hold one frame: were a channel full, the read loop would
block there for good, and with it every caller. `frames_never_block` shows that this does not
happen, however pushes, cancellations, responses and drains are interleaved: a request leaves the
queue when it is sent a frame, so that it is sent no other, and after a drain none waits without
one.
-/

namespace ToyMQ.Client

open Lib Server List Option

/-- The loop of `drainErr`; none when a send blocks. -/
def drainTo (f : Frame) : List ℕ → List PendingReq → Option (List PendingReq)
  | [], reqs => some reqs
  | id :: rest, reqs =>
    match reqs[id]? with
    | some ⟨_, true⟩ => drainTo f rest reqs
    | some ⟨none, false⟩ => drainTo f rest (reqs.modify id fun p => { p with resp := some f })
    | _ => none

/-- The queue, with the requests that have taken a frame from their channel, the latest first. -/
structure Mailbox where
  pending : Pending
  received : List ℕ
deriving DecidableEq, Repr

inductive MailAction where
  | push
  | cancel (id : ℕ)
  | deliver (f : Frame)
  | drainErr (f : Frame)
  /-- The caller takes the frame from its channel. -/
  | receive (id : ℕ)
deriving DecidableEq, Repr

namespace Mailbox

def new : Mailbox := ⟨⟨[], []⟩, []⟩

/-- Whether the channel of a request holds a frame. -/
def full (m : Mailbox) (id : ℕ) : Bool := (m.pending.reqs[id]?.bind PendingReq.resp).isSome

/-- A step; none also when it blocks. -/
def step (m : Mailbox) : MailAction → Option Mailbox
  | .push => some { m with pending := m.pending.push }
  | .cancel id => some { m with pending := m.pending.cancel id }
  | .deliver f =>
    if m.pending.receiver?.any m.full then none
    else some { m with pending := m.pending.deliver f }
  | .drainErr f =>
    (drainTo f m.pending.queue m.pending.reqs).map fun reqs => { m with pending := ⟨reqs, []⟩ }
  | .receive id =>
    if m.full id then
      some ⟨⟨m.pending.reqs.modify id fun p => { p with resp := none }, m.pending.queue⟩,
        id :: m.received⟩
    else none

/-- What holds of the requests, where `ids` are those that wait in the queue and those that have
taken a frame: their channels are empty, and all others are cancelled or have a frame. -/
structure Sound (reqs : List PendingReq) (ids : List ℕ) : Prop where
  nodup : ids.Nodup
  empty : ∀ id ∈ ids, ∃ p, reqs[id]? = some p ∧ p.resp = none
  answered : ∀ id p, reqs[id]? = some p → id ∉ ids → p.cancelled = true ∨ p.resp.isSome

namespace Sound

variable {reqs : List PendingReq} {ids ids' : List ℕ} {id : ℕ} {p : PendingReq}

theorem perm (h : Sound reqs ids) (hperm : ids.Perm ids') : Sound reqs ids' :=
  ⟨hperm.nodup_iff.mp h.nodup, fun id hid => h.empty id (hperm.mem_iff.mpr hid),
    fun id p hp hid => h.answered id p hp fun hmem => hid (hperm.mem_iff.mp hmem)⟩

/-- A request that was cancelled leaves the queue without a frame. -/
theorem skip (h : Sound reqs (id :: ids)) (hp : reqs[id]? = some p)
    (hcancelled : p.cancelled = true) : Sound reqs ids := by
  refine ⟨h.nodup.of_cons, fun j hj => h.empty j (mem_cons_of_mem _ hj), fun j q hq hj => ?_⟩
  by_cases heq : j = id
  · subst heq
    exact .inl (Option.some.inj (hp.symm.trans hq) ▸ hcancelled)
  · exact h.answered j q hq fun hmem => (mem_cons.mp hmem).elim heq hj

/-- Any other leaves it with a frame. -/
theorem send (h : Sound reqs (id :: ids)) (f : Frame) :
    Sound (reqs.modify id fun p => { p with resp := some f }) ids := by
  refine ⟨h.nodup.of_cons, fun j hj => ?_, fun j q hq hj => ?_⟩
  · have hne : id ≠ j := fun heq => (nodup_cons.mp h.nodup).1 (heq ▸ hj)
    obtain ⟨p, hp, hnone⟩ := h.empty j (mem_cons_of_mem _ hj)
    exact ⟨p, (getElem?_modify_ne _ _ hne).trans hp, hnone⟩
  · by_cases heq : id = j
    · rw [heq, getElem?_modify_eq] at hq
      obtain ⟨p, -, rfl⟩ := map_eq_some_iff.mp hq
      exact .inr rfl
    · rw [getElem?_modify_ne _ _ heq] at hq
      exact h.answered j q hq fun hmem => (mem_cons.mp hmem).elim (Ne.symm heq) hj

/-- A caller takes its frame. It has taken none before, or its channel would be empty. -/
theorem receive (h : Sound reqs ids) (hp : reqs[id]? = some p) (hfull : p.resp.isSome) :
    Sound (reqs.modify id fun p => { p with resp := none }) (id :: ids) := by
  have hne : ∀ j ∈ ids, id ≠ j := by
    rintro _ hj rfl
    obtain ⟨q, hq, hnone⟩ := h.empty id hj
    obtain rfl : p = q := Option.some.inj (hp.symm.trans hq)
    simp [hnone] at hfull
  refine ⟨nodup_cons.mpr ⟨fun hid => hne id hid rfl, h.nodup⟩, fun j hj => ?_,
    fun j q hq hj => ?_⟩
  · rcases mem_cons.mp hj with rfl | hj
    · exact ⟨{ p with resp := none }, by rw [getElem?_modify_eq, hp]; rfl, rfl⟩
    · obtain ⟨q, hq, hnone⟩ := h.empty j hj
      exact ⟨q, (getElem?_modify_ne _ _ (hne j hj)).trans hq, hnone⟩
  · obtain ⟨heq, hj⟩ := not_or.mp (mt mem_cons.mpr hj)
    rw [getElem?_modify_ne _ _ (Ne.symm heq)] at hq
    exact h.answered j q hq hj

theorem push (h : Sound reqs ids) : Sound (reqs ++ [⟨none, false⟩]) (reqs.length :: ids) := by
  have hlt : ∀ j ∈ ids, j < reqs.length := fun j hj => by
    obtain ⟨p, hp, -⟩ := h.empty j hj
    exact (List.getElem?_eq_some_iff.mp hp).1
  refine ⟨nodup_cons.mpr ⟨fun hmem => (hlt _ hmem).ne rfl, h.nodup⟩, fun j hj => ?_,
    fun j q hq hj => ?_⟩
  · rcases mem_cons.mp hj with rfl | hj
    · exact ⟨_, getElem?_concat_length, rfl⟩
    · obtain ⟨p, hp, hnone⟩ := h.empty j hj
      exact ⟨p, (getElem?_append_left (hlt j hj)).trans hp, hnone⟩
  · obtain ⟨heq, hj⟩ := not_or.mp (mt mem_cons.mpr hj)
    rcases Pending.getElem?_push (q := ⟨reqs, []⟩) hq with hq | ⟨hlen, -⟩
    · exact h.answered j q hq hj
    · exact absurd hlen heq

theorem cancel (h : Sound reqs ids) (id : ℕ) :
    Sound (reqs.modify id fun p => { p with cancelled := true }) ids := by
  refine ⟨h.nodup, fun j hj => ?_, fun j q hq hj => ?_⟩
  · obtain ⟨p, hp, hnone⟩ := h.empty j hj
    refine ⟨_, (getElem?_modify _ _ _ _).trans (congrArg _ hp), ?_⟩
    split_ifs <;> exact hnone
  · rw [getElem?_modify] at hq
    obtain ⟨p, hp, rfl⟩ := map_eq_some_iff.mp hq
    split_ifs
    · exact .inl rfl
    · exact h.answered j p hp hj

variable {queue : List ℕ}

theorem deliverTo (h : Sound reqs (ids ++ queue)) (f : Frame) :
    Sound (deliverTo reqs f queue).reqs (ids ++ (deliverTo reqs f queue).queue) := by
  induction queue with
  | nil => exact h
  | cons head rest ih =>
    have h' := h.perm perm_middle
    obtain ⟨p, hp, -⟩ := h'.empty head mem_cons_self
    rw [Client.deliverTo, hp, map_some, getD_some]
    split_ifs with hcancelled
    · exact ih (h'.skip hp hcancelled)
    · exact h'.send f

/-- The loop of `drainErr` comes to its end. -/
theorem drainTo (h : Sound reqs (ids ++ queue)) (f : Frame) :
    ∃ reqs', drainTo f queue reqs = some reqs' ∧ Sound reqs' (ids ++ []) := by
  induction queue generalizing reqs with
  | nil => exact ⟨reqs, rfl, h⟩
  | cons head rest ih =>
    have h' := h.perm perm_middle
    obtain ⟨⟨resp, cancelled⟩, hp, rfl⟩ := h'.empty head mem_cons_self
    rw [Client.drainTo, hp]
    cases cancelled with
    | true => exact ih (h'.skip hp rfl)
    | false => exact ih (h'.send f)

end Sound

def Ok (m : Mailbox) : Prop := Sound m.pending.reqs (m.received ++ m.pending.queue)

variable {m m' : Mailbox} {as : List MailAction}

theorem Ok.of_step {a : MailAction} (h : m.Ok) (hstep : m.step a = some m') : m'.Ok := by
  cases a with
  | push =>
    cases hstep
    refine (Sound.push h).perm ?_
    dsimp only [Pending.push]
    rw [← append_assoc]
    exact (perm_append_singleton _ _).symm
  | cancel id =>
    cases hstep
    exact Sound.cancel h id
  | deliver f =>
    simp only [step, ite_none_left_eq_some, Option.some.injEq] at hstep
    obtain ⟨-, rfl⟩ := hstep
    exact Sound.deliverTo h f
  | drainErr f =>
    obtain ⟨reqs, hreqs, hsound⟩ := Sound.drainTo h f
    rw [step, hreqs, map_some, Option.some.injEq] at hstep
    exact hstep ▸ hsound
  | receive id =>
    simp only [step, ite_none_right_eq_some, Option.some.injEq] at hstep
    obtain ⟨hfull, rfl⟩ := hstep
    unfold full at hfull
    cases hp : m.pending.reqs[id]? with
    | none => simp [hp] at hfull
    | some => exact Sound.receive h hp (by simpa [hp] using hfull)

/-- However the calls, the responses and the loss of the connection are interleaved, neither
`deliver` nor `drainErr` blocks, no request takes two frames, and after a drain every request that
was not cancelled has a frame or has taken it. -/
theorem frames_never_block (hrun : Run step (fun _ _ => True) new as m) (f : Frame) :
    (m.step (.deliver f)).isSome ∧ m.received.Nodup ∧
      ∃ m', m.step (.drainErr f) = some m' ∧ ∀ id p, m'.pending.reqs[id]? = some p →
        p.cancelled = true ∨ p.resp.isSome ∨ id ∈ m'.received := by
  have h : m.Ok := hrun.invariant (⟨nodup_nil, nofun, nofun⟩ : Ok new)
    fun _ _ _ _ h hstep => h.of_step hstep
  refine ⟨?_, h.nodup.of_append_left, ?_⟩
  · -- The receiver is in the queue, and its channel is empty.
    have hfree : ¬ m.pending.receiver?.any m.full = true := by
      intro hany
      obtain ⟨id, hid, hfull⟩ := (Option.any_eq_true _ _).mp hany
      obtain ⟨p, hp, hnone⟩ :=
        h.empty id (mem_append_right _ (mem_of_find?_eq_some hid))
      simp [full, hp, hnone] at hfull
    rw [step, if_neg hfree]
    rfl
  · obtain ⟨reqs, hreqs, hsound⟩ := Sound.drainTo h f
    refine ⟨⟨⟨reqs, []⟩, m.received⟩, by rw [step, hreqs, map_some], fun id p hp => ?_⟩
    by_cases hid : id ∈ m.received
    · exact .inr (.inr hid)
    · exact (hsound.answered id p hp (by rwa [append_nil])).imp_right .inl

/-- Three requests, of which one is answered and one cancelled, when the connection is lost. -/
theorem frames_never_block_lost :
    ∃ m, Run step (fun _ _ => True) new [.push, .push, .push, .deliver (.ok 7), .cancel 1] m ∧
      m.pending.queue = [1, 2] ∧
      ((m.step (.deliver (.ok 0))).isSome ∧ m.received.Nodup ∧
        ∃ m', m.step (.drainErr (.ok 0)) = some m' ∧ ∀ id p, m'.pending.reqs[id]? = some p →
          p.cancelled = true ∨ p.resp.isSome ∨ id ∈ m'.received) :=
  exists_run_of_exec (P := fun m => m.pending.queue = [1, 2]) (by decide +kernel)
    fun _ hrun h => ⟨h, frames_never_block hrun _⟩

end Mailbox

end ToyMQ.Client
