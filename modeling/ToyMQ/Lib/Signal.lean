import ToyMQ.Lib.Run

/-!
# Waiting for a signal with one slot

A goroutine that waits for a condition tests it, blocks on a channel with one slot, and tests it
again when it has received. Whoever may have made the condition true sends without blocking, so
that a send is lost while the slot is full. A `Signal` says, for such a system, who is blocked, for
whom the condition holds, and when there is something to receive or about to be sent.

`Signal.Awake` is what such a channel is for: no waiter is blocked while its condition holds, unless
there is something to receive. `Signal.Step` lists the ways in which a step keeps it, and
`Signal.awake_of_run` takes it along a run.
-/

namespace ToyMQ.Lib

/-- A system with waiters that block on one signal. -/
structure Signal (σ ι : Type*) where
  /-- The waiter is blocked. -/
  blocked : σ → ι → Prop
  /-- What the waiter waits for is there. -/
  ready : σ → ι → Prop
  /-- There is something to receive, or somebody is about to send. -/
  pending : σ → Prop

namespace Signal

variable {σ ι α : Type*}

/-- Nobody waits for what is there, unless a signal is pending. -/
def Awake (w : Signal σ ι) (s : σ) : Prop := ∀ i, w.blocked s i → w.ready s i → w.pending s

/-- What a step may do. -/
inductive Step (w : Signal σ ι) (s s' : σ) : Prop where
  /-- A signal is pending afterwards. -/
  | sent (h : w.pending s')
  /-- The signal stays, and nobody has come to wait for what is there. -/
  | quiet (hpending : w.pending s → w.pending s')
      (h : ∀ i, w.blocked s' i → w.ready s' i → w.blocked s i ∧ w.ready s i)
  /-- Nobody waits for what is there. The signal may be gone. -/
  | taken (h : ∀ i, w.blocked s' i → ¬ w.ready s' i)

variable {w : Signal σ ι}

variable {s s' : σ}

theorem Awake.of_step (h : w.Awake s) (hstep : w.Step s s') : w.Awake s' := by
  intro i hblocked hready
  cases hstep with
  | sent hpending => exact hpending
  | quiet hpending hbefore =>
    obtain ⟨hblocked', hready'⟩ := hbefore i hblocked hready
    exact hpending (h i hblocked' hready')
  | taken hnone => exact absurd hready (hnone i hblocked)

/-- Along a run with a further invariant. -/
theorem awake_of_run {step : σ → α → Option σ} {ok : σ → α → Prop} {I : σ → Prop} {as : List α}
    (hrun : Run step ok s as s') (hI : I s) (h : w.Awake s)
    (hstep : ∀ s a s', ok s a → I s → step s a = some s' → I s' ∧ w.Step s s') : w.Awake s' := by
  have hboth : I s' ∧ w.Awake s' := by
    refine hrun.invariant (I := fun s => I s ∧ w.Awake s) ⟨hI, h⟩ fun t a t' hok ht ht' => ?_
    obtain ⟨hI', hkeeps⟩ := hstep t a t' hok ht.1 ht'
    exact ⟨hI', ht.2.of_step hkeeps⟩
  exact hboth.2

end Signal

end ToyMQ.Lib
