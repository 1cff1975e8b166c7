import Mathlib.Data.List.Basic

/-!
# Runs of a partial step function

A system is a state type with a step function that says, for an action, which state follows or
that the action is not enabled. `Run step ok s as s'` is a run from `s` to `s'` along the actions
`as`, in which every step satisfies the predicate `ok` on the state before it and its action. The
predicate is where an environment assumption (no I/O error) or a condition on the states of a run
is stated. `Run.invariant` is the induction principle that every safety result uses. `exec` computes
a run, so that a concrete one is found by evaluation (`decidableExistsRun`).
-/

namespace ToyMQ.Lib

/-- A run from `s` along the actions `as`, each of them enabled and meeting `ok`. -/
inductive Run {σ α : Type*} (step : σ → α → Option σ) (ok : σ → α → Prop) :
    σ → List α → σ → Prop where
  | nil (s : σ) : Run step ok s [] s
  | cons {s s' s'' : σ} {a : α} {as : List α} (hok : ok s a) (hstep : step s a = some s')
      (hrun : Run step ok s' as s'') : Run step ok s (a :: as) s''

namespace Run

variable {σ α : Type*} {step : σ → α → Option σ} {ok ok' : σ → α → Prop} {s s' s'' : σ}
  {as bs : List α}

/-- A run of one step. -/
theorem single {a : α} (hok : ok s a) (hstep : step s a = some s') : Run step ok s [a] s' :=
  .cons hok hstep (.nil s')

/-- Runs compose. -/
theorem trans (h : Run step ok s as s') (h' : Run step ok s' bs s'') :
    Run step ok s (as ++ bs) s'' := by
  induction h with
  | nil => exact h'
  | cons hok hstep _ ih => exact .cons hok hstep (ih h')

/-- A run along two lists of actions passes through a state between them. -/
theorem split (h : Run step ok s (as ++ bs) s'') :
    ∃ s', Run step ok s as s' ∧ Run step ok s' bs s'' := by
  induction as generalizing s with
  | nil => exact ⟨s, .nil s, h⟩
  | cons a as ih =>
    cases h with
    | cons hok hstep hrun =>
      obtain ⟨t, has, hbs⟩ := ih hrun
      exact ⟨t, .cons hok hstep has, hbs⟩

/-- A run under a predicate is a run under a weaker one. -/
theorem mono (h : Run step ok s as s') (himp : ∀ s a, ok s a → ok' s a) :
    Run step ok' s as s' := by
  induction h with
  | nil s => exact .nil s
  | cons hok hstep _ ih => exact .cons (himp _ _ hok) hstep ih

/-- What holds at the start of a run and is preserved by each of its steps holds at its end. -/
theorem invariant {I : σ → Prop} (h : Run step ok s as s') (hs : I s)
    (hstep : ∀ s a s', ok s a → I s → step s a = some s' → I s') : I s' := by
  induction h with
  | nil => exact hs
  | cons hok hst _ ih => exact ih (hstep _ _ _ hok hs hst)

end Run

/-- The state that the actions `as` lead to, when each of them is enabled and meets `ok`. -/
def exec {σ α : Type*} (step : σ → α → Option σ) (ok : σ → α → Prop)
    [∀ s a, Decidable (ok s a)] : σ → List α → Option σ
  | s, [] => some s
  | s, a :: as => if ok s a then (step s a).bind fun s' => exec step ok s' as else none

variable {σ α : Type*} {ok : σ → α → Prop} {as : List α} {s : σ}

/-- What `exec` computes is a run. -/
theorem run_of_exec {step : σ → α → Option σ} [∀ s a, Decidable (ok s a)] {s' : σ}
    (h : exec step ok s as = some s') : Run step ok s as s' := by
  induction as generalizing s with
  | nil =>
    cases h
    exact .nil _
  | cons a as ih =>
    rw [exec] at h
    split_ifs at h with hok
    obtain ⟨t, ht, hrest⟩ := Option.bind_eq_some_iff.mp h
    exact .cons hok ht (ih hrest)

/-- `exec` computes every run. -/
theorem exec_of_run {step : σ → α → Option σ} [∀ s a, Decidable (ok s a)] {s' : σ}
    (h : Run step ok s as s') : exec step ok s as = some s' := by
  induction h with
  | nil => rfl
  | cons hok hstep _ ih => rw [exec, if_pos hok, hstep, Option.bind_some, ih]

/-- A run to a state with a decidable property is found by evaluating it. -/
instance decidableExistsRun {step : σ → α → Option σ} [∀ s a, Decidable (ok s a)] {P : σ → Prop}
    [DecidablePred P] : Decidable (∃ s', Run step ok s as s' ∧ P s') :=
  decidable_of_iff ((exec step ok s as).any (fun s' => decide (P s')) = true) <| by
    simp only [Option.any_eq_true, decide_eq_true_eq]
    exact exists_congr fun s' => and_congr_left fun _ => ⟨run_of_exec, exec_of_run⟩

/-- So is a call that returns a value with a decidable property. -/
instance decidableExistsOk {ε : Type*} {x : Except ε α} {P : α → Prop} [DecidablePred P] :
    Decidable (∃ a, x = .ok a ∧ P a) :=
  decidable_of_iff (x.toOption.any (fun a => decide (P a)) = true) <| by
    cases x <;> simp [Except.toOption]

/-- A run that `exec` computes, with what was evaluated of its last state and what follows from
that. -/
theorem exists_run_of_exec {step : σ → α → Option σ} [∀ s a, Decidable (ok s a)] {P Q : σ → Prop}
    [DecidablePred P] (h : (exec step ok s as).any (fun s' => decide (P s')) = true)
    (hQ : ∀ s', Run step ok s as s' → P s' → Q s') : ∃ s', Run step ok s as s' ∧ Q s' := by
  obtain ⟨s', hs', hP⟩ := (Option.any_eq_true _ _).mp h
  exact ⟨s', run_of_exec hs', hQ s' (run_of_exec hs') (of_decide_eq_true hP)⟩

/-- A call that was evaluated to a value has returned it. -/
theorem ok_of_toOption {ε : Type*} {x : Except ε α} {a : α} (h : x.toOption = some a) :
    x = .ok a := by
  cases x with
  | error => cases h
  | ok =>
    cases h
    rfl

end ToyMQ.Lib
