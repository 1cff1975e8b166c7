import ToyMQ.Lib.Run
import Mathlib.Tactic.Cases

/-!
# Serving and shutting down

`Serve` accepts connections and starts a session for each; `Shutdown` closes the listener and waits
until `Serve` and all sessions are done. They meet in a wait group, in which `Serve` counts itself,
and in a once-guard through which the listener is closed, by `Shutdown` or by a goroutine of `Serve`
that watches the context.

`shutdown_drained`: when `Shutdown` was called on a server with a listener and has returned without
an error, nothing runs any more and nothing will. `shutdown_completes`: once the sessions have ended
it can return so, from wherever `Serve` is. The listener must be there before. A call that comes
first uses the guard up, and the listener that `Serve` then opens is never closed
(`early_shutdown_never_closes`).
-/

namespace ToyMQ.Server

open Lib

/-- `emfileBackoffMin`, in milliseconds. -/
def emfileBackoffMin : ℕ := 5

/-- `emfileBackoffMax`. -/
def emfileBackoffMax : ℕ := 1000

/-- Why `Serve` returns an error. -/
inductive ServeError where
  | listen
  | accept
deriving DecidableEq, Repr

/-- Where `Serve` is. -/
inductive ServeStage where
  | uncalled
  /-- It has counted itself, and is about to listen. -/
  | counted
  /-- It listens, and is about to set `listener`. -/
  | bound
  /-- It accepts, with the delay that the last accept has left. -/
  | accepting (backoff : ℕ)
  /-- It has a connection, and is about to count and start its session. -/
  | accepted
  /-- It sleeps, having run out of descriptors. -/
  | sleeping (delay : ℕ)
  /-- It has left the loop, has cancelled the watcher's context and waits for the watcher. -/
  | leaving (err : Option ServeError)
  /-- It is about to take itself out of the wait group. -/
  | finishing (err : Option ServeError)
  | returned (err : Option ServeError)
deriving DecidableEq, Repr

/-- Where `Shutdown` is. -/
inductive ShutdownStage where
  | uncalled
  /-- It waits for the goroutine that waits for the wait group, or for its context. -/
  | waiting
  /-- That goroutine is done. -/
  | drained
  /-- It has returned, without an error or with that of its context. -/
  | returned (ok : Bool)
deriving DecidableEq, Repr

inductive Socket where
  | none
  | listening
  | closed
deriving DecidableEq, Repr

/-- `Server`, with the goroutines of `Serve` and `Shutdown`. -/
structure ServerState where
  serve : ServeStage := .uncalled
  shutdown : ShutdownStage := .uncalled
  socket : Socket := .none
  /-- Whether `listener` is set. -/
  listener : Bool := false
  /-- Whether `closeOnce` was used. -/
  closeOnce : Bool := false
  /-- Whether the context of `Serve` was cancelled. -/
  cancelled : Bool := false
  /-- Whether the goroutine that watches the context runs. -/
  watching : Bool := false
  /-- The counter of `wg`. -/
  wg : ℕ := 0
  /-- The sessions that were counted and are about to start. -/
  spawned : ℕ := 0
  /-- The sessions that run: the gauge of active sessions. -/
  running : ℕ := 0
  /-- The sessions that have ended and are still counted. -/
  ended : ℕ := 0
deriving DecidableEq, Repr

inductive ServerAction where
  | serve
  | listen (ok : Bool)
  | publish
  | accept
  | spawn
  /-- `Accept` fails because the listener is closed. -/
  | acceptClosed
  /-- `Accept` fails for want of descriptors. -/
  | acceptEmfile
  /-- `Accept` fails for another reason. -/
  | acceptFatal
  | wake
  /-- The watcher finds its context done. -/
  | watch
  /-- `Serve` finds the watcher done. -/
  | unwatched
  | serveDone
  | sessionStart
  /-- A session's `Run` returns. -/
  | sessionEnd
  | sessionDone
  /-- The context of `Serve` is cancelled. -/
  | cancel
  | shutdown
  /-- The goroutine of `Shutdown` finds the wait group at zero. -/
  | drain
  | shutdownDone
  /-- The context of `Shutdown` is done first. -/
  | shutdownTimeout
deriving DecidableEq, Repr

/-- Whether `Serve` has left the loop, and has cancelled the context of the watcher. -/
def ServeStage.isLeaving : ServeStage → Bool
  | .leaving _ => true
  | _ => false

namespace ServerState

def new : ServerState := {}

/-- `closeListenerOnce`. -/
def closeListenerOnce (s : ServerState) : ServerState :=
  if s.closeOnce then s
  else { s with closeOnce := true, socket := if s.listener then .closed else s.socket }

def step (s : ServerState) : ServerAction → Option ServerState
  | .serve =>
    if s.serve = .uncalled then some { s with serve := .counted, wg := s.wg + 1 } else none
  | .listen ok =>
    if s.serve = .counted then
      if ok then some { s with serve := .bound, socket := .listening }
      else some { s with serve := .finishing (some .listen) }
    else none
  | .publish =>
    if s.serve = .bound then
      some { s with serve := .accepting 0, listener := true, watching := true }
    else none
  | .accept =>
    match s.serve with
    | .accepting _ => if s.socket = .listening then some { s with serve := .accepted } else none
    | _ => none
  | .spawn =>
    if s.serve = .accepted then
      some { s with serve := .accepting 0, wg := s.wg + 1, spawned := s.spawned + 1 }
    else none
  | .acceptClosed =>
    match s.serve with
    | .accepting _ => if s.socket = .closed then some { s with serve := .leaving none } else none
    | _ => none
  | .acceptEmfile =>
    match s.serve with
    | .accepting backoff =>
      some { s with serve := .sleeping (if backoff = 0 then emfileBackoffMin else backoff) }
    | _ => none
  | .acceptFatal =>
    match s.serve with
    | .accepting _ => some { s with serve := .leaving (some .accept) }
    | _ => none
  | .wake =>
    match s.serve with
    | .sleeping delay => some { s with serve := .accepting (min (delay * 2) emfileBackoffMax) }
    | _ => none
  | .watch =>
    if s.watching && (s.cancelled || s.serve.isLeaving) then
      some { s.closeListenerOnce with watching := false }
    else none
  | .unwatched =>
    match s.serve with
    | .leaving err => if s.watching then none else some { s with serve := .finishing err }
    | _ => none
  | .serveDone =>
    match s.serve with
    | .finishing err => some { s with serve := .returned err, wg := s.wg - 1 }
    | _ => none
  | .sessionStart =>
    if 0 < s.spawned then
      some { s with spawned := s.spawned - 1, running := s.running + 1 }
    else none
  | .sessionEnd =>
    if 0 < s.running then some { s with running := s.running - 1, ended := s.ended + 1 } else none
  | .sessionDone =>
    if 0 < s.ended then some { s with ended := s.ended - 1, wg := s.wg - 1 } else none
  | .cancel => some { s with cancelled := true }
  | .shutdown =>
    if s.shutdown = .uncalled then some { s.closeListenerOnce with shutdown := .waiting } else none
  | .drain =>
    if s.shutdown = .waiting ∧ s.wg = 0 then some { s with shutdown := .drained } else none
  | .shutdownDone =>
    if s.shutdown = .drained then some { s with shutdown := .returned true } else none
  | .shutdownTimeout =>
    if s.shutdown = .waiting ∨ s.shutdown = .drained then
      some { s with shutdown := .returned false }
    else none

end ServerState

/-! ## What every step keeps -/

/-- What `Serve` adds to the wait group. -/
def ServeStage.weight : ServeStage → ℕ
  | .uncalled => 0
  | .returned _ => 0
  | _ => 1

/-- Whether `Serve` has set `listener`. -/
def ServeStage.isSetUp : ServeStage → Bool
  | .uncalled => false
  | .counted => false
  | .bound => false
  | _ => true

/-- How many steps `Serve` takes at most from a stage on, with those of a session it starts. -/
def ServeStage.left : ServeStage → ℕ
  | .finishing _ => 1
  | .leaving _ => 2
  | .accepting _ => 3
  | .sleeping _ => 4
  | .accepted => 7
  | _ => 0

/-- The same for `Shutdown`. -/
def ShutdownStage.left : ShutdownStage → ℕ
  | .waiting => 2
  | .drained => 1
  | _ => 0

theorem ServeStage.eq_returned {stage : ServeStage} (hset : stage.isSetUp = true)
    (h : stage.weight = 0) : ∃ err, stage = .returned err := by
  cases stage with
  | uncalled => cases hset
  | returned err => exact ⟨err, rfl⟩
  | _ => cases h

namespace ServerState

/-- Nothing runs, and nothing will. -/
structure Over (s : ServerState) : Prop where
  serve : ∃ err, s.serve = .returned err
  spawned : s.spawned = 0
  running : s.running = 0
  ended : s.ended = 0

/-- `Shutdown` is called only once `Serve` has set the listener. -/
def Listens (s : ServerState) (a : ServerAction) : Prop := a = .shutdown → s.listener = true

instance (s : ServerState) (a : ServerAction) : Decidable (s.Listens a) :=
  inferInstanceAs (Decidable (_ → _))

structure Inv (s : ServerState) : Prop where
  wg : s.wg = s.serve.weight + s.spawned + s.running + s.ended
  listener : s.listener = true → s.serve.isSetUp = true
  watching : s.watching = true → s.listener = true
  /-- The guard is used on a listener. -/
  closed : s.closeOnce = true → s.listener = true ∧ s.socket = .closed
  called : s.shutdown ≠ .uncalled → s.closeOnce = true
  ended : s.shutdown = .drained ∨ s.shutdown = .returned true → s.Over

theorem inv_new : new.Inv :=
  ⟨rfl, nofun, nofun, nofun, fun h => absurd rfl h, fun h => by rcases h with h | h <;> cases h⟩

section

variable {s s' : ServerState} {a : ServerAction} {as : List ServerAction}

/-- Nothing can start again: `Serve` was called once and has returned. -/
theorem Over.of_step (h : s.Over) (hstep : s.step a = some s') : s'.Over := by
  obtain ⟨⟨err, hserve⟩, hspawned, hrunning, hended⟩ := h
  cases a <;> constructor <;> grind [step, closeListenerOnce]

theorem Inv.wg_of_step (h : s.Inv) (hstep : s.step a = some s') :
    s'.wg = s'.serve.weight + s'.spawned + s'.running + s'.ended := by
  have hwg := h.wg
  cases a <;> grind [step, closeListenerOnce, ServeStage.weight]

theorem Inv.listener_of_step (h : s.Inv) (hstep : s.step a = some s') :
    s'.listener = true → s'.serve.isSetUp = true := by
  have hlistener := h.listener
  cases a <;> grind [step, closeListenerOnce, ServeStage.isSetUp]

/-- The watcher and `Shutdown` find a listener, and `Serve` does not open another. -/
theorem Inv.closed_of_step (hok : s.Listens a) (h : s.Inv) (hstep : s.step a = some s') :
    s'.closeOnce = true → s'.listener = true ∧ s'.socket = .closed := by
  have hclosed := h.closed
  have hlistener := h.listener
  have hwatching := h.watching
  cases a <;> grind [step, closeListenerOnce, Listens, ServeStage.isSetUp]

theorem Inv.of_step (hok : s.Listens a) (h : s.Inv) (hstep : s.step a = some s') : s'.Inv where
  wg := h.wg_of_step hstep
  listener := h.listener_of_step hstep
  watching := by
    have hwatching := h.watching
    cases a <;> grind [step, closeListenerOnce]
  closed := h.closed_of_step hok hstep
  called := by
    have hcalled := h.called
    cases a <;> grind [step, closeListenerOnce]
  ended := by
    by_cases hdrain : a = .drain
    · -- The counter is zero and `Serve` was called, so that it has returned.
      subst hdrain
      simp only [step, Option.ite_none_right_eq_some, Option.some.injEq] at hstep
      obtain ⟨⟨hwaiting, hzero⟩, rfl⟩ := hstep
      have hwg := h.wg
      obtain ⟨hserve, hspawned, hrunning, hended⟩ :
          s.serve.weight = 0 ∧ s.spawned = 0 ∧ s.running = 0 ∧ s.ended = 0 := by omega
      have hset := h.listener (h.closed (h.called (by rw [hwaiting]; nofun))).1
      exact fun _ => ⟨ServeStage.eq_returned hset hserve, hspawned, hrunning, hended⟩
    · intro hs'
      refine (h.ended ?_).of_step hstep
      cases a <;> grind [step, closeListenerOnce]

theorem inv_of_run (hrun : Run step Listens new as s) : s.Inv :=
  hrun.invariant inv_new fun _ _ _ hok h hstep => h.of_step hok hstep

/-- When `Shutdown`, called on a server with a listener, has returned without an error, `Serve` has
returned and no session runs, and so it is in every later state: no connection that was accepted
before the listener was closed starts a session afterwards. -/
theorem shutdown_drained {bs : List ServerAction} (hrun : Run step Listens new as s)
    (hreturned : s.shutdown = .returned true) (hrest : Run step Listens s bs s') : s'.Over :=
  hrest.invariant ((inv_of_run hrun).ended (.inr hreturned)) fun _ _ _ _ h hstep => h.of_step hstep

/-- A connection is accepted before `Shutdown` closes the listener, and its session starts and ends
behind that. -/
def acceptedBefore : List ServerAction :=
  [.serve, .listen true, .publish, .acceptEmfile, .wake, .accept, .shutdown, .spawn, .sessionStart,
    .acceptClosed, .watch, .unwatched, .sessionEnd, .serveDone, .sessionDone, .drain, .shutdownDone]

theorem shutdown_drained_acceptedBefore :
    ∃ s, Run step Listens new acceptedBefore s ∧ s.shutdown = .returned true ∧
      ∀ bs s', Run step Listens s bs s' → s'.Over :=
  exists_run_of_exec (P := fun s => s.shutdown = .returned true) (by decide +kernel)
    fun _ hrun h => ⟨h, fun _ _ hrest => shutdown_drained hrun h hrest⟩

/-! ## Progress -/

/-- What the server's goroutines do without anything from outside but the ends of sessions. -/
def Own (_ : ServerState) (a : ServerAction) : Prop :=
  a ∈ [.spawn, .acceptClosed, .wake, .watch, .unwatched, .serveDone, .sessionStart, .sessionEnd,
    .sessionDone, .drain, .shutdownDone]

/-- How many such steps are left at most. -/
def left (s : ServerState) : ℕ :=
  s.serve.left + s.shutdown.left + 3 * s.spawned + 2 * s.running + s.ended + s.watching.toNat

theorem left_lt_of_own (hown : Own s a) (hstep : s.step a = some s') : s'.left < s.left := by
  simp only [Own, List.mem_cons, List.not_mem_nil, or_false] at hown
  obtain rfl | rfl | rfl | rfl | rfl | rfl | rfl | rfl | rfl | rfl | rfl := hown <;>
    grind [step, closeListenerOnce, left, ServeStage.left, ShutdownStage.left]

/-- Until `Shutdown` has returned, some goroutine can go on. -/
theorem exists_own_step (h : s.Inv) (hshutdown : s.shutdown = .waiting ∨ s.shutdown = .drained) :
    ∃ a, Own s a ∧ (s.step a).isSome := by
  rcases hshutdown with hwaiting | hdrained
  · have honce := h.called (by rw [hwaiting]; nofun)
    have hset := h.listener (h.closed honce).1
    by_cases hspawned : 0 < s.spawned
    · exact ⟨.sessionStart, by simp [Own], by simp [step, hspawned]⟩
    by_cases hrunning : 0 < s.running
    · exact ⟨.sessionEnd, by simp [Own], by simp [step, hrunning]⟩
    by_cases hended : 0 < s.ended
    · exact ⟨.sessionDone, by simp [Own], by simp [step, hended]⟩
    cases hserve : s.serve with
    | uncalled | counted | bound =>
      rw [hserve] at hset
      cases hset
    | accepting =>
      exact ⟨.acceptClosed, by simp [Own], by simp [step, hserve, (h.closed honce).2]⟩
    | accepted => exact ⟨.spawn, by simp [Own], by simp [step, hserve]⟩
    | sleeping => exact ⟨.wake, by simp [Own], by simp [step, hserve]⟩
    | leaving =>
      by_cases hwatching : s.watching = true
      · exact ⟨.watch, by simp [Own], by simp [step, hserve, hwatching, ServeStage.isLeaving]⟩
      · exact ⟨.unwatched, by simp [Own], by simp [step, hserve, hwatching]⟩
    | finishing => exact ⟨.serveDone, by simp [Own], by simp [step, hserve]⟩
    | returned =>
      have hwg := h.wg
      rw [hserve, ServeStage.weight] at hwg
      exact ⟨.drain, by simp [Own], by simp [step, hwaiting]; omega⟩
  · exact ⟨.shutdownDone, by simp [Own], by simp [step, hdrained]⟩

/-- From wherever a server is when `Shutdown` waits, its goroutines go on until `Shutdown` has
returned without an error, in whatever order they run, once the sessions end; provided that it was
called once the listener was set. -/
theorem shutdown_completes {bs : List ServerAction} (hrun : Run step Listens new as s)
    (hwaiting : s.shutdown = .waiting) (hown : Run step Own s bs s') :
    bs.length ≤ s.left ∧
      (s'.shutdown = .returned true ∨ ∃ a, Own s' a ∧ (s'.step a).isSome) := by
  have hinv := inv_of_run hrun
  have hstage : s.shutdown = .waiting ∨ s.shutdown = .drained ∨ s.shutdown = .returned true :=
    .inl hwaiting
  clear hrun hwaiting
  induction hown with
  | nil s =>
    refine ⟨Nat.zero_le _, ?_⟩
    rcases hstage with hw | hd | hr
    · exact .inr (exists_own_step hinv (.inl hw))
    · exact .inr (exists_own_step hinv (.inr hd))
    · exact .inl hr
  | @cons s t _ a bs hown hstep _ ih =>
    have hok : s.Listens a := by
      rintro rfl
      simp [Own] at hown
    have hstage' : t.shutdown = .waiting ∨ t.shutdown = .drained ∨ t.shutdown = .returned true := by
      simp only [Own, List.mem_cons, List.not_mem_nil, or_false] at hown
      cases a <;> grind [step, closeListenerOnce]
    obtain ⟨hlen, hend⟩ := ih (hinv.of_step hok hstep) hstage'
    have hlt := left_lt_of_own hown hstep
    exact ⟨by rw [List.length_cons]; omega, hend⟩

instance (s : ServerState) (a : ServerAction) : Decidable (Own s a) :=
  inferInstanceAs (Decidable (_ ∈ _))

/-- `Shutdown` is called while `Serve` sleeps and a session runs. -/
theorem shutdown_completes_sleeping :
    ∃ s, Run step Listens new [.serve, .listen true, .publish, .accept, .spawn, .sessionStart,
        .acceptEmfile, .shutdown] s ∧
      ∃ s', Run step Own s [.wake, .acceptClosed, .sessionEnd, .watch, .unwatched] s' ∧
        (5 ≤ s.left ∧
          (s'.shutdown = .returned true ∨ ∃ a, Own s' a ∧ (s'.step a).isSome)) := by
  refine exists_run_of_exec (P := fun s => s.shutdown = .waiting ∧
    (exec step Own s [.wake, .acceptClosed, .sessionEnd, .watch, .unwatched]).isSome)
    (by decide +kernel) ?_
  rintro s hrun ⟨hwaiting, hexec⟩
  obtain ⟨s', hs'⟩ := Option.isSome_iff_exists.mp hexec
  exact ⟨s', run_of_exec hs', shutdown_completes hrun hwaiting (run_of_exec hs')⟩

/-! ## A call that comes too early -/

/-- `Serve` is on its way out because the listener was closed, or has returned for that reason. -/
def quits (s : ServerState) : Prop :=
  s.serve = .leaving none ∨ s.serve = .finishing none ∨ s.serve = .returned none

/-- Only a listener that is set is closed, and `Serve` returns nil only then. -/
structure Faithful (s : ServerState) : Prop where
  listener : s.socket = .closed → s.listener = true
  closed : s.quits → s.socket = .closed

theorem Faithful.of_step (h : s.Faithful) (hstep : s.step a = some s') : s'.Faithful := by
  obtain ⟨hlistener, hclosed⟩ := h
  constructor <;> cases a <;> grind [step, closeListenerOnce, quits]

/-- Once the guard is used, the socket is not closed any more. -/
theorem open_of_step (hused : s.closeOnce = true) (hopen : s.socket ≠ .closed)
    (hstep : s.step a = some s') : s'.closeOnce = true ∧ s'.socket ≠ .closed := by
  cases a <;> grind [step, closeListenerOnce]

/-- When `Shutdown` is called before the listener is set, the listener is never closed: `Serve` does
not return but for an error, whatever happens then. -/
theorem early_shutdown_never_closes {t : ServerState} {bs : List ServerAction}
    (hrun : Run step (fun _ _ => True) new as s) (hearly : s.listener = false)
    (hcall : s.step .shutdown = some t) (hrest : Run step (fun _ _ => True) t bs s') :
    s'.socket ≠ .closed ∧ s'.serve ≠ .returned none := by
  have hs : s.Faithful := hrun.invariant ⟨nofun, by simp [quits, new]⟩
    fun _ _ _ _ h hstep => h.of_step hstep
  have hopen : s.socket ≠ .closed := fun hclosed => by simp [hs.listener hclosed] at hearly
  have ht : t.closeOnce = true ∧ t.socket ≠ .closed := by
    simp only [step, closeListenerOnce, Option.ite_none_right_eq_some, Option.some.injEq] at hcall
    obtain ⟨-, rfl⟩ := hcall
    split_ifs with hused <;> simp_all
  obtain ⟨hfaithful, -, hend⟩ := hrest.invariant
    (I := fun s => s.Faithful ∧ s.closeOnce = true ∧ s.socket ≠ .closed)
    ⟨hs.of_step hcall, ht⟩
    fun _ _ _ _ h hstep => ⟨h.1.of_step hstep, open_of_step h.2.1 h.2.2 hstep⟩
  exact ⟨hend, fun hnil => hend (hfaithful.closed (.inr (.inr hnil)))⟩

/-- A call before `Serve` returns at once, and the session that is accepted afterwards is served. -/
theorem early_shutdown_never_closes_unserved :
    ∃ s, Run step (fun _ _ => True) new [] s ∧ s.listener = false ∧
      ∃ t, s.step .shutdown = some t ∧
        ∃ s', Run step (fun _ _ => True) t [.drain, .shutdownDone, .serve, .listen true, .publish,
            .accept, .spawn, .sessionStart] s' ∧
          s'.shutdown = .returned true ∧ s'.running = 1 ∧
          s'.socket ≠ .closed ∧ s'.serve ≠ .returned none := by
  refine ⟨new, .nil _, rfl, _, rfl, exists_run_of_exec
    (P := fun s => s.shutdown = .returned true ∧ s.running = 1) (by decide +kernel) ?_⟩
  rintro s' hrest ⟨hshutdown, hrunning⟩
  exact ⟨hshutdown, hrunning, early_shutdown_never_closes (.nil _) rfl rfl hrest⟩

end

end ServerState

end ToyMQ.Server
