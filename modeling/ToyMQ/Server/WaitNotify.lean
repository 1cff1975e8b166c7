import ToyMQ.Lib.Signal
import ToyMQ.Server.WaitBarrier

/-!
# Waking the calls at the replication barrier

A call of `waitForReplication` counts the followers that hold its entry. When there are too few of
them it blocks until the raft node reports progress, its time is up or its context is cancelled, and
counts again. The node has one channel with one slot for these reports, which all calls receive
from: a report wakes one call, whichever takes it.

A call that takes the report may not be the one it was for. In `second_waiter_stranded` two calls
wait for the same entry, and the progress that satisfies both wakes only the first of them.
`no_lost_wakeup_alone` says when every call that can return is woken: a call takes the report only
while no other blocked call has its followers, as is the case for a single call.
-/

namespace ToyMQ.Server

open Lib Option

/-! ## The model -/

/-- Where a call of `waitForReplication` is. -/
inductive WaitPhase where
  /-- About to count its followers. -/
  | checking
  /-- In its `select`. -/
  | selecting
  /-- Returned, with its followers. -/
  | satisfied
  /-- Returned `ErrWaitTimeout`. -/
  | timedOut
deriving DecidableEq, Repr

/-- A call of `waitForReplication`. -/
structure WaitCall where
  raftIndex : UInt64
  n : ℤ
  phase : WaitPhase
deriving DecidableEq, Repr

structure WaitRoom where
  nodeID : Bytes
  matchIndex : MatchIndex
  /-- Whether the slot of `NotifyC` is full. -/
  notify : Bool
  calls : List WaitCall

/-- A step. -/
inductive WaitAction where
  /-- `waitForReplication` is called. -/
  | begin (raftIndex : UInt64) (n : ℤ)
  /-- A call counts its followers, and returns or goes on to its `select`. -/
  | check (i : ℕ)
  /-- A call receives from `NotifyC`. -/
  | receive (i : ℕ)
  /-- The time of a call is up, or its context is cancelled. -/
  | expire (i : ℕ)
  /-- The raft node has news of its peers, and reports them without blocking. -/
  | progress (matchIndex : MatchIndex)

namespace WaitRoom

def Met (s : WaitRoom) (call : WaitCall) : Prop :=
  call.n ≤ followerAckCount s.nodeID s.matchIndex call.raftIndex

instance (s : WaitRoom) (call : WaitCall) : Decidable (s.Met call) :=
  inferInstanceAs (Decidable (_ ≤ _))

def setPhase (s : WaitRoom) (i : ℕ) (phase : WaitPhase) : WaitRoom :=
  { s with calls := s.calls.modify i fun call => { call with phase := phase } }

def step (s : WaitRoom) : WaitAction → Option WaitRoom
  | .begin raftIndex n => some { s with calls := s.calls ++ [⟨raftIndex, n, .checking⟩] }
  | .check i =>
    s.calls[i]?.bind fun call =>
      if call.phase ≠ .checking then none
      else if s.Met call then some (s.setPhase i .satisfied)
      else some (s.setPhase i .selecting)
  | .receive i =>
    -- The one token goes to this call, whoever else is in its select.
    s.calls[i]?.bind fun call =>
      if call.phase = .selecting ∧ s.notify then
        some { s.setPhase i .checking with notify := false }
      else none
  | .expire i =>
    s.calls[i]?.bind fun call =>
      if call.phase = .selecting then some (s.setPhase i .timedOut) else none
  -- The send does not block: with a token in the slot, nothing is added.
  | .progress matchIndex => some { s with matchIndex := matchIndex, notify := true }

/-- When the step is a receive, no other blocked call has its followers. -/
def Alone (s : WaitRoom) : WaitAction → Prop
  | .receive i => ∀ j < s.calls.length, j ≠ i → ∀ call ∈ s.calls[j]?,
      call.phase = .selecting → ¬ s.Met call
  | _ => True

instance (s : WaitRoom) (a : WaitAction) : Decidable (s.Alone a) := by
  unfold Alone
  split <;> infer_instance

/-! ## Who is woken -/

/-- The calls in their `select`, and the reports of progress. -/
def signal : Signal WaitRoom ℕ where
  blocked s i := ∃ call, s.calls[i]? = some call ∧ call.phase = .selecting
  ready s i := ∃ call, s.calls[i]? = some call ∧ s.Met call
  pending s := s.notify = true

variable {s s' : WaitRoom} {a : WaitAction} {i j : ℕ} {call : WaitCall}

/-- The calls after one of them has moved. -/
theorem getElem?_setPhase (s : WaitRoom) (i j : ℕ) (phase : WaitPhase) :
    (s.setPhase i phase).calls[j]? =
      s.calls[j]?.map fun call => if i = j then { call with phase := phase } else call := by
  rw [setPhase]
  rw [List.getElem?_modify]
  split_ifs <;> simp

theorem exists_of_blocked (hblocked : signal.blocked s j) (hready : signal.ready s j) :
    ∃ call, s.calls[j]? = some call ∧ call.phase = .selecting ∧ s.Met call := by
  obtain ⟨call, hcall, hphase⟩ := hblocked
  obtain ⟨call', hcall', hmet⟩ := hready
  obtain rfl := Option.some.inj (hcall.symm.trans hcall')
  exact ⟨call, hcall, hphase, hmet⟩

theorem of_setPhase (phase : WaitPhase) (hblocked : signal.blocked (s.setPhase i phase) j)
    (hready : signal.ready (s.setPhase i phase) j) :
    ∃ call, s.calls[j]? = some call ∧ s.Met call ∧
      (j ≠ i ∧ call.phase = .selecting ∨ j = i ∧ phase = .selecting) := by
  obtain ⟨call, hcall, hselect, hmet⟩ := exists_of_blocked hblocked hready
  rw [getElem?_setPhase] at hcall
  obtain ⟨c, hc, rfl⟩ := map_eq_some_iff.mp hcall
  by_cases hij : i = j
  · rw [if_pos hij] at hselect hmet
    exact ⟨c, hc, hmet, .inr ⟨hij.symm, hselect⟩⟩
  · rw [if_neg hij] at hselect hmet
    exact ⟨c, hc, hmet, .inl ⟨Ne.symm hij, hselect⟩⟩

theorem quiet_setPhase {phase : WaitPhase} (hphase : phase ≠ .selecting) :
    signal.Step s (s.setPhase i phase) := by
  refine .quiet id fun j hblocked hready => ?_
  obtain ⟨call, hcall, hmet, ⟨-, hselect⟩ | ⟨-, hmoved⟩⟩ := of_setPhase _ hblocked hready
  · exact ⟨⟨call, hcall, hselect⟩, ⟨call, hcall, hmet⟩⟩
  · exact absurd hmoved hphase

theorem signal_step (ha : s.Alone a) (hstep : s.step a = some s') : signal.Step s s' := by
  cases a with
  | begin =>
    cases hstep
    refine .quiet id fun j hblocked hready => ?_
    obtain ⟨call, hcall, hselect, hmet⟩ := exists_of_blocked hblocked hready
    rcases Nat.lt_or_ge j s.calls.length with hlt | hge
    · rw [List.getElem?_append_left hlt] at hcall
      exact ⟨⟨call, hcall, hselect⟩, ⟨call, hcall, hmet⟩⟩
    · rw [List.getElem?_append_right hge] at hcall
      rw [List.mem_singleton.mp (List.mem_of_getElem? hcall)] at hselect
      cases hselect
  | check =>
    obtain ⟨call, hcall, hstep⟩ := bind_eq_some_iff.mp hstep
    split_ifs at hstep with hphase hmet
    · cases hstep
      exact quiet_setPhase (by decide)
    · cases hstep
      refine .quiet id fun j hblocked hready => ?_
      obtain ⟨call', hcall', hmet', ⟨-, hselect⟩ | ⟨rfl, -⟩⟩ := of_setPhase _ hblocked hready
      · exact ⟨⟨call', hcall', hselect⟩, ⟨call', hcall', hmet'⟩⟩
      · -- The call that has just counted too few of them.
        obtain rfl := Option.some.inj (hcall.symm.trans hcall')
        exact absurd hmet' hmet
  | receive =>
    obtain ⟨call, hcall, hstep⟩ := bind_eq_some_iff.mp hstep
    split_ifs at hstep with hphase
    cases hstep
    refine .taken fun j hblocked hready => ?_
    obtain ⟨call', hcall', hmet', ⟨hne, hselect⟩ | ⟨-, hmoved⟩⟩ :=
      of_setPhase .checking hblocked hready
    · have hlt : j < s.calls.length := (List.getElem?_eq_some_iff.mp hcall').1
      exact ha j hlt hne call' hcall' hselect hmet'
    · cases hmoved
  | expire =>
    obtain ⟨call, hcall, hstep⟩ := bind_eq_some_iff.mp hstep
    split_ifs at hstep with hphase
    cases hstep
    exact quiet_setPhase (by decide)
  | progress =>
    cases hstep
    exact .sent rfl

end WaitRoom

/-! ## The barrier -/

/-- No wake-up is lost at the barrier while reports are taken one waiter at a time. From a node with
no call under way, for any number of concurrent calls with any indexes and numbers of followers and
any progress in between: if no call takes a report while another blocked call has its followers,
then whenever a call is blocked although its followers hold its entry, a report is there for it to
receive. -/
theorem no_lost_wakeup_alone {s₀ s : WaitRoom} {as : List WaitAction} (hidle : s₀.calls = [])
    (hrun : Run WaitRoom.step WaitRoom.Alone s₀ as s) {i : ℕ} {call : WaitCall}
    (hcall : s.calls[i]? = some call) (hblocked : call.phase = .selecting)
    (hheld : HeldBy call.n s.nodeID s.matchIndex call.raftIndex) : s.notify = true := by
  have hstart : WaitRoom.signal.Awake s₀ := by
    rintro j ⟨call, hcall, -⟩
    rw [hidle] at hcall
    cases hcall
  have hawake : WaitRoom.signal.Awake s := Signal.awake_of_run hrun trivial hstart
    fun _ _ _ ha _ hstep => ⟨trivial, WaitRoom.signal_step ha hstep⟩
  exact hawake i ⟨call, hcall, hblocked⟩ ⟨call, hcall, heldBy_iff.mp hheld⟩

/-- A single call is alone. -/
theorem WaitRoom.alone_of_single {s s' : WaitRoom} {a : WaitAction} (hsingle : s.calls.length ≤ 1)
    (hstep : s.step a = some s') : s.Alone a := by
  cases a with
  | receive i =>
    obtain ⟨call, hcall, -⟩ := bind_eq_some_iff.mp hstep
    have hi : i < s.calls.length := (List.getElem?_eq_some_iff.mp hcall).1
    intro j hj hne
    omega
  | _ => trivial

/-- A node with no call under way. -/
def idleRoom : WaitRoom := ⟨ascii "n1", ∅, false, []⟩

/-- What a peer reports. -/
def heldUpTo (index : UInt64) : MatchIndex := (∅ : MatchIndex).insert (ascii "n2") index

/-- Two calls wait for two entries, and the peer takes over one after the other. -/
def inTurn : List WaitAction :=
  [.begin 1 1, .begin 2 1, .check 0, .check 1, .progress (heldUpTo 1), .receive 0, .check 0,
    .progress (heldUpTo 2)]

/-- The theorem at the second of two calls, whose follower has just reported. -/
theorem no_lost_wakeup_alone_inTurn :
    ∃ s, Run WaitRoom.step WaitRoom.Alone idleRoom inTurn s ∧
      s.calls = [⟨1, 1, .satisfied⟩, ⟨2, 1, .selecting⟩] ∧
      HeldBy 1 s.nodeID s.matchIndex 2 ∧ s.notify = true := by
  refine exists_run_of_exec (P := fun s => s.calls = [⟨1, 1, .satisfied⟩, ⟨2, 1, .selecting⟩] ∧
    followerAckCount s.nodeID s.matchIndex 2 = 1) (by decide +kernel) ?_
  rintro s hrun ⟨hcalls, hcount⟩
  have hheld : HeldBy 1 s.nodeID s.matchIndex 2 := heldBy_iff.mpr (by rw [hcount]; decide)
  have hcall : s.calls[1]? = some ⟨2, 1, .selecting⟩ := by rw [hcalls]; rfl
  exact ⟨hcalls, hheld, no_lost_wakeup_alone rfl hrun hcall rfl hheld⟩

/-- Two calls wait for one entry; its follower reports once, and the first call takes the report. -/
def sharedReport : List WaitAction :=
  [.begin 1 1, .begin 1 1, .check 0, .check 1, .progress (heldUpTo 1), .receive 0, .check 0]

/-- A wake-up is lost. The first call has returned; the second one is blocked although a follower
holds its entry, and there is no report for it. -/
theorem second_waiter_stranded :
    ∃ s, Run WaitRoom.step (fun _ _ => True) idleRoom sharedReport s ∧
      s.calls = [⟨1, 1, .satisfied⟩, ⟨1, 1, .selecting⟩] ∧
      HeldBy 1 s.nodeID s.matchIndex 1 ∧ s.notify = false := by
  refine exists_run_of_exec (P := fun s => s.calls = [⟨1, 1, .satisfied⟩, ⟨1, 1, .selecting⟩] ∧
    followerAckCount s.nodeID s.matchIndex 1 = 1 ∧ s.notify = false) (by decide +kernel) ?_
  rintro s - ⟨hcalls, hcount, hnotify⟩
  exact ⟨hcalls, heldBy_iff.mpr (by rw [hcount]; decide), hnotify⟩

end ToyMQ.Server
