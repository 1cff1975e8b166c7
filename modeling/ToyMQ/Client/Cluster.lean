import Mathlib.Data.List.AList
import ToyMQ.Lib.Text
import ToyMQ.Server.Session

/-!
# The search for the leader

A `ClusterClient` keeps one connection and a cursor into the list of its members. `redirectLoop`
calls `fn` on the connection, and moves the cursor when the member cannot be dialed, when it
answers that it is not the leader, or when it dies under the call: to the member that the hint
names, if the list has one tagged with it, and to the next one otherwise. All failures count
against one cap.

The members are given by what happens at each attempt (`Fleet`). `leader_found` says that the loop
gets to a leader that stays one: a failure moves the cursor one step around the ring or right to
the leader, so that the number of steps left (`ahead`) goes down with every failure.
-/

namespace ToyMQ.Client

open Lib Server List

/-! ## The client -/

/-- `splitMember`. -/
def splitMember (m : Bytes) : Bytes × Bytes :=
  match cut 64 m with
  | some (id, addr) => (id, addr)
  | none => ([], m)

/-- `ClusterClient`. -/
structure ClusterClient where
  addrs : List Bytes
  byID : AList fun _ : Bytes => Bytes
  /-- The cap of the backoff. -/
  attempts : ℕ
  /-- The address of the live connection. -/
  cur : Option Bytes
  idx : ℕ
  closed : Bool

/-- The loop of `DialCluster` over its members. -/
def ClusterClient.addMember (cc : ClusterClient) (m : Bytes) : ClusterClient :=
  { cc with
    addrs := cc.addrs ++ [(splitMember m).2]
    byID := if (splitMember m).1 = [] then cc.byID
      else cc.byID.insert (splitMember m).1 (splitMember m).2 }

/-- The client that `DialCluster` makes, before it connects. -/
def ClusterClient.ofMembers (members : List Bytes) : ClusterClient :=
  members.foldl ClusterClient.addMember ⟨[], ∅, 10, none, 0, false⟩

/-- The errors of `conn`. -/
inductive ConnError where
  | closed
  | dial (addr : Bytes)
deriving DecidableEq, Repr

/-- `conn`, where `dial` says which addresses can be dialed: the address of the connection, which is
the live one from then on. -/
def ClusterClient.conn (cc : ClusterClient) (dial : Bytes → Bool) : Except ConnError Bytes :=
  if cc.closed then .error .closed
  else
    match cc.cur with
    | some addr => .ok addr
    | none =>
      let addr := cc.addrs.getD cc.idx []
      if dial addr then .ok addr else .error (.dial addr)

/-- The client without its connection, and with its cursor at a member. -/
def ClusterClient.goTo (cc : ClusterClient) (i : ℕ) : ClusterClient :=
  { cc with cur := none, idx := i }

/-- `redirect`. -/
def ClusterClient.redirect (cc : ClusterClient) (hint : Bytes) : ClusterClient :=
  let known := if hint = [] then none else cc.byID.lookup hint
  match known.bind fun addr => cc.addrs.findIdx? (· == addr) with
  | some i => cc.goTo i
  | none => cc.goTo ((cc.idx + 1) % cc.addrs.length)

@[simp]
theorem ClusterClient.attempts_redirect (cc : ClusterClient) (hint : Bytes) :
    (cc.redirect hint).attempts = cc.attempts := by
  unfold redirect
  dsimp only
  split <;> rfl

/-! ## The loop -/

/-- What a call of `fn` on a connection returns. -/
inductive CallResult where
  | ok
  | notLeader (hint : Bytes)
  /-- `ErrTransport` or `ErrClosed`: the node has died under the call. -/
  | died
  /-- An error of the operation itself. -/
  | other
deriving DecidableEq, Repr

/-- The hint for the next member, when the call is to be tried again. -/
def CallResult.retry : CallResult → Option Bytes
  | .notLeader hint => some hint
  | .died => some []
  | .ok | .other => none

/-- What the members do, by the number of failures before. -/
structure Fleet where
  /-- Whether `Dial` succeeds. -/
  dial : ℕ → Bytes → Bool
  /-- What `fn` returns. -/
  call : ℕ → Bytes → CallResult
  /-- Whether the wait of the backoff runs to its end. -/
  wait : ℕ → Bool

/-- One turn of the loop. -/
inductive Tried where
  | dialFailed (addr : Bytes)
  | called (addr : Bytes) (res : CallResult)
deriving DecidableEq, Repr

/-- The member that was tried. -/
def Tried.addr : Tried → Bytes
  | .dialFailed addr | .called addr _ => addr

inductive LoopEnd where
  /-- The result of the last call. -/
  | returned (res : CallResult)
  | closed
  | noReachable
  | retryLimit (hint : Bytes)
deriving DecidableEq, Repr

/-- `redirectLoop` after some failures: what was tried, and what it returns. -/
def redirectLoop (fleet : Fleet) (cc : ClusterClient) (attempt : ℕ) : List Tried × LoopEnd :=
  match cc.conn (fleet.dial attempt) with
  | .error .closed => ([], .closed)
  | .error (.dial addr) =>
    -- A failed dial is a redirect without a hint, and counts like one.
    if attempt + 1 ≥ cc.attempts then ([.dialFailed addr], .noReachable)
    else if !fleet.wait (attempt + 1) then ([.dialFailed addr], .closed)
    else (redirectLoop fleet (cc.redirect []) (attempt + 1)).map (.dialFailed addr :: ·) id
  | .ok addr =>
    let res := fleet.call attempt addr
    match res.retry with
    | none => ([.called addr res], .returned res)
    | some hint =>
      if attempt + 1 ≥ cc.attempts then ([.called addr res], .retryLimit hint)
      else if !fleet.wait (attempt + 1) then ([.called addr res], .closed)
      else (redirectLoop fleet ({ cc with cur := some addr }.redirect hint) (attempt + 1)).map
        (.called addr res :: ·) id
termination_by cc.attempts - attempt

variable {fleet : Fleet} {cc : ClusterClient} {attempt : ℕ}

/-- A member that cannot be dialed, with attempts left. -/
theorem redirectLoop_of_dial {addr : Bytes}
    (hconn : cc.conn (fleet.dial attempt) = .error (.dial addr)) (hcap : attempt + 1 < cc.attempts)
    (hwait : fleet.wait (attempt + 1) = true) :
    redirectLoop fleet cc attempt =
      (redirectLoop fleet (cc.redirect []) (attempt + 1)).map (.dialFailed addr :: ·) id := by
  rw [redirectLoop, hconn]
  dsimp only
  rw [if_neg (Nat.not_le.mpr hcap), hwait]
  rfl

/-- A call that is to be tried again, with attempts left. -/
theorem redirectLoop_of_retry {addr hint : Bytes} (hconn : cc.conn (fleet.dial attempt) = .ok addr)
    (hretry : (fleet.call attempt addr).retry = some hint) (hcap : attempt + 1 < cc.attempts)
    (hwait : fleet.wait (attempt + 1) = true) :
    redirectLoop fleet cc attempt =
      (redirectLoop fleet ({ cc with cur := some addr }.redirect hint) (attempt + 1)).map
        (.called addr (fleet.call attempt addr) :: ·) id := by
  rw [redirectLoop, hconn]
  dsimp only
  rw [hretry]
  dsimp only
  rw [if_neg (Nat.not_le.mpr hcap), hwait]
  rfl

/-! ## The members of a client -/

section Members

variable {members : List Bytes}

/-- The addresses are those of the members, in their order. -/
theorem addrs_ofMembers (members : List Bytes) :
    (ClusterClient.ofMembers members).addrs = members.map fun m => (splitMember m).2 := by
  have hfold : ∀ (ms : List Bytes) (cc : ClusterClient),
      (ms.foldl ClusterClient.addMember cc).addrs =
        cc.addrs ++ ms.map fun m => (splitMember m).2 := by
    intro ms
    induction ms with
    | nil => exact fun cc => (append_nil _).symm
    | cons m ms ih =>
      intro cc
      rw [foldl_cons, ih, ClusterClient.addMember, append_assoc]
      rfl
  exact hfold members _

/-- The other fields are as they were made. -/
theorem fields_ofMembers (members : List Bytes) :
    (ClusterClient.ofMembers members).attempts = 10 ∧
      (ClusterClient.ofMembers members).cur = none ∧
      (ClusterClient.ofMembers members).closed = false := by
  have hfold : ∀ (ms : List Bytes) (cc : ClusterClient),
      (ms.foldl ClusterClient.addMember cc).attempts = cc.attempts ∧
        (ms.foldl ClusterClient.addMember cc).cur = cc.cur ∧
        (ms.foldl ClusterClient.addMember cc).closed = cc.closed := by
    intro ms
    induction ms with
    | nil => exact fun cc => ⟨rfl, rfl, rfl⟩
    | cons m ms ih => exact fun cc => ih (cc.addMember m)
  exact hfold members _

/-- An id that is known is the tag of a member. -/
theorem tagged_of_lookup {id addr : Bytes}
    (h : (ClusterClient.ofMembers members).byID.lookup id = some addr) :
    ∃ m ∈ members, splitMember m = (id, addr) := by
  have hfold : ∀ (ms : List Bytes) (cc : ClusterClient),
      (ms.foldl ClusterClient.addMember cc).byID.lookup id = some addr →
      cc.byID.lookup id = some addr ∨ ∃ m ∈ ms, splitMember m = (id, addr) := by
    intro ms
    induction ms with
    | nil => exact fun cc hcc => .inl hcc
    | cons m ms ih =>
      intro cc hcc
      rcases ih (cc.addMember m) hcc with hbefore | ⟨m', hm', heq⟩
      · unfold ClusterClient.addMember at hbefore
        split_ifs at hbefore
        · exact .inl hbefore
        · by_cases hid : id = (splitMember m).1
          · rw [hid, AList.lookup_insert, Option.some.injEq] at hbefore
            exact .inr ⟨m, mem_cons_self, Prod.ext hid.symm hbefore⟩
          · rw [AList.lookup_insert_ne hid] at hbefore
            exact .inl hbefore
      · exact .inr ⟨m', mem_cons_of_mem m hm', heq⟩
  rcases hfold members _ h with hempty | htagged
  · cases hempty
  · exact htagged

end Members

/-! ## Around the ring -/

/-- How many steps around a ring of `n` lie between a place and a later one. -/
def ahead (n target i : ℕ) : ℕ := if i ≤ target then target - i else target + n - i

variable {n target i : ℕ}

theorem ahead_lt (htarget : target < n) (hi : i < n) : ahead n target i < n := by
  unfold ahead
  split_ifs <;> omega

/-- One step around the ring leaves one step less. -/
theorem ahead_next (htarget : target < n) (hi : i < n) (hne : i ≠ target) :
    ahead n target ((i + 1) % n) + 1 = ahead n target i := by
  unfold ahead
  rcases Nat.lt_or_ge (i + 1) n with hlt | hge
  · rw [Nat.mod_eq_of_lt hlt]
    split_ifs <;> omega
  · obtain rfl : i + 1 = n := by omega
    rw [Nat.mod_self]
    split_ifs <;> omega

/-! ## The leader is found -/

/-- One member is the leader throughout and can be reached. Any other one cannot be dialed, dies
under the call, or answers with a hint that is empty, that no member is tagged with, or that is the
id of the leader. No wait is cut short, as nobody else uses the client. -/
structure Settled (fleet : Fleet) (cc : ClusterClient) (leaderID leader : Bytes) : Prop where
  reachable : ∀ k, fleet.dial k leader = true
  others : ∀ k, ∀ addr ∈ cc.addrs, addr ≠ leader → fleet.dial k addr = false ∨
    ∃ hint, (fleet.call k addr).retry = some hint ∧
      (hint = [] ∨ cc.byID.lookup hint = none ∨ hint = leaderID)
  undisturbed : ∀ k, fleet.wait k = true

section Search

variable {fleet : Fleet} {cc : ClusterClient} {leaderID leader : Bytes} {target : ℕ}

/-- A redirect goes to the next member or to the leader. -/
theorem redirect_at (cc : ClusterClient) {hint : Bytes} (hnodup : cc.addrs.Nodup)
    (htarget : cc.addrs[target]? = some leader)
    (htag : ∀ addr, cc.byID.lookup leaderID = some addr → leaderID ≠ [] → addr = leader)
    (hhint : hint = [] ∨ cc.byID.lookup hint = none ∨ hint = leaderID) :
    cc.redirect hint = cc.goTo ((cc.idx + 1) % cc.addrs.length) ∨
      cc.redirect hint = cc.goTo target := by
  unfold ClusterClient.redirect
  dsimp only
  by_cases hempty : hint = []
  · rw [if_pos hempty]
    exact .inl rfl
  rw [if_neg hempty]
  cases hlookup : cc.byID.lookup hint with
  | none => exact .inl rfl
  | some addr =>
    -- A hint that some member is tagged with is the id of the leader.
    obtain rfl : hint = leaderID := by
      rcases hhint with hnil | hnone | heq
      · exact absurd hnil hempty
      · rw [hnone] at hlookup
        cases hlookup
      · exact heq
    obtain rfl := htag addr hlookup hempty
    have hfind : cc.addrs.findIdx? (· == addr) = some target := by
      obtain ⟨hlt, hget⟩ := List.getElem?_eq_some_iff.mp htarget
      refine findIdx?_eq_some_iff_getElem.mpr ⟨hlt, by simp [hget], fun j hj => ?_⟩
      have hne : cc.addrs[j] ≠ cc.addrs[target] := fun heq =>
        (Nat.ne_of_lt hj) ((hnodup.getElem_inj_iff).mp heq)
      simpa [hget] using hne
    rw [Option.bind_some, hfind]
    exact .inr rfl

variable {attempt i : ℕ}

/-- At the leader, `fn` is called on it. -/
theorem tried_at_leader (hclosed : cc.closed = false) (htarget : cc.addrs[target]? = some leader)
    (hdial : fleet.dial attempt leader = true) :
    ∃ res rest, (redirectLoop fleet (cc.goTo target) attempt).1 = .called leader res :: rest := by
  have hconn : (cc.goTo target).conn (fleet.dial attempt) = .ok leader := by
    simp [ClusterClient.conn, ClusterClient.goTo, hclosed, htarget, hdial]
  refine ⟨fleet.call attempt leader, ?_⟩
  unfold redirectLoop
  rw [hconn]
  dsimp only
  cases (fleet.call attempt leader).retry with
  | none => exact ⟨_, rfl⟩
  | some =>
    split_ifs
    · exact ⟨_, rfl⟩
    · exact ⟨_, rfl⟩
    · exact ⟨_, rfl⟩

/-- Another member fails, and the loop goes on at the next one or at the leader. -/
theorem tried_at_other {addr : Bytes} (hset : Settled fleet cc leaderID leader)
    (hclosed : cc.closed = false) (hnodup : cc.addrs.Nodup)
    (htarget : cc.addrs[target]? = some leader)
    (htag : ∀ addr, cc.byID.lookup leaderID = some addr → leaderID ≠ [] → addr = leader)
    (hi : cc.addrs[i]? = some addr) (hne : addr ≠ leader) (hcap : attempt + 1 < cc.attempts) :
    ∃ t j, (j = (i + 1) % cc.addrs.length ∨ j = target) ∧ t.addr = addr ∧
      (redirectLoop fleet (cc.goTo i) attempt).1 =
        t :: (redirectLoop fleet (cc.goTo j) (attempt + 1)).1 := by
  have hmem : addr ∈ cc.addrs := mem_of_getElem? hi
  have hwait := hset.undisturbed (attempt + 1)
  cases hdial : fleet.dial attempt addr with
  | false =>
    have hconn : (cc.goTo i).conn (fleet.dial attempt) = .error (.dial addr) := by
      simp [ClusterClient.conn, ClusterClient.goTo, hclosed, hi, hdial]
    rw [redirectLoop_of_dial hconn hcap hwait]
    rcases redirect_at (cc.goTo i) hnodup htarget htag (.inl rfl) with heq | heq
    · exact ⟨.dialFailed addr, _, .inl rfl, rfl, by rw [heq]; rfl⟩
    · exact ⟨.dialFailed addr, _, .inr rfl, rfl, by rw [heq]; rfl⟩
  | true =>
    have hconn : (cc.goTo i).conn (fleet.dial attempt) = .ok addr := by
      simp [ClusterClient.conn, ClusterClient.goTo, hclosed, hi, hdial]
    obtain ⟨hint, hretry, hhint⟩ :=
      (hset.others attempt addr hmem hne).resolve_left (by simp [hdial])
    rw [redirectLoop_of_retry hconn hretry hcap hwait]
    rcases redirect_at { cc.goTo i with cur := some addr } hnodup htarget htag hhint with
      heq | heq
    · exact ⟨.called addr _, _, .inl rfl, rfl, by rw [heq]; rfl⟩
    · exact ⟨.called addr _, _, .inr rfl, rfl, by rw [heq]; rfl⟩

/-- With attempts enough for the way, the loop gets to the leader. -/
theorem tried_leader (hset : Settled fleet cc leaderID leader) (hclosed : cc.closed = false)
    (hnodup : cc.addrs.Nodup) (htarget : cc.addrs[target]? = some leader)
    (htag : ∀ addr, cc.byID.lookup leaderID = some addr → leaderID ≠ [] → addr = leader) {d : ℕ}
    (hi : i < cc.addrs.length) (hahead : ahead cc.addrs.length target i ≤ d)
    (hcap : attempt + d < cc.attempts) :
    ∃ fails res rest,
      (redirectLoop fleet (cc.goTo i) attempt).1 = fails ++ .called leader res :: rest ∧
      fails.length ≤ d ∧ ∀ t ∈ fails, t.addr ≠ leader := by
  have hlt : target < cc.addrs.length := (List.getElem?_eq_some_iff.mp htarget).1
  have hfound : ∀ d attempt, ∃ fails res rest,
      (redirectLoop fleet (cc.goTo target) attempt).1 = fails ++ .called leader res :: rest ∧
      fails.length ≤ d ∧ ∀ t ∈ fails, t.addr ≠ leader := by
    intro d attempt
    obtain ⟨res, rest, heq⟩ := tried_at_leader hclosed htarget (hset.reachable attempt)
    exact ⟨[], res, rest, heq, Nat.zero_le _, fun _ ht => absurd ht not_mem_nil⟩
  -- Every failure brings the cursor one step nearer, at the price of one attempt.
  induction d generalizing i attempt with
  | zero =>
    obtain rfl : i = target := by
      unfold ahead at hahead
      split_ifs at hahead <;> omega
    exact hfound 0 attempt
  | succ d ih =>
    by_cases hhere : i = target
    · subst hhere
      exact hfound (d + 1) attempt
    have hget : cc.addrs[i]? = some cc.addrs[i] := getElem?_eq_getElem hi
    have hother : cc.addrs[i] ≠ leader := by
      intro heq
      obtain ⟨_, hleader⟩ := List.getElem?_eq_some_iff.mp htarget
      exact hhere (hnodup.getElem_inj_iff.mp (heq.trans hleader.symm))
    have hleft : attempt + 1 + d < cc.attempts := by omega
    obtain ⟨t, j, hj, htried, hloop⟩ := tried_at_other hset hclosed hnodup htarget htag hget hother
      (Nat.lt_of_le_of_lt (Nat.le_add_right _ _) hleft)
    have hnear : j < cc.addrs.length ∧ ahead cc.addrs.length target j ≤ d := by
      rcases hj with rfl | rfl
      · have hnext := ahead_next hlt hi hhere
        exact ⟨Nat.mod_lt _ (by omega), by omega⟩
      · exact ⟨hlt, by unfold ahead; simp⟩
    obtain ⟨fails, res, rest, heq, hlen, hfails⟩ := ih hnear.1 hnear.2 hleft
    refine ⟨t :: fails, res, rest, by rw [hloop, heq]; rfl, Nat.succ_le_succ hlen, fun t' ht' => ?_⟩
    rcases mem_cons.mp ht' with rfl | hmem
    · exact htried ▸ hother
    · exact hfails t' hmem

end Search

/-- The leader is found. For every client with at most ten members of distinct addresses, wherever
its cursor stands, without a connection: when one member is the leader throughout and can be
reached, and the others cannot be reached or answer that they are not the leader, with no hint, with
one that no member is tagged with or with the id of the leader, then `redirectLoop` calls `fn` on
the leader, after at most one failure less than there are members, and all of them elsewhere. A
member that is tagged with the id of the leader is the leader. -/
theorem leader_found {members : List Bytes} {fleet : Fleet} {leaderID leader : Bytes} {idx : ℕ}
    (hsize : members.length ≤ 10) (hnodup : (members.map fun m => (splitMember m).2).Nodup)
    (hleader : leader ∈ members.map fun m => (splitMember m).2)
    (htag : ∀ m ∈ members, (splitMember m).1 = leaderID → leaderID ≠ [] →
      (splitMember m).2 = leader)
    (hidx : idx < members.length)
    (hset : Settled fleet (.ofMembers members) leaderID leader) :
    ∃ fails res rest,
      (redirectLoop fleet { ClusterClient.ofMembers members with idx := idx } 0).1 =
        fails ++ .called leader res :: rest ∧
      fails.length ≤ members.length - 1 ∧ ∀ t ∈ fails, t.addr ≠ leader := by
  obtain ⟨hattempts, hcur, hclosed⟩ := fields_ofMembers members
  have haddrs := addrs_ofMembers members
  have hlen : (ClusterClient.ofMembers members).addrs.length = members.length := by
    rw [haddrs, length_map]
  rw [← haddrs] at hnodup hleader
  obtain ⟨target, htarget⟩ := getElem?_of_mem hleader
  have hlt : target < members.length := hlen ▸ (List.getElem?_eq_some_iff.mp htarget).1
  have hstart : { ClusterClient.ofMembers members with idx := idx } =
      (ClusterClient.ofMembers members).goTo idx := by
    rw [ClusterClient.goTo, ← hcur]
  have hahead := ahead_lt hlt hidx
  rw [hstart]
  refine tried_leader hset hclosed hnodup htarget (fun addr hlookup hne => ?_) (hlen.symm ▸ hidx)
    (by rw [hlen]; omega) (by rw [hattempts]; omega)
  obtain ⟨m, hm, heq⟩ := tagged_of_lookup hlookup
  have hfirst : (splitMember m).1 = leaderID := congrArg Prod.fst heq
  calc addr = (splitMember m).2 := (congrArg Prod.snd heq).symm
    _ = leader := htag m hm hfirst hne

/-- Three members, of which the second cannot be dialed, the third is the leader `n3`, and the first
does not know one. -/
def threeMembers : List Bytes := [ascii "n1@a", ascii "b", ascii "n3@c"]

/-- What they do. -/
def threeFleet : Fleet :=
  ⟨fun _ addr => addr != ascii "b",
    fun _ addr => if addr = ascii "c" then .ok else .notLeader [], fun _ => true⟩

/-- The theorem at three members, from the first of them. -/
theorem leader_found_three :
    ∃ fails res rest,
      (redirectLoop threeFleet { ClusterClient.ofMembers threeMembers with idx := 0 } 0).1 =
        fails ++ .called (ascii "c") res :: rest ∧
      fails.length ≤ 2 ∧ ∀ t ∈ fails, t.addr ≠ ascii "c" := by
  have hset : Settled threeFleet (.ofMembers threeMembers) (ascii "n3") (ascii "c") := by
    have hdial : (ascii "c" != ascii "b") = true := by decide +kernel
    refine ⟨fun _ => hdial, fun k addr hmem hne => ?_, fun _ => rfl⟩
    exact .inr ⟨[], by simp [threeFleet, hne, CallResult.retry], .inl rfl⟩
  exact leader_found (by decide) (by decide +kernel) (by decide +kernel)
    (by decide +kernel) (by decide) hset

end ToyMQ.Client
