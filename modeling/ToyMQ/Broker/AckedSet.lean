import ToyMQ.Broker.Node
import ToyMQ.Lib.Run

/-!
# The offsets of a consumer as a set of ids

The flag, the mark and the ids above it are one way to write down a set of acknowledged ids.
`Offsets.Canonical` says which: the flag is set when 0 is in the set, the mark is then the end of
the longest run of ids from 0, and the rest of the set is above it. There is only one such state for
a set (`Canonical.unique`), and an ack adds its id (`Canonical.ack`).

Ids are 64-bit words in the source and `Ack` computes `lastAcked + 1` in them. `Offsets.ack64` has
that arithmetic, and is `Offsets.ack` as long as no id is the greatest word (`ack64_eq`).
`acks_exact` is the result for a whole run, and for `snapshotOffsets` and `loadOffsets`.
-/

namespace ToyMQ.Broker

open Lib

/-! ## The state of a set -/

/-- The offsets are those of the set `acked`. -/
structure Offsets.Canonical (o : Offsets) (acked : Finset ℕ) : Prop where
  hasAcked : o.hasAcked = true ↔ 0 ∈ acked
  /-- The mark is the greatest id with all ids up to it in the set. -/
  lastAcked : 0 ∈ acked → IsGreatest {k | ∀ j ≤ k, j ∈ acked} o.lastAcked
  aboveLast : o.aboveLast = if 0 ∈ acked then acked.filter (o.lastAcked < ·) else acked
  /-- The mark is not used as long as the flag is not set. -/
  unset : 0 ∉ acked → o.lastAcked = 0

namespace Offsets.Canonical

variable {o o' : Offsets} {acked : Finset ℕ}

theorem new : Offsets.new.Canonical ∅ :=
  ⟨by simp [Offsets.new], fun h => absurd h (Finset.notMem_empty 0), rfl, fun _ => rfl⟩

/-- A set has one state. -/
theorem unique (h : o.Canonical acked) (h' : o'.Canonical acked) : o = o' := by
  have hflag : o.hasAcked = o'.hasAcked :=
    Bool.eq_iff_iff.mpr (h.hasAcked.trans h'.hasAcked.symm)
  have hlast : o.lastAcked = o'.lastAcked := by
    by_cases h0 : 0 ∈ acked
    · exact (h.lastAcked h0).unique (h'.lastAcked h0)
    · rw [h.unset h0, h'.unset h0]
  have habove : o.aboveLast = o'.aboveLast := by rw [h.aboveLast, h'.aboveLast, hlast]
  cases o
  cases o'
  cases hflag
  cases hlast
  cases habove
  rfl

theorem covers_iff (h : o.Canonical acked) (k : ℕ) : o.Covers k ↔ k ∈ acked := by
  unfold Offsets.Covers
  rw [h.hasAcked, h.aboveLast]
  by_cases h0 : 0 ∈ acked
  · obtain ⟨hall, -⟩ := h.lastAcked h0
    simp only [h0, true_and, if_true, Finset.mem_filter]
    constructor
    · rintro (hle | hin)
      · exact hall k hle
      · exact hin.1
    · intro hin
      by_cases hle : k ≤ o.lastAcked
      · exact .inl hle
      · exact .inr ⟨hin, by omega⟩
  · simp [h0]

/-- No id above the mark is next to it. -/
theorem gapped (h : o.Canonical acked) : o.Gapped := by
  intro k hk
  rw [h.aboveLast] at hk
  unfold Offsets.next
  by_cases h0 : 0 ∈ acked
  · rw [if_pos h0] at hk
    rw [if_pos (h.hasAcked.mpr h0)]
    obtain ⟨hall, hgreatest⟩ := h.lastAcked h0
    obtain ⟨hin, hlt⟩ := Finset.mem_filter.mp hk
    -- Otherwise the run of ids from 0 would go on.
    by_contra hnot
    have hnext : k = o.lastAcked + 1 := by omega
    have hlonger : o.lastAcked + 1 ≤ o.lastAcked := hgreatest fun j hj => by
      rcases Nat.lt_or_eq_of_le hj with hj | rfl
      · exact hall j (by omega)
      · exact hnext ▸ hin
    omega
  · rw [if_neg h0] at hk
    rw [if_neg (fun hflag => h0 (h.hasAcked.mp hflag))]
    exact Nat.pos_of_ne_zero fun hzero => h0 (hzero ▸ hk)

theorem of_covers (hcovers : ∀ k, o.Covers k ↔ k ∈ acked) (hgap : o.Gapped)
    (hunset : o.hasAcked = false → o.lastAcked = 0) : o.Canonical acked := by
  have hnext : o.next ∉ acked := fun hin => by
    rcases (o.covers_iff o.next).mp ((hcovers _).mpr hin) with hlt | habove
    · exact lt_irrefl _ hlt
    · exact lt_irrefl _ (hgap _ habove)
  have hflag : o.hasAcked = true ↔ 0 ∈ acked := by
    rw [← hcovers 0]
    constructor
    · exact fun htrue => .inl ⟨htrue, Nat.zero_le _⟩
    · rintro (hle | habove)
      · exact hle.1
      · exact absurd (hgap 0 habove) (Nat.not_lt_zero _)
  refine ⟨hflag, fun h0 => ⟨?_, ?_⟩, ?_, fun h0 => ?_⟩
  · exact fun j hj => (hcovers j).mp (.inl ⟨hflag.mpr h0, hj⟩)
  · intro k hk
    by_contra hlt
    have hnexteq : o.next = o.lastAcked + 1 := if_pos (hflag.mpr h0)
    exact hnext (hk o.next (by omega))
  · ext k
    split_ifs with h0
    · have hnexteq : o.next = o.lastAcked + 1 := if_pos (hflag.mpr h0)
      rw [Finset.mem_filter, ← hcovers k]
      constructor
      · intro hk
        have hlt := hgap k hk
        exact ⟨.inr hk, by omega⟩
      · rintro ⟨hle | habove, hlt⟩
        · exact absurd hle.2 (Nat.not_le.mpr hlt)
        · exact habove
    · rw [← hcovers k]
      unfold Offsets.Covers
      rw [hflag]
      simp [h0]
  · exact hunset (Bool.eq_false_iff.mpr fun htrue => h0 (hflag.mp htrue))

/-- An ack adds its id to the set. -/
theorem ack (h : o.Canonical acked) (msgID : ℕ) :
    (o.ack msgID).Canonical (insert msgID acked) := by
  refine of_covers (fun k => ?_) (h.gapped.ack msgID) ?_
  · rw [o.covers_ack, h.covers_iff, Finset.mem_insert, or_comm]
  · unfold Offsets.ack
    intro hflag
    split_ifs at hflag ⊢ with hnext habove
    · exact h.unset fun h0 => by
        rw [h.hasAcked.mpr h0] at hflag
        cases hflag
    · exact h.unset fun h0 => by
        rw [h.hasAcked.mpr h0] at hflag
        cases hflag

theorem ack_of_mem (h : o.Canonical acked) {msgID : ℕ} (hmem : msgID ∈ acked) :
    o.ack msgID = o := by
  have hack := h.ack msgID
  rw [Finset.insert_eq_of_mem hmem] at hack
  exact hack.unique h

end Offsets.Canonical

/-! ## Ids as words -/

/-- The greatest id. -/
def maxID : ℕ := 2 ^ 64 - 1

/-- `k + 1` in 64-bit words. -/
def succ64 (k : ℕ) : ℕ := (k + 1) % 2 ^ 64

theorem succ64_eq {k : ℕ} (h : k < maxID) : succ64 k = k + 1 := by
  unfold maxID at h
  exact Nat.mod_eq_of_lt (by omega)

/-- The loop of `Ack` over `aboveLast` in words, for at most `fuel` turns. -/
def drain64 : ℕ → ℕ → Finset ℕ → ℕ × Finset ℕ
  | 0, last, above => (last, above)
  | fuel + 1, last, above =>
    if succ64 last ∈ above then drain64 fuel (succ64 last) (above.erase (succ64 last))
    else (last, above)

/-- The part of `Ack` that updates the offsets, in words. -/
def Offsets.ack64 (o : Offsets) (msgID : ℕ) : Offsets :=
  if (!o.hasAcked && msgID == 0) || (o.hasAcked && msgID == succ64 o.lastAcked) then
    let drained := drain64 o.aboveLast.card msgID o.aboveLast
    ⟨true, drained.1, drained.2⟩
  else if !o.hasAcked || succ64 o.lastAcked < msgID then
    { o with aboveLast := insert msgID o.aboveLast }
  else o

/-- `Ack`, in words. -/
def Consumer.ack64 (c : Consumer) (msgID : ℕ) : Except BrokerError Consumer :=
  if msgID ∈ c.inflight then
    .ok { c with offsets := c.offsets.ack64 msgID, inflight := c.inflight.erase msgID }
  else .error (.ackNotInflight msgID c.id)

theorem drain64_eq {fuel last : ℕ} {above : Finset ℕ} (hlast : last < maxID)
    (habove : ∀ k ∈ above, k < maxID) : drain64 fuel last above = drain fuel last above := by
  induction fuel generalizing last above with
  | zero => rfl
  | succ fuel ih =>
    rw [drain64, drain, succ64_eq hlast]
    split_ifs with hmem
    · exact ih (habove _ hmem) fun k hk => habove k (Finset.mem_of_mem_erase hk)
    · rfl

variable {o : Offsets} {msgID : ℕ}

/-- Below the greatest word, `Ack` computes with words as it does with numbers. -/
theorem Offsets.ack64_eq (hlast : o.lastAcked < maxID) (habove : ∀ k ∈ o.aboveLast, k < maxID)
    (hid : msgID < maxID) : o.ack64 msgID = o.ack msgID := by
  unfold Offsets.ack64 Offsets.ack
  rw [succ64_eq hlast, drain64_eq hid habove]

theorem Offsets.Canonical.ack64_eq {acked : Finset ℕ} (h : o.Canonical acked)
    (hacked : ∀ k ∈ acked, k < maxID) (hid : msgID < maxID) : o.ack64 msgID = o.ack msgID := by
  refine Offsets.ack64_eq ?_ (fun k hk => hacked k ((h.covers_iff k).mp (.inr hk))) hid
  by_cases h0 : 0 ∈ acked
  · exact hacked _ ((h.lastAcked h0).1 _ le_rfl)
  · rw [h.unset h0]
    decide

/-! ## Deliveries, redeliveries and acks -/

/-- What happens to a consumer's messages. -/
inductive AckAction where
  /-- The delivery goroutine registers a message, for the first time or after a new subscription. -/
  | deliver (msgID : ℕ) (payload : Bytes)
  /-- The delivery goroutine takes a message back that it could not send. -/
  | rollback (msgID : ℕ)
  /-- A nack that finds its message. -/
  | nack (msgID threshold : ℕ)
  /-- A sweep over the messages whose deadlines have passed. -/
  | sweep (threshold : ℕ) (expired : List ℕ)
  /-- An ack that finds its message. -/
  | ack (msgID : ℕ)
deriving DecidableEq, Repr

namespace AckAction

def step (c : Consumer) : AckAction → Option Consumer
  | .deliver msgID payload => some (c.register msgID payload)
  | .rollback msgID => some (c.rollback msgID)
  | .nack msgID threshold => ((c.nackOrKill msgID threshold).toOption).map Prod.fst
  | .sweep threshold expired => some (c.collectExpired threshold expired)
  | .ack msgID => (c.ack64 msgID).toOption

def acked? : AckAction → Option ℕ
  | .ack msgID => some msgID
  | _ => none

/-- The acks are of ids below the greatest word. -/
def BelowMax (a : AckAction) : Prop := ∀ msgID ∈ a.acked?, msgID < maxID

instance : DecidablePred BelowMax := fun a =>
  inferInstanceAs (Decidable (∀ m ∈ a.acked?, m < maxID))

/-- The set of the ids that were acknowledged. -/
def ackedIds (as : List AckAction) : Finset ℕ := (as.filterMap acked?).toFinset

variable {c c' : Consumer}

/-- Only an ack changes the offsets. -/
theorem offsets_of_step {a : AckAction} (h : a.step c = some c') :
    c'.offsets = a.acked?.elim c.offsets c.offsets.ack64 := by
  cases a with
  | deliver | rollback =>
    cases h
    rfl
  | nack =>
    obtain ⟨⟨c₁, v⟩, hnack, rfl⟩ := Option.map_eq_some_iff.mp h
    exact Consumer.offsets_nackOrKill (ok_of_toOption hnack)
  | sweep threshold expired =>
    cases h
    exact c.offsets_collectExpired threshold expired
  | ack =>
    have hack := ok_of_toOption h
    unfold Consumer.ack64 at hack
    split_ifs at hack
    cases hack
    rfl

theorem canonical_of_run {as : List AckAction} {acked : Finset ℕ}
    (hrun : Run step (fun _ a => a.BelowMax) c as c') (h : c.offsets.Canonical acked)
    (hmax : ∀ k ∈ acked, k < maxID) :
    c'.offsets.Canonical (acked ∪ ackedIds as) ∧ ∀ k ∈ acked ∪ ackedIds as, k < maxID := by
  induction hrun generalizing acked with
  | nil => simpa [ackedIds] using ⟨h, hmax⟩
  | @cons c₁ c₂ c₃ a as hok hstep hrun ih =>
    have hoffsets := offsets_of_step hstep
    cases hid : a.acked? with
    | none =>
      rw [hid] at hoffsets
      have hset : ackedIds (a :: as) = ackedIds as := by simp [ackedIds, hid]
      rw [hset]
      exact ih (hoffsets ▸ h) hmax
    | some msgID =>
      rw [hid] at hoffsets
      have hlt : msgID < maxID := hok msgID hid
      have hset : acked ∪ ackedIds (a :: as) = insert msgID acked ∪ ackedIds as := by
        simp [ackedIds, hid]
      rw [hset]
      refine ih ?_ ?_
      · rw [hoffsets, Option.elim_some, h.ack64_eq hmax hlt]
        exact h.ack msgID
      · intro k hk
        rcases Finset.mem_insert.mp hk with rfl | hk
        · exact hlt
        · exact hmax k hk

end AckAction

/-! ## The offsets of a partition -/

namespace Partition

/-- `snapshotOffsets`: the entries of `offsets.json` by their consumer ids. -/
def snapshotOffsets (p : Partition) : List (Bytes × ConsumerOffsets) :=
  p.consumers.entries.map fun e => (e.1, e.2.offsets.snapshot)

/-- One turn of the loop of `loadOffsets`. -/
def loadEntry (p : Partition) (entry : Bytes × ConsumerOffsets) : Partition :=
  let c := p.getOrCreateConsumer entry.1
  p.setConsumer entry.1 { c with offsets := c.offsets.load entry.2 }

/-- `loadOffsets`, for the entries of the file in the order in which the loop takes them. -/
def loadOffsets (p : Partition) (file : List (Bytes × ConsumerOffsets)) : Partition :=
  file.foldl loadEntry p

theorem lookup_loadEntry_of_ne (p : Partition) {entry : Bytes × ConsumerOffsets} {id : Bytes}
    (hne : id ≠ entry.1) : (p.loadEntry entry).consumers.lookup id = p.consumers.lookup id :=
  AList.lookup_insert_ne hne

variable {file : List (Bytes × ConsumerOffsets)} {p : Partition}

theorem lookup_loadOffsets_of_notMem (p : Partition) {id : Bytes} (hid : id ∉ file.map Prod.fst) :
    (p.loadOffsets file).consumers.lookup id = p.consumers.lookup id := by
  induction file generalizing p with
  | nil => rfl
  | cons entry file ih =>
    rw [List.map_cons, List.mem_cons, not_or] at hid
    exact (ih (p.loadEntry entry) hid.2).trans (p.lookup_loadEntry_of_ne hid.1)

theorem lookup_loadOffsets (hnodup : (file.map Prod.fst).Nodup) {id : Bytes}
    {entry : ConsumerOffsets} (hmem : (id, entry) ∈ file) (hnew : p.consumers.lookup id = none) :
    ∃ c, (p.loadOffsets file).consumers.lookup id = some c ∧
      c.offsets = Offsets.new.load entry := by
  induction file generalizing p with
  | nil => cases hmem
  | cons first file ih =>
    rw [List.map_cons, List.nodup_cons] at hnodup
    rcases List.mem_cons.mp hmem with rfl | hmem
    · -- The entries after its own are of other consumers.
      refine ⟨_, ((p.loadEntry (id, entry)).lookup_loadOffsets_of_notMem hnodup.1).trans
        (AList.lookup_insert _), ?_⟩
      rw [getOrCreateConsumer, hnew]
      rfl
    · have hne : id ≠ first.1 := fun he => hnodup.1 (he ▸ List.mem_map_of_mem hmem)
      exact ih hnodup.2 hmem ((p.lookup_loadEntry_of_ne hne).trans hnew)

theorem lookup_loadOffsets_snapshotOffsets {fresh : Partition} {id : Bytes} {c : Consumer}
    (hc : p.consumers.lookup id = some c) (hfresh : fresh.consumers = ∅)
    (hfile : file.Perm p.snapshotOffsets) :
    ∃ c', (fresh.loadOffsets file).consumers.lookup id = some c' ∧ c'.offsets = c.offsets := by
  have hkeys : p.snapshotOffsets.map Prod.fst = p.consumers.keys := by
    unfold snapshotOffsets
    rw [List.map_map]
    rfl
  have hnodup : (file.map Prod.fst).Nodup := by
    rw [(hfile.map Prod.fst).nodup_iff, hkeys]
    exact p.consumers.keys_nodup
  have hmem : (id, c.offsets.snapshot) ∈ file :=
    hfile.mem_iff.mpr (List.mem_map_of_mem (AList.mem_lookup_iff.mp hc))
  obtain ⟨c', hlookup, hoffsets⟩ := lookup_loadOffsets (p := fresh) hnodup hmem
    (by rw [hfresh]; rfl)
  exact ⟨c', hlookup, hoffsets.trans c.offsets.load_snapshot⟩

end Partition

/-- A consumer that started new and whose messages were delivered, redelivered and acknowledged in
any order, with ids below the greatest word, has the offsets of the set of ids it acknowledged. So
another order of acks for the same set gives the same offsets, an id that was redelivered can be
acknowledged again without a change, and a new partition that loads the offsets which a partition
has saved gives each consumer the offsets it had. -/
theorem acks_exact {id : Bytes} {window : ℕ} {as : List AckAction} {c : Consumer}
    (hrun : Run AckAction.step (fun _ a => a.BelowMax) (.new id window) as c) :
    c.offsets.Canonical (AckAction.ackedIds as) ∧
    (∀ id' window' bs c', Run AckAction.step (fun _ a => a.BelowMax) (.new id' window') bs c' →
      AckAction.ackedIds bs = AckAction.ackedIds as → c'.offsets = c.offsets) ∧
    (∀ msgID ∈ AckAction.ackedIds as, msgID ∈ c.inflight →
      ∃ c', c.ack64 msgID = .ok c' ∧ c'.offsets = c.offsets) ∧
    (∀ (p fresh : Partition) (name : Bytes), p.consumers.lookup name = some c →
      fresh.consumers = ∅ → ∀ file, List.Perm file p.snapshotOffsets →
      ∃ c', (fresh.loadOffsets file).consumers.lookup name = some c' ∧
        c'.offsets = c.offsets) := by
  have hcanonical : ∀ {id : Bytes} {window : ℕ} {as : List AckAction} {c : Consumer},
      Run AckAction.step (fun _ a => a.BelowMax) (.new id window) as c →
        c.offsets.Canonical (AckAction.ackedIds as) ∧
          ∀ k ∈ AckAction.ackedIds as, k < maxID := fun hrun => by
    simpa using AckAction.canonical_of_run hrun .new (by simp)
  obtain ⟨hc, hmax⟩ := hcanonical hrun
  refine ⟨hc, ?_, ?_, ?_⟩
  · intro id' window' bs c' hrun' hsame
    exact (hsame ▸ (hcanonical hrun').1).unique hc
  · intro msgID hacked hflight
    refine ⟨_, if_pos hflight, ?_⟩
    rw [hc.ack64_eq hmax (hmax msgID hacked), hc.ack_of_mem hacked]
  · intro p fresh name hlookup hfresh file hfile
    exact Partition.lookup_loadOffsets_snapshotOffsets hlookup hfresh hfile

/-- Three deliveries acknowledged as 2, 0 and 1, and the last of them once more. -/
def outOfOrder : List AckAction :=
  [.deliver 0 [], .deliver 1 [], .deliver 2 [], .ack 2, .ack 0, .nack 1 0, .ack 1, .deliver 1 []]

theorem acks_exact_outOfOrder :
    ∃ c, Run AckAction.step (fun _ a => a.BelowMax) (.new [99] 4) outOfOrder c ∧
      c.offsets = ⟨true, 2, ∅⟩ ∧ c.offsets.Canonical {0, 1, 2} ∧
      ∃ c', c.ack64 1 = .ok c' ∧ c'.offsets = c.offsets := by
  refine exists_run_of_exec (P := fun c => c.offsets = ⟨true, 2, ∅⟩ ∧ 1 ∈ c.inflight)
    (by decide +kernel) ?_
  rintro c hrun ⟨hoffsets, hflight⟩
  obtain ⟨hcanonical, -, hagain, -⟩ := acks_exact hrun
  have hids : AckAction.ackedIds outOfOrder = {0, 1, 2} := by decide
  exact ⟨hoffsets, hids ▸ hcanonical, hagain 1 (by decide) hflight⟩

end ToyMQ.Broker
