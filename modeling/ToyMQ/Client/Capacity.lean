import Mathlib.Algebra.Order.BigOperators.Group.Finset
import ToyMQ.Client.Turn

/-!
# When the consume-and-ack loop cannot deadlock

Every message that the read loop cannot place is a copy of one that is in flight at the server. If
no message has two copies on the way, there are never more copies than slots in the windows of the
subscribed partitions, and with at most 64 slots the channel of deliveries has room for all of them.

A copy is outstanding (`AckLoop.outstanding`) until the server has handled the ack or nack for it.
`Tracked` says that outstanding copies are in flight and pairwise different, and that the delivery
goroutines will not send them again. Delivery goroutines, acks and nacks keep this; the redelivery
sweep does not, and is what the condition of `no_deadlock` (`Calm`) is about.
-/

namespace ToyMQ.Client

open Lib Server List Option
open Broker (BrokerError Consumer DeliveryAction Feed FeedAction)

/-! ## Copies and what is in flight -/

theorem Feeds.update_eq_some {feeds feeds' : Feeds} {threshold p : ℕ} {a : FeedAction}
    (h : feeds.update threshold p a = some feeds') :
    ∃ f f', feeds.lookup p = some f ∧ f.step threshold a = some f' ∧
      feeds' = feeds.insert p f' := by
  obtain ⟨f, hf, hstep⟩ := bind_eq_some_iff.mp h
  obtain ⟨f', hf', rfl⟩ := map_eq_some_iff.mp hstep
  exact ⟨f, f', hf, hf', rfl⟩

/-- The copies `out`, each given by its partition and the id of its message, are pairwise different
and in flight, and no delivery goroutine will send one of them. -/
structure Tracked (window : ℕ) (partitions : List ℕ) (feeds : Feeds) (out : List (ℕ × ℕ)) :
    Prop where
  mem_iff : ∀ p, p ∈ feeds ↔ p ∈ partitions
  serving : ∀ p f, feeds.lookup p = some f →
    ∃ phase, f.Serving window phase ∧ ∀ k, (p, k) ∈ out → ¬ phase.MaySend k
  inflight : ∀ p k, (p, k) ∈ out →
    ∃ f, feeds.lookup p = some f ∧ k ∈ f.delivery.consumer.inflight
  nodup : out.Nodup

namespace Tracked

variable {window threshold p : ℕ} {partitions : List ℕ} {feeds feeds' : Feeds}
  {out out' : List (ℕ × ℕ)} {f f' : Feed}

theorem length_le (h : Tracked window partitions feeds out) :
    out.length ≤ partitions.length * window := by
  let inflight (p : ℕ) : Finset (ℕ × ℕ) :=
    (((feeds.lookup p).map fun f => f.delivery.consumer.inflight.keys).getD []).toFinset.image
      (Prod.mk p)
  have hsub : out.toFinset ⊆ partitions.toFinset.biUnion inflight := by
    rintro ⟨p, k⟩ hmem
    obtain ⟨f, hf, hk⟩ := h.inflight p k (List.mem_toFinset.mp hmem)
    have hp : p ∈ partitions := (h.mem_iff p).mp (AList.lookup_isSome.mp (by rw [hf]; rfl))
    refine Finset.mem_biUnion.mpr ⟨p, List.mem_toFinset.mpr hp, Finset.mem_image.mpr ⟨k, ?_, rfl⟩⟩
    rw [hf]
    exact List.mem_toFinset.mpr (AList.mem_keys.mp hk)
  have hcard : ∀ p ∈ partitions.toFinset, (inflight p).card ≤ window := by
    intro p _
    refine Finset.card_image_le.trans ((toFinset_card_le _).trans ?_)
    cases hf : feeds.lookup p with
    | none => exact Nat.zero_le window
    | some f =>
      obtain ⟨phase, hserving, -⟩ := h.serving p f hf
      exact hserving.inflight_le
  calc out.length = out.toFinset.card := (toFinset_card_of_nodup h.nodup).symm
    _ ≤ (partitions.toFinset.biUnion inflight).card := Finset.card_le_card hsub
    _ ≤ partitions.toFinset.card * window := Finset.card_biUnion_le_card_mul _ _ _ hcard
    _ ≤ partitions.length * window := Nat.mul_le_mul_right _ (toFinset_card_le _)

theorem subset (h : Tracked window partitions feeds out) (hsub : out' ⊆ out)
    (hnodup : out'.Nodup) : Tracked window partitions feeds out' := by
  refine ⟨h.mem_iff, fun p f hf => ?_, fun p k hk => h.inflight p k (hsub hk), hnodup⟩
  obtain ⟨phase, hserving, hfree⟩ := h.serving p f hf
  exact ⟨phase, hserving, fun k hk => hfree k (hsub hk)⟩

theorem perm (h : Tracked window partitions feeds out) (hperm : out.Perm out') :
    Tracked window partitions feeds out' :=
  h.subset hperm.symm.subset (hperm.nodup_iff.mp h.nodup)

theorem insert (h : Tracked window partitions feeds out) (hf : feeds.lookup p = some f)
    {phase : Broker.Phase} (hserving : f'.Serving window phase) (hnodup : out'.Nodup)
    (hother : ∀ q k, q ≠ p → (q, k) ∈ out' → (q, k) ∈ out)
    (hown : ∀ k, (p, k) ∈ out' → ¬ phase.MaySend k ∧ k ∈ f'.delivery.consumer.inflight) :
    Tracked window partitions (feeds.insert p f') out' := by
  have hp : p ∈ feeds := AList.lookup_isSome.mp (by rw [hf]; rfl)
  refine ⟨fun q => ?_, fun q g hg => ?_, fun q k hk => ?_, hnodup⟩
  · rw [← h.mem_iff q, AList.mem_insert]
    exact or_iff_right_of_imp fun hq => hq ▸ hp
  · by_cases hq : q = p
    · subst hq
      rw [AList.lookup_insert] at hg
      obtain rfl := Option.some.inj hg
      exact ⟨phase, hserving, fun k hk => (hown k hk).1⟩
    · rw [AList.lookup_insert_ne hq] at hg
      obtain ⟨phase', hserving', hfree⟩ := h.serving q g hg
      exact ⟨phase', hserving', fun k hk => hfree k (hother q k hq hk)⟩
  · by_cases hq : q = p
    · subst hq
      exact ⟨f', AList.lookup_insert _, (hown k hk).2⟩
    · rw [AList.lookup_insert_ne hq]
      exact h.inflight q k (hother q k hq hk)

variable {k : ℕ}

/-- What is in flight on the partition that moves. -/
theorem mem_of_lookup (h : Tracked window partitions feeds out) (hf : feeds.lookup p = some f)
    (hk : (p, k) ∈ out) : k ∈ f.delivery.consumer.inflight := by
  obtain ⟨g, hg, hmem⟩ := h.inflight p k hk
  obtain rfl := Option.some.inj (hf.symm.trans hg)
  exact hmem

/-- The log and the goroutine of a partition go on. -/
theorem background (h : Tracked window partitions feeds out) {a : FeedAction}
    (ha : Feed.background a = true)
    (hsend : ∀ f i pos msgID, feeds.lookup p = some f → a = .deliver (.advance i) →
      f.phases[i]? ≠ some (.sending pos msgID))
    (hup : feeds.update threshold p a = some feeds') :
    Tracked window partitions feeds' out := by
  obtain ⟨f, f', hf, hstep, rfl⟩ := Feeds.update_eq_some hup
  obtain ⟨phase, hserving, hfree⟩ := h.serving p f hf
  obtain ⟨phase', hserving', hback, hkeep⟩ :=
    hserving.background ha (fun i pos msgID => hsend f i pos msgID hf) hstep
  exact h.insert hf hserving' h.nodup (fun q k _ hk => hk) fun k hk =>
    ⟨fun hmay => hfree k hk (hback k hmay), hkeep k (h.mem_of_lookup hf hk)⟩

theorem sent (h : Tracked window partitions feeds out) {i pos msgID : ℕ}
    (hf : feeds.lookup p = some f) (hi : f.phases[i]? = some (.sending pos msgID))
    (hup : feeds.update threshold p (.deliver (.advance i)) = some feeds') :
    msgID < 2 ^ 64 ∧ Tracked window partitions feeds' ((p, msgID) :: out) := by
  obtain ⟨g, f', hg, hstep, rfl⟩ := Feeds.update_eq_some hup
  obtain rfl := Option.some.inj (hf.symm.trans hg)
  obtain ⟨phase, hserving, hfree⟩ := h.serving p f hf
  obtain ⟨rfl, hserving', hconsumer⟩ := hserving.sent hi hstep
  obtain ⟨hpos, hmem⟩ := hserving.at_record
  have hnew : (p, msgID) ∉ out := fun hk => hfree msgID hk le_rfl
  refine ⟨hserving.lt_of_mem hmem, h.insert hf hserving' (nodup_cons.mpr ⟨hnew, h.nodup⟩)
    (fun q k hq hk => ?_) fun k hk => ?_⟩
  · rcases mem_cons.mp hk with heq | hk
    · exact absurd (congrArg Prod.fst heq) hq
    · exact hk
  · -- The goroutine is past this message, and was past the others.
    rw [hconsumer]
    rcases mem_cons.mp hk with heq | hk
    · obtain rfl : k = msgID := congrArg Prod.snd heq
      exact ⟨fun hmay => by simp only [Broker.Phase.MaySend] at hmay; omega, hmem⟩
    · have hlt := hfree k hk
      refine ⟨fun hmay => hlt ?_, h.mem_of_lookup hf hk⟩
      simp only [Broker.Phase.MaySend] at hmay ⊢
      omega

/-- The server handles an ack or a nack of a message: its copy is no longer outstanding, or it is
handed back when the message stays in flight. -/
theorem settled (h : Tracked window partitions feeds ((p, k) :: out)) {a : DeliveryAction}
    (ha : Feed.settles a = some [k]) (hup : feeds.update threshold p (.deliver a) = some feeds') :
    Tracked window partitions feeds' out ∧
      ∀ f', feeds'.lookup p = some f' → k ∈ f'.delivery.consumer.inflight →
        Tracked window partitions feeds' ((p, k) :: out) := by
  obtain ⟨f, f', hf, hstep, rfl⟩ := Feeds.update_eq_some hup
  obtain ⟨phase, hserving, hfree⟩ := h.serving p f hf
  have hset := Feed.Settled.of_step ha hstep
  have hserving' : f'.Serving window phase := hserving.settled ha (fun j hj => by
    rw [mem_singleton.mp hj]
    exact hfree k mem_cons_self) hstep
  obtain ⟨hnot, hnodup⟩ := nodup_cons.mp h.nodup
  -- The other copies are of other messages.
  have hrest : ∀ j, (p, j) ∈ out →
      ¬ phase.MaySend j ∧ j ∈ f'.delivery.consumer.inflight := fun j hj => by
    have hne : j ∉ [k] := fun hmem => hnot (mem_singleton.mp hmem ▸ hj)
    have hmem := mem_cons_of_mem (p, k) hj
    exact ⟨hfree j hmem, hset.mem hne (h.mem_of_lookup hf hmem)⟩
  refine ⟨h.insert hf hserving' hnodup (fun q j _ hj => mem_cons_of_mem _ hj) hrest,
    fun g hg hmem => h.insert hf hserving' h.nodup (fun q j _ hj => hj) fun j hj => ?_⟩
  rw [AList.lookup_insert] at hg
  obtain rfl := Option.some.inj hg
  rcases mem_cons.mp hj with heq | hj
  · obtain rfl : j = k := congrArg Prod.snd heq
    exact ⟨hfree j mem_cons_self, hmem⟩
  · exact hrest j hj

/-- The sweep decides on messages without outstanding copies that no goroutine will send, and makes
copies of those that stay in flight. -/
theorem swept (h : Tracked window partitions feeds out) {expired new : List ℕ}
    (hfresh : ∀ k ∈ expired, (p, k) ∉ out)
    (hbehind : ∀ f, feeds.lookup p = some f → ∀ k ∈ expired, ∀ phase ∈ f.phases,
      ¬ phase.MaySend k)
    (hup : feeds.update threshold p (.deliver (.sweep expired)) = some feeds')
    (hnew : ∀ f', feeds'.lookup p = some f' →
      ∀ k ∈ new, k ∈ expired ∧ k ∈ f'.delivery.consumer.inflight) (hnodup : new.Nodup) :
    Tracked window partitions feeds' (out ++ new.map (Prod.mk p)) := by
  obtain ⟨f, f', hf, hstep, rfl⟩ := Feeds.update_eq_some hup
  have hnew' := hnew f' (AList.lookup_insert _)
  obtain ⟨phase, hserving, hfree⟩ := h.serving p f hf
  have hphase : phase ∈ f.phases := by
    obtain ⟨earlier, hphases, -⟩ := hserving.last
    rw [hphases]
    exact mem_append_right _ mem_cons_self
  have hset := Feed.Settled.of_step rfl hstep
  have hserving' : f'.Serving window phase :=
    hserving.settled rfl (fun k hk => hbehind f hf k hk phase hphase) hstep
  have hmap : ∀ q k, (q, k) ∈ new.map (Prod.mk p) → q = p ∧ k ∈ new := by
    intro q k hmem
    obtain ⟨j, hj, heq⟩ := List.mem_map.mp hmem
    obtain ⟨rfl, rfl⟩ := Prod.mk.inj heq
    exact ⟨rfl, hj⟩
  refine h.insert hf hserving' ?_ (fun q k hq hk => ?_) fun k hk => ?_
  · -- A copy that is new is of a message that had none.
    refine nodup_append.mpr ⟨h.nodup, hnodup.map (Prod.mk_right_injective p), ?_⟩
    rintro ⟨q, k⟩ hold ⟨q', k'⟩ hmem heq
    obtain ⟨rfl, rfl⟩ := Prod.mk.inj heq
    obtain ⟨rfl, hk⟩ := hmap _ _ hmem
    exact hfresh _ (hnew' _ hk).1 hold
  · rcases mem_append.mp hk with hk | hk
    · exact hk
    · exact absurd (hmap q k hk).1 hq
  · rcases mem_append.mp hk with hk | hk
    · have hne : k ∉ expired := fun hmem => hfresh k hmem hk
      exact ⟨hfree k hk, hset.mem hne (h.mem_of_lookup hf hk)⟩
    · obtain ⟨-, hk⟩ := hmap p k hk
      exact ⟨hbehind f hf k (hnew' k hk).1 phase hphase, (hnew' k hk).2⟩

end Tracked

/-! ## The loop -/

def copyOf (d : Delivery) : ℕ × ℕ := (d.partition, d.msgID.toNat)

/-- The copy that the consumer works on, until the server has handled its call. -/
def Stage.copy (current : Option Delivery) : Stage → Option Delivery
  | .free | .asking _ => current
  | .answered => none

namespace AckLoop

variable {ς : Type} {env : LoopEnv ς} {s s' : AckLoop ς}

/-- The copy that the consumer works on, until the server has handled its call. -/
def inHand (s : AckLoop ς) : Option Delivery :=
  match s.conn.callers with
  | [.waiting _] => if s.conn.wire.isEmpty then none else s.current
  | _ => s.current

/-- The copies that were handed to the session and whose ack or nack the server has not handled. -/
def outstanding (s : AckLoop ς) : List Delivery :=
  s.inHand.toList ++ s.conn.copies ++ s.repush.toList ++ s.tasks

/-- The redelivery sweep decides only on messages without an outstanding copy, and that no delivery
goroutine of the partition will send. -/
def Calm (s : AckLoop ς) : LoopAction → Prop
  | .collect partition expired => ∀ k ∈ expired, (partition, k) ∉ s.outstanding.map copyOf ∧
      ∀ f ∈ s.feeds.lookup partition, ∀ phase ∈ f.phases, ¬ phase.MaySend k
  | _ => True

instance (s : AckLoop ς) : (a : LoopAction) → Decidable (s.Calm a)
  | .collect partition expired =>
    inferInstanceAs (Decidable (∀ k ∈ expired, (partition, k) ∉ s.outstanding.map copyOf ∧
      ∀ f ∈ s.feeds.lookup partition, ∀ phase ∈ f.phases, ¬ phase.MaySend k))
  | .take | .call _ | .write | .ret | .serve | .requeue | .send | .poll | .selectResp
  | .selectMsg | .dispatch | .feed _ _ | .deliver _ _ | .redeliver =>
    inferInstanceAs (Decidable True)

/-- The invariant. -/
structure Ok (env : LoopEnv ς) (window : ℕ) (partitions : List ℕ) (s : AckLoop ς) : Prop where
  subscribed : s.conn.Subscribed
  turn : ∃ stage, Turn s.conn.exchange stage ∧ ∀ req, stage = .asking req →
    ∃ d ack, s.current = some d ∧ req = settleRequest env.consumerID d ack
  tracked : Tracked window partitions s.feeds (s.outstanding.map copyOf)

variable {stage : Stage}

theorem inHand_eq (h : Turn s.conn.exchange stage) : s.inHand = stage.copy s.current := by
  unfold inHand
  cases h with
  | idle hcallers | pushed hcallers => rw [show s.conn.callers = _ from hcallers]; rfl
  | written hcallers hwire | served hcallers hwire | told hcallers hwire =>
    rw [show s.conn.callers = _ from hcallers, show s.conn.wire = _ from hwire]
    rfl

theorem settle_cases (feeds : Feeds) (threshold p : ℕ) (a : DeliveryAction)
    (result : Consumer → Except BrokerError Unit) (missing : BrokerError) :
    (feeds.settle threshold p a result missing).1 = feeds ∨
      feeds.update threshold p (.deliver a) =
        some (feeds.settle threshold p a result missing).1 := by
  unfold Feeds.settle
  rw [Int.toNat_natCast]
  split
  · exact .inl rfl
  · cases hup : feeds.update threshold p (.deliver a) with
    | none => exact .inl rfl
    | some => exact .inr rfl

theorem handleSettle_cases (session : Session Feeds ς) (verb : String) (code : FailCode)
    {call : Feeds → Bytes → ℤ → Bytes → UInt64 → Feeds × Except CallError Unit}
    (consumerID : Bytes) {threshold p : ℕ} {msgID : UInt64} {a : DeliveryAction}
    {result : Consumer → Except BrokerError Unit} {missing : BrokerError}
    (hcall : ∀ feeds topic, (call feeds topic p consumerID msgID).1 =
      (feeds.settle threshold p a result missing).1) :
    (session.handleSettle verb code call consumerID p msgID).2.surplus = [] ∧
      ((session.handleSettle verb code call consumerID p msgID).1.broker = session.broker ∨
        session.broker.update threshold p (.deliver a) =
          some (session.handleSettle verb code call consumerID p msgID).1.broker) := by
  unfold Session.handleSettle
  split_ifs
  · exact ⟨rfl, .inl rfl⟩
  · refine ⟨?_, ?_⟩
    · dsimp only
      split
      next e _ => cases e <;> rfl
      · rfl
    · dsimp only
      rw [hcall]
      exact settle_cases session.broker threshold p a result missing

/-- What the session does with a request of the loop. -/
theorem handleParsed_cases (session : Session Feeds ς) (d : Delivery) (ack : Bool) :
    (∃ reply, (session.handleParsed env.calls (settleRequest env.consumerID d ack).parse).2 =
      some reply ∧ reply.surplus = []) ∧
    ((session.handleParsed env.calls (settleRequest env.consumerID d ack).parse).1.broker =
        session.broker ∨
      session.broker.update env.threshold d.partition
          (.deliver (if ack then .ack d.msgID.toNat else .nack d.msgID.toNat)) =
        some (session.handleParsed env.calls
          (settleRequest env.consumerID d ack).parse).1.broker) := by
  rw [parse_settleRequest]
  cases ack with
  | true =>
    have hcall : ∀ feeds topic,
        (env.calls.ack feeds topic d.partition env.consumerID d.msgID).1 =
          (feeds.settle env.threshold d.partition (.ack d.msgID.toNat)
            (fun c => (c.ack d.msgID.toNat).map fun _ => ())
            (.ackNotInflight d.msgID.toNat env.consumerID)).1 := fun _ _ => rfl
    obtain ⟨hsurplus, hbroker⟩ :=
      handleSettle_cases session "ACK" .ackFailed env.consumerID hcall
    exact ⟨⟨_, rfl, hsurplus⟩, hbroker⟩
  | false =>
    have hcall : ∀ feeds topic,
        (env.calls.nack feeds topic d.partition env.consumerID d.msgID).1 =
          (feeds.settle env.threshold d.partition (.nack d.msgID.toNat)
            (fun c => (c.nackOrKill d.msgID.toNat env.threshold).map fun _ => ())
            (.nackNotInflight d.msgID.toNat env.consumerID)).1 := fun _ _ => rfl
    obtain ⟨hsurplus, hbroker⟩ :=
      handleSettle_cases session "NACK" .nackFailed env.consumerID hcall
    exact ⟨⟨_, rfl, hsurplus⟩, hbroker⟩

theorem handedBack_cases {conn : Conn Feeds ς} {d d' : Delivery} {ack : Bool} {call : Option ℕ}
    (hwire : conn.wire = [⟨(settleRequest env.consumerID d ack).parse, call⟩])
    (h : handedBack env conn = some d') :
    ack = false ∧ copyOf d' = copyOf d ∧
      ∀ f f', conn.session.broker.lookup d.partition = some f →
        f.step env.threshold (.deliver (.nack d.msgID.toNat)) = some f' →
          d.msgID.toNat ∈ f'.delivery.consumer.inflight := by
  unfold handedBack at h
  rw [hwire, parse_settleRequest] at h
  cases ack with
  | true => cases h
  | false =>
    rw [if_neg Bool.false_ne_true] at h
    split_ifs at h
    obtain ⟨f, hf, hverdict⟩ := bind_eq_some_iff.mp h
    split at hverdict
    next c inf hnack =>
      obtain rfl := Option.some.inj hverdict
      refine ⟨rfl, rfl, fun g g' hg hstep => ?_⟩
      rw [Int.toNat_natCast, hg] at hf
      obtain rfl := Option.some.inj hf
      cases hstep
      dsimp only [Consumer.failed]
      rw [hnack]
      exact Consumer.mem_nackOrKill_redeliver hnack
    · cases hverdict

/-- A send touches nothing but the connection. -/
theorem offer_held (s : AckLoop ς) (d : Delivery) :
    (s.offer env d).repush = s.repush ∧ (s.offer env d).tasks = s.tasks := by
  unfold offer
  cases hvia : s.via env (.enqueue d) with
  | none => exact ⟨rfl, rfl⟩
  | some =>
    obtain ⟨conn, -, rfl⟩ := map_eq_some_iff.mp hvia
    exact ⟨rfl, rfl⟩

theorem outstanding_eq (h : Turn s.conn.exchange stage) :
    s.outstanding =
      (stage.copy s.current).toList ++ s.conn.copies ++ s.repush.toList ++ s.tasks := by
  rw [outstanding, inHand_eq h]

namespace Ok

variable {window : ℕ} {partitions : List ℕ}

variable {repush : Option Delivery} {tasks : List Delivery} {stage : Stage} {p : ℕ}

/-- The invariant, for a known stage. -/
theorem of_turn {conn : Conn Feeds ς} {current : Option Delivery} (hsub : conn.Subscribed)
    (hturn : Turn conn.exchange stage) (hasking : ∀ req, stage = .asking req →
      ∃ d ack, current = some d ∧ req = settleRequest env.consumerID d ack)
    (htracked : Tracked window partitions conn.session.broker
      (((stage.copy current).toList ++ conn.copies ++ repush.toList ++ tasks).map copyOf)) :
    Ok env window partitions ⟨conn, current, repush, tasks⟩ := by
  have hturn' : Turn (⟨conn, current, repush, tasks⟩ : AckLoop ς).conn.exchange stage := hturn
  refine ⟨hsub, ⟨stage, hturn', hasking⟩, ?_⟩
  rw [outstanding_eq hturn']
  exact htracked

/-- The loop moves on, and the broker takes no part. -/
theorem of_session_eq (h : s.Ok env window partitions) (hsub : s'.conn.Subscribed)
    (hturn : Turn s'.conn.exchange stage) (hasking : ∀ req, stage = .asking req →
      ∃ d ack, s'.current = some d ∧ req = settleRequest env.consumerID d ack)
    (hsession : s'.conn.session = s.conn.session) (hout : s'.outstanding = s.outstanding) :
    s'.Ok env window partitions := by
  have hfeeds : s'.feeds = s.feeds := congrArg Session.broker hsession
  exact ⟨hsub, ⟨stage, hturn, hasking⟩, hfeeds ▸ hout ▸ h.tracked⟩

/-- A frame moves on. -/
theorem frame (h : s.Ok env window partitions) {a : ConnAction Feeds}
    (ha : a = .send ∨ a = .poll ∨ a = .selectResp ∨ a = .selectMsg ∨ a = .dispatch)
    (hvia : s.via env a = some s') : s'.Ok env window partitions := by
  obtain ⟨conn, hconn, rfl⟩ := map_eq_some_iff.mp hvia
  obtain ⟨stage, hturn, hasking⟩ := h.turn
  have hmoves : Conn.Moves a s.conn conn := by
    rcases ha with rfl | rfl | rfl | rfl | rfl <;>
      exact h.subscribed.step (by simp) (by simp) (by simp) hconn
  have hcopies : conn.copies = s.conn.copies := by
    rcases ha with rfl | rfl | rfl | rfl | rfl <;> exact hmoves.carries
  have hturn' : Turn conn.exchange stage := by
    rcases ha with rfl | rfl | rfl | rfl | rfl
    · exact Conn.exchange_quiet rfl hconn ▸ hturn
    · exact Conn.exchange_quiet rfl hconn ▸ hturn
    · exact Conn.exchange_quiet rfl hconn ▸ hturn
    · exact Conn.exchange_quiet rfl hconn ▸ hturn
    · exact hturn.dispatch hconn
  refine h.of_session_eq hmoves.subscribed hturn' hasking hmoves.session ?_
  rw [outstanding_eq hturn', outstanding_eq hturn]
  rw [hcopies]

/-- The consumer receives a delivery. -/
theorem take (h : s.Ok env window partitions) (hstep : s.step env .take = some s') :
    s'.Ok env window partitions := by
  dsimp only [AckLoop.step] at hstep
  split at hstep
  next d ch hcallers hcurrent hch =>
    obtain ⟨t, hvia, rfl⟩ := map_eq_some_iff.mp hstep
    obtain ⟨conn, hconn, rfl⟩ := map_eq_some_iff.mp hvia
    have hmoves := h.subscribed.step (by simp) (by simp) (by simp) hconn
    have hx := Conn.exchange_quiet rfl hconn
    obtain ⟨stage, hturn, hasking⟩ := h.turn
    have hfree : stage = .free := by
      cases hturn with
      | idle => rfl
      | pushed hc | written hc | served hc | told hc =>
        cases hcallers.symm.trans (show s.conn.callers = _ from hc)
    subst hfree
    have hturn' : Turn conn.exchange .free := hx ▸ hturn
    refine h.of_session_eq hmoves.subscribed hturn' (fun req hreq => (nomatch hreq))
      hmoves.session ?_
    -- The delivery goes from the head of the channel to the hand of the consumer.
    obtain ⟨d', hcopies⟩ := hmoves.carries
    have hhead : d' = d := by
      unfold Conn.copies at hcopies
      rw [hch] at hcopies
      exact (List.cons.inj hcopies).1.symm
    rw [outstanding_eq hturn', outstanding_eq hturn, hcopies, hhead, hcurrent]
    rfl
  · cases hstep

/-- It begins its call. -/
theorem call (h : s.Ok env window partitions) {ack : Bool}
    (hstep : s.step env (.call ack) = some s') : s'.Ok env window partitions := by
  obtain ⟨d, hcurrent, hvia⟩ := bind_eq_some_iff.mp hstep
  obtain ⟨conn, hconn, rfl⟩ := map_eq_some_iff.mp hvia
  obtain ⟨hsub, hrefuse, -⟩ := settleRequest_spec env.consumerID d ack
  obtain ⟨stage, hturn, -⟩ := h.turn
  obtain ⟨rfl, hturn'⟩ := hturn.call h.subscribed (hrefuse s.conn) hconn
  have hmoves := h.subscribed.step (fun i req heq => by cases heq; exact hsub) (by simp) (by simp)
    hconn
  have hcopies : conn.copies = s.conn.copies := hmoves.carries
  refine h.of_session_eq hmoves.subscribed hturn' ?_ hmoves.session ?_
  · rintro req ⟨⟩
    exact ⟨d, ack, hcurrent, rfl⟩
  · rw [outstanding_eq hturn', outstanding_eq hturn]
    dsimp only [Stage.copy]
    rw [hcopies]

/-- It writes its frame. -/
theorem write (h : s.Ok env window partitions) (hvia : s.via env (.write 0) = some s') :
    s'.Ok env window partitions := by
  obtain ⟨conn, hconn, rfl⟩ := map_eq_some_iff.mp hvia
  obtain ⟨stage, hturn, hasking⟩ := h.turn
  have hturn' := hturn.write (fun req hreq id => by
    obtain ⟨d, ack, -, rfl⟩ := hasking req hreq
    exact (settleRequest_spec env.consumerID d ack).2.2 _ id) hconn
  have hmoves := h.subscribed.step (by simp) (by simp) (by simp) hconn
  have hcopies : conn.copies = s.conn.copies := hmoves.carries
  refine h.of_session_eq hmoves.subscribed hturn' hasking hmoves.session ?_
  rw [outstanding_eq hturn', outstanding_eq hturn]
  rw [hcopies]

/-- Its call returns. -/
theorem ret (h : s.Ok env window partitions) (hstep : s.step env .ret = some s') :
    s'.Ok env window partitions := by
  obtain ⟨t, hvia, rfl⟩ := map_eq_some_iff.mp hstep
  obtain ⟨conn, hconn, rfl⟩ := map_eq_some_iff.mp hvia
  obtain ⟨stage, hturn, -⟩ := h.turn
  obtain ⟨rfl, hturn'⟩ := hturn.ret hconn
  have hmoves := h.subscribed.step (by simp) (by simp) (by simp) hconn
  have hcopies : conn.copies = s.conn.copies := hmoves.carries
  refine h.of_session_eq hmoves.subscribed hturn' (fun req hreq => (nomatch hreq))
    hmoves.session ?_
  rw [outstanding_eq hturn', outstanding_eq hturn]
  dsimp only [Stage.copy]
  rw [hcopies]

/-- A copy that someone holds is queued, or dropped when the channel is full. -/
theorem offer (h : s.Ok env window partitions) {d : Delivery}
    (hheld : (s.repush.toList ++ s.tasks).Perm (d :: (repush.toList ++ tasks))) :
    Ok env window partitions { s.offer env d with repush := repush, tasks := tasks } := by
  obtain ⟨stage, hturn, hasking⟩ := h.turn
  have hout : (s.outstanding.map copyOf).Perm
      (((stage.copy s.current).toList ++ (s.conn.copies ++ [d]) ++ repush.toList ++
        tasks).map copyOf) := by
    refine List.Perm.map _ ?_
    rw [outstanding_eq hturn, append_assoc, append_assoc _ repush.toList,
      ← append_assoc _ s.conn.copies, append_assoc _ [d]]
    exact hheld.append_left _
  unfold AckLoop.offer
  cases hvia : s.via env (.enqueue d) with
  | none =>
    have hall := h.tracked.perm hout
    have hsub : ((stage.copy s.current).toList ++ s.conn.copies ++ repush.toList ++
        tasks).Sublist ((stage.copy s.current).toList ++ (s.conn.copies ++ [d]) ++
          repush.toList ++ tasks) :=
      (((sublist_append_left s.conn.copies [d]).append_left _).append_right _).append_right _
    exact of_turn h.subscribed hturn hasking
      (hall.subset (hsub.map copyOf).subset (hall.nodup.sublist (hsub.map copyOf)))
  | some =>
    obtain ⟨conn, hconn, rfl⟩ := map_eq_some_iff.mp hvia
    have hmoves := h.subscribed.step (by simp) (by simp) (by simp) hconn
    have hcopies : conn.copies = s.conn.copies ++ [d] := hmoves.carries
    refine of_turn hmoves.subscribed (Conn.exchange_quiet rfl hconn ▸ hturn) hasking ?_
    dsimp only [getD_some]
    rw [hcopies, hmoves.session]
    exact h.tracked.perm hout

/-- The server handles the call of the consumer. -/
theorem serve (h : s.Ok env window partitions) (hstep : s.step env .serve = some s') :
    s'.Ok env window partitions := by
  dsimp only [AckLoop.step] at hstep
  split_ifs at hstep with hrepush
  obtain ⟨t, hvia, rfl⟩ := map_eq_some_iff.mp hstep
  obtain ⟨conn, hconn, rfl⟩ := map_eq_some_iff.mp hvia
  obtain ⟨stage, hturn, hasking⟩ := h.turn
  obtain ⟨id, req, rfl, hwire, hsession, hturn'⟩ := hturn.serve (fun req hreq => by
    obtain ⟨d, ack, -, rfl⟩ := hasking req hreq
    exact (handleParsed_cases s.conn.session d ack).1) hconn
  obtain ⟨d, ack, hcurrent, rfl⟩ := hasking req rfl
  obtain ⟨hsub, hcopies⟩ := h.subscribed.serve hconn
  refine of_turn hsub hturn' (fun req hreq => (nomatch hreq)) ?_
  -- Before, the copy is in the hand of the consumer.
  have hbefore : Tracked window partitions s.feeds
      (copyOf d :: (s.conn.copies ++ s.tasks).map copyOf) := by
    have htracked := h.tracked
    rw [outstanding_eq hturn, isNone_iff_eq_none.mp hrepush] at htracked
    dsimp only [Stage.copy] at htracked
    rw [hcurrent] at htracked
    simpa using htracked
  -- Afterwards it is gone, or handed back.
  have hafter : Tracked window partitions conn.session.broker
        ((s.conn.copies ++ s.tasks).map copyOf) ∧
      ∀ d', handedBack env s.conn = some d' → Tracked window partitions conn.session.broker
        (copyOf d' :: (s.conn.copies ++ s.tasks).map copyOf) := by
    rw [hsession]
    rcases (handleParsed_cases s.conn.session d ack).2 with hsame | hup
    · rw [hsame]
      refine ⟨hbefore.subset (subset_cons_self _ _) (nodup_cons.mp hbefore.nodup).2,
        fun d' hd' => ?_⟩
      rw [(handedBack_cases hwire hd').2.1]
      exact hbefore
    · have hsettles : Feed.settles (if ack then DeliveryAction.ack d.msgID.toNat
          else .nack d.msgID.toNat) = some [d.msgID.toNat] := by
        cases ack <;> rfl
      obtain ⟨hgone, hback⟩ := hbefore.settled hsettles hup
      refine ⟨hgone, fun d' hd' => ?_⟩
      obtain ⟨rfl, hcopy, hstays⟩ := handedBack_cases hwire hd'
      rw [hcopy]
      obtain ⟨f, f', hf, hf', hfeeds⟩ := Feeds.update_eq_some hup
      refine hback f' ?_ (hstays f f' hf hf')
      rw [hfeeds]
      exact AList.lookup_insert _
  dsimp only [Stage.copy]
  rw [hcopies]
  cases hd' : handedBack env s.conn with
  | none => simpa using hafter.1
  | some d' =>
    refine (hafter.2 d' hd').perm (List.Perm.map copyOf (?_ : (d' :: _).Perm _))
    simpa using perm_middle.symm

/-- The broker moves by itself. -/
theorem setFeeds (h : s.Ok env window partitions) {feeds : Feeds}
    (htracked : ∀ stage : Stage, s.outstanding =
        (stage.copy s.current).toList ++ s.conn.copies ++ s.repush.toList ++ s.tasks →
      Tracked window partitions feeds
        (((stage.copy s.current).toList ++ s.conn.copies ++ s.repush.toList ++
          tasks).map copyOf)) :
    Ok env window partitions { s.setFeeds feeds with tasks := tasks } := by
  obtain ⟨stage, hturn, hasking⟩ := h.turn
  have hsub := h.subscribed
  exact of_turn ⟨hsub.ch, hsub.no_sub, hsub.length_eq, hsub.responses⟩ hturn hasking
    (htracked stage (outstanding_eq hturn))

theorem feed (h : s.Ok env window partitions) {a : FeedAction}
    (hstep : s.step env (.feed p a) = some s') : s'.Ok env window partitions := by
  dsimp only [AckLoop.step] at hstep
  split_ifs at hstep with hguard
  rw [Bool.and_eq_true, Bool.not_eq_true'] at hguard
  obtain ⟨feeds, hup, rfl⟩ := map_eq_some_iff.mp hstep
  refine h.setFeeds fun stage hout => ?_
  rw [← hout]
  refine h.tracked.background hguard.1 ?_ hup
  -- A goroutine that sends goes through the channel.
  rintro f i pos msgID hf rfl hsending
  have hsends : (s.sends p i).isSome = true := by
    unfold sends
    rw [hf, bind_some, hsending]
    rfl
  exact Bool.false_ne_true (hguard.2.symm.trans hsends)

/-- A delivery goroutine sends. -/
theorem deliver (h : s.Ok env window partitions) {i : ℕ}
    (hstep : s.step env (.deliver p i) = some s') : s'.Ok env window partitions := by
  obtain ⟨d, hsends, hrest⟩ := bind_eq_some_iff.mp hstep
  obtain ⟨t, hvia, hfeeds⟩ := bind_eq_some_iff.mp hrest
  obtain ⟨feeds, hup, rfl⟩ := map_eq_some_iff.mp hfeeds
  obtain ⟨conn, hconn, rfl⟩ := map_eq_some_iff.mp hvia
  obtain ⟨f, hf, hsend⟩ := bind_eq_some_iff.mp hsends
  split at hsend
  next pos msgID hsending =>
    obtain rfl := Option.some.inj hsend
    obtain ⟨hlt, htracked⟩ := h.tracked.sent hf hsending hup
    obtain ⟨stage, hturn, hasking⟩ := h.turn
    have hmoves := h.subscribed.step (by simp) (by simp) (by simp) hconn
    have hsub := hmoves.subscribed
    refine of_turn ⟨hsub.ch, hsub.no_sub, hsub.length_eq, hsub.responses⟩
      (Conn.exchange_quiet rfl hconn ▸ hturn) hasking ?_
    have hcopies : conn.copies = s.conn.copies ++ [_] := hmoves.carries
    change Tracked window partitions feeds (((stage.copy s.current).toList ++ conn.copies ++
      s.repush.toList ++ s.tasks).map copyOf)
    have hkey : copyOf ⟨s.conn.session.currentTopic, p, UInt64.ofNat msgID,
        (f.delivery.log.records[msgID]?.map Wal.Record.payload).getD []⟩ = (p, msgID) :=
      congrArg (Prod.mk p) (UInt64.toNat_ofNat_of_lt hlt)
    rw [outstanding_eq hturn, ← hkey, ← map_cons] at htracked
    rw [hcopies]
    refine htracked.perm (List.Perm.map copyOf ?_)
    -- The new copy is the last one that was handed to the session.
    simp only [append_assoc, cons_append, nil_append]
    rw [← append_assoc _ s.conn.copies, ← append_assoc _ s.conn.copies]
    exact perm_middle.symm
  · cases hsend

theorem collect (h : s.Ok env window partitions) {expired : List ℕ}
    (hcalm : s.Calm (.collect p expired)) (hstep : s.step env (.collect p expired) = some s') :
    s'.Ok env window partitions := by
  dsimp only [AckLoop.step] at hstep
  split_ifs at hstep with hguard
  obtain ⟨htasks, hnodup⟩ := hguard
  obtain ⟨feeds, hup, rfl⟩ := map_eq_some_iff.mp hstep
  obtain ⟨f, f', hf, hf', hfeeds⟩ := Feeds.update_eq_some hup
  have hlookup : feeds.lookup p = some f' := by
    rw [hfeeds]
    exact AList.lookup_insert _
  have hconsumer : f'.delivery.consumer =
      f.delivery.consumer.collectExpired env.threshold expired := by
    cases hf'
    rfl
  have htracked := h.tracked.swept (fun k hk => (hcalm k hk).1)
    (fun g hg k hk => (hcalm k hk).2 g hg) hup
    (fun g hg k hk => by
      obtain ⟨task, htask, rfl⟩ := List.mem_map.mp hk
      obtain rfl := Option.some.inj (hlookup.symm.trans hg)
      rw [hconsumer]
      exact Consumer.mem_redeliveries hnodup htask)
    (Consumer.nodup_redeliveries (c := f.delivery.consumer) hnodup)
  refine h.setFeeds fun stage hout => ?_
  rw [hout, htasks, append_nil] at htracked
  -- The tasks are copies of the messages that stay in flight.
  have hkeys : (s.collected env p expired).map copyOf =
      ((f.delivery.consumer.redeliveries env.threshold expired).map Prod.fst).map (Prod.mk p) := by
    unfold collected
    rw [hf, map_some, getD_some, List.map_map, List.map_map]
    refine map_congr_left fun task htask => ?_
    have hmem := (Consumer.mem_redeliveries hnodup htask).2
    rw [← hconsumer] at hmem
    obtain ⟨phase, hserving, -⟩ := htracked.serving p f' hlookup
    exact congrArg (Prod.mk p) (UInt64.toNat_ofNat_of_lt (hserving.lt_of_mem hmem))
  rw [map_append, hkeys]
  exact htracked

theorem step (h : s.Ok env window partitions) {a : LoopAction} (hcalm : s.Calm a)
    (hstep : s.step env a = some s') : s'.Ok env window partitions := by
  cases a with
  | take => exact h.take hstep
  | call => exact h.call hstep
  | write => exact h.write hstep
  | ret => exact h.ret hstep
  | serve => exact h.serve hstep
  | requeue =>
    obtain ⟨d, hrepush, rfl⟩ := map_eq_some_iff.mp hstep
    refine h.offer ?_
    rw [(offer_held s d).2, hrepush]
    exact List.Perm.refl _
  | send =>
    dsimp only [AckLoop.step] at hstep
    split_ifs at hstep
    exact h.frame (.inl rfl) hstep
  | poll => exact h.frame (.inr (.inl rfl)) hstep
  | selectResp => exact h.frame (.inr (.inr (.inl rfl))) hstep
  | selectMsg => exact h.frame (.inr (.inr (.inr (.inl rfl)))) hstep
  | dispatch => exact h.frame (.inr (.inr (.inr (.inr rfl)))) hstep
  | feed => exact h.feed hstep
  | deliver => exact h.deliver hstep
  | collect => exact h.collect hcalm hstep
  | redeliver =>
    dsimp only [AckLoop.step] at hstep
    split at hstep
    · cases hstep
    next d tasks htasks =>
      cases hstep
      refine h.offer ?_
      rw [(offer_held s d).1, htasks]
      exact perm_middle

theorem not_deadlocked (h : s.Ok env window partitions)
    (hroom : partitions.length * window ≤ deliveryChBuf) : ¬ s.Deadlocked := by
  rintro ⟨⟨ch, hch, hfull⟩, id, d, call, rest, -, -, hstream, -⟩
  have hcopies : ch.length + 1 ≤ s.conn.copies.length := by
    unfold Conn.copies
    have hmsg : Sent.delivery? ⟨.msg d, call⟩ = some d := rfl
    rw [hch, hstream, filterMap_cons_some hmsg]
    simp only [getD_some, length_append, length_cons]
    omega
  have hout : s.conn.copies.length ≤ s.outstanding.length := by
    unfold outstanding
    simp only [length_append]
    omega
  have hslots := h.tracked.length_le
  rw [length_map] at hslots
  omega

end Ok

/-- The invariant at the start. -/
theorem ok_new {window : ℕ} {feeds : Feeds} (topic : Bytes) (subs : List ς)
    (hfeeds : ∀ p f, feeds.lookup p = some f → f.Serving window .spawned) :
    (new topic subs feeds).Ok env window feeds.keys := by
  refine ⟨⟨rfl, fun c hc => (nomatch hc), rfl, fun f hf => (nomatch hf)⟩,
    ⟨.free, .idle rfl rfl rfl rfl, fun req hreq => (nomatch hreq)⟩, ?_⟩
  exact ⟨fun p => Iff.rfl, fun p f hf => ⟨.spawned, hfeeds p f hf, fun k hk => (nomatch hk)⟩,
    fun p k hk => (nomatch hk), nodup_nil⟩

/-- The loop never deadlocks when the windows of the subscribed partitions together are no larger
than the channel of deliveries and the redelivery sweep is calm. The log, the offsets and what an
earlier subscription left in flight are arbitrary. -/
theorem no_deadlock (env : LoopEnv ς) {window : ℕ} {feeds : Feeds} (topic : Bytes) (subs : List ς)
    (hfeeds : ∀ p f, feeds.lookup p = some f → f.Serving window .spawned)
    (hroom : feeds.keys.length * window ≤ deliveryChBuf) {as : List LoopAction}
    (hrun : Run (step env) Calm (new topic subs feeds) as s) : ¬ s.Deadlocked := by
  have hok : s.Ok env window feeds.keys := hrun.invariant (ok_new topic subs hfeeds)
    fun _ _ _ hcalm h hstep => Ok.step h hcalm hstep
  exact hok.not_deadlocked hroom

/-- With a window of 64 on one partition, four messages overtake a response and the sweep passes. -/
theorem no_deadlock_overtaken :
    ∃ s, Run (step plainEnv) Calm (plainLoop 64) (overtaken 3 ++ [.collect 0 []]) s ∧
      s.conn.stream.length = 2 ∧ ¬ s.Deadlocked := by
  have hfeeds : ∀ (p : ℕ) (f : Feed),
      (AList.singleton 0 (Feed.subscribed [99] 64) : Feeds).lookup p = some f →
        f.Serving 64 .spawned := by
    intro p f hf
    rw [← AList.insert_empty] at hf
    by_cases hp : p = 0
    · rw [hp, AList.lookup_insert] at hf
      obtain rfl := Option.some.inj hf
      exact Feed.serving_subscribed [99] 64
    · rw [AList.lookup_insert_ne hp] at hf
      cases hf
  exact exists_run_of_exec (by decide +kernel) fun _ hrun hlen =>
    ⟨hlen, no_deadlock plainEnv [116] [()] hfeeds le_rfl hrun⟩

end AckLoop

end ToyMQ.Client
