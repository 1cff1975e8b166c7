import Mathlib.Data.Int.CardIntervalMod
import ToyMQ.Broker.Node

/-!
# Routing of publishes

Publishes without a key take the partitions of a topic in turn. Whatever publishes with keys or to
explicit partitions come in between, the turns are spread evenly (`keyless_spread`).
-/

namespace ToyMQ.Broker

open Lib List

/-- What a publish says about its partition. -/
structure RouteRequest where
  partition : ℤ := 0
  explicit : Bool := false
  routingKey : Bytes := []
deriving DecidableEq, Repr

/-- Neither a partition nor a key is given. -/
def RouteRequest.keyless (r : RouteRequest) : Bool := !r.explicit && r.routingKey.isEmpty

/-- The partitions that the requests without a key are routed to, in a sequence of requests. -/
def Topic.turns (t : Topic) : List RouteRequest → List ℕ
  | [] => []
  | r :: rs =>
    let routed := t.route r.partition r.explicit r.routingKey
    (if r.keyless then routed.2.toOption.toList else []) ++ Topic.turns routed.1 rs

section

variable {t : Topic} {r : RouteRequest}

theorem Topic.route_of_not_keyless (h : r.keyless = false) :
    (t.route r.partition r.explicit r.routingKey).1 = t := by
  unfold Topic.route
  dsimp only
  split_ifs with hexplicit hone hkey <;> simp_all [RouteRequest.keyless]

theorem Topic.route_of_keyless (hn : t.partitions.length ≠ 1) (h : r.keyless = true) :
    t.route r.partition r.explicit r.routingKey =
      ({ t with rr := t.rr + 1 },
        .ok (t.rr % UInt64.ofNat t.partitions.length).toNat) := by
  unfold Topic.route
  simp_all [RouteRequest.keyless]

theorem Topic.turns_eq {rs : List RouteRequest} (hn : t.partitions.length ≠ 1)
    (hsize : t.partitions.length < 2 ^ 64) (hrr : t.rr.toNat + rs.length < 2 ^ 64) :
    t.turns rs = (List.range (rs.countP (·.keyless))).map
      fun j => (t.rr.toNat + j) % t.partitions.length := by
  induction rs generalizing t with
  | nil => rfl
  | cons r rs ih =>
    rw [length_cons] at hrr
    unfold Topic.turns
    dsimp only
    cases hkey : r.keyless with
    | false =>
      rw [Topic.route_of_not_keyless hkey, ih hn hsize (by omega),
        countP_cons_of_neg (by simp [hkey])]
      rfl
    | true =>
      have hnext : (t.rr + 1).toNat = t.rr.toNat + 1 := by
        rw [UInt64.toNat_add]
        exact Nat.mod_eq_of_lt (by simp; omega)
      have hfirst : (t.rr % UInt64.ofNat t.partitions.length).toNat =
          t.rr.toNat % t.partitions.length := by
        rw [UInt64.toNat_mod, UInt64.toNat_ofNat', Nat.mod_eq_of_lt hsize]
      have hrest := ih (t := { t with rr := t.rr + 1 }) hn hsize (by dsimp only; omega)
      rw [Topic.route_of_keyless hn hkey]
      rw [hrest, countP_cons_of_pos hkey, range_succ_eq_map, map_cons, List.map_map,
        hnext]
      simp [Except.toOption, hfirst, Function.comp_def, Nat.add_assoc, Nat.add_comm 1]

end

/-- From a new topic on, publishes without a key are spread evenly over its partitions, to within
one, whatever other publishes come in between. -/
theorem keyless_spread {t : Topic} {rs : List RouteRequest} (hn : 1 < t.partitions.length)
    (hsize : t.partitions.length < 2 ^ 64) (hrr : t.rr = 0) (hlen : rs.length < 2 ^ 64) {i : ℕ}
    (hi : i < t.partitions.length) :
    (t.turns rs).count i = rs.countP (·.keyless) / t.partitions.length +
      if i < rs.countP (·.keyless) % t.partitions.length then 1 else 0 := by
  have hturn : ∀ j, ((t.rr.toNat + j) % t.partitions.length == i) =
      decide (j ≡ i [MOD t.partitions.length]) := fun j => by
    rw [Bool.eq_iff_iff, beq_iff_eq, decide_eq_true_iff, Nat.ModEq, Nat.mod_eq_of_lt hi, hrr,
      UInt64.toNat_zero, Nat.zero_add]
  have hcount := Nat.count_modEq_card (rs.countP (·.keyless)) (Nat.zero_lt_of_lt hn) i
  rw [Nat.mod_eq_of_lt hi, Nat.count_eq_card_filter_range] at hcount
  rw [Topic.turns_eq hn.ne' hsize (by simpa [hrr] using hlen), ← hcount, List.count,
    countP_map, countP_eq_length_filter]
  simp only [Function.comp_def, hturn]
  rfl

/-- Three partitions, and four turns with two other publishes among them. -/
theorem keyless_spread_mixed :
    let t : Topic := (⟨8, 3, 4, 0⟩ : Config).openTopic 0
    let rs : List RouteRequest :=
      [{}, { routingKey := [107] }, {}, {}, { partition := 2, explicit := true }, {}]
    (t.turns rs).count 0 = 4 / 3 + (if 0 < 4 % 3 then 1 else 0) ∧ t.turns rs = [0, 1, 2, 0] :=
  ⟨keyless_spread (by decide) (by decide) rfl (by decide) (by decide), by decide +kernel⟩

end ToyMQ.Broker
