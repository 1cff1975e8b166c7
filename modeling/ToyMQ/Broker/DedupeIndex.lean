import ToyMQ.Broker.Node
import ToyMQ.Lib.Run

/-!
# The dedupe index as a list and a map

`DedupeIndex` of the source is a linked list of entries in the order of their last use, and a map
from keys to the elements of that list. `LinkedIndex` has both, with the elements as positions in
the values that were ever allocated. `LinkedIndex.Represents` relates it to the bounded map of the
broker model, and `Represents.lookup` and `Represents.insert` are the simulation.

The bounded map in turn holds the latest keys that were used (`Lru.Tracks`). `Recorded` says this
of a partition and the publishes that it has answered. `applyPublish_refines_lru` puts the two
together: what `applyPublish` answers and appends is determined by the publishes before it.
-/

namespace ToyMQ.Broker

open Lib List Option

/-- `DedupeEntry`. -/
structure DedupeEntry where
  key : Bytes
  msgID : UInt64
deriving DecidableEq, Repr

/-- `DedupeIndex`. An element of the list is a position in `values`, which keeps the values of
elements that have been removed. -/
structure LinkedIndex where
  cap : ℕ
  values : List DedupeEntry
  /-- `order`: the elements of the list, the front first. -/
  order : List ℕ
  byKey : AList fun _ : Bytes => ℕ

namespace LinkedIndex

/-- `NewDedupeIndex`. -/
def new (capacity : ℕ) : LinkedIndex := ⟨capacity, [], [], ∅⟩

/-- The value of an element. -/
def value (d : LinkedIndex) (elem : ℕ) : DedupeEntry := d.values.getD elem ⟨[], 0⟩

/-- `MoveToFront` of the list. -/
def moveToFront (d : LinkedIndex) (elem : ℕ) : LinkedIndex :=
  if elem ∈ d.order then { d with order := elem :: d.order.erase elem } else d

/-- `Lookup`. -/
def lookup (d : LinkedIndex) (key : Bytes) : Option UInt64 × LinkedIndex :=
  match d.byKey.lookup key with
  | none => (none, d)
  | some elem => (some (d.value elem).msgID, d.moveToFront elem)

/-- The part of `Insert` that removes the element at the back of a list over capacity. -/
def evict (d : LinkedIndex) : LinkedIndex :=
  if d.cap < d.order.length then
    match d.order.getLast? with
    | none => d
    | some oldest =>
      { d with byKey := d.byKey.erase (d.value oldest).key, order := d.order.erase oldest }
  else d

/-- The part of `Insert` that puts a new element at the front. -/
def pushFront (d : LinkedIndex) (key : Bytes) (msgID : UInt64) : LinkedIndex :=
  { d with
    values := d.values ++ [⟨key, msgID⟩]
    order := d.values.length :: d.order
    byKey := d.byKey.insert key d.values.length }

/-- `Insert`. -/
def insert (d : LinkedIndex) (key : Bytes) (msgID : UInt64) : LinkedIndex :=
  match d.byKey.lookup key with
  | some elem => LinkedIndex.moveToFront { d with values := d.values.set elem ⟨key, msgID⟩ } elem
  | none => (d.pushFront key msgID).evict

/-- The keys in the list, the front first. -/
def listKeys (d : LinkedIndex) : List Bytes := d.order.map fun elem => (d.value elem).key

/-! ## Simulation of the bounded map -/

/-- The entry of the bounded map for an element. -/
def entry (d : LinkedIndex) (elem : ℕ) : Sigma fun _ : Bytes => UInt64 :=
  ⟨(d.value elem).key, (d.value elem).msgID⟩

/-- The list has the entries of the bounded map in their order, and the map points to exactly the
elements of the list. -/
structure Represents (d : LinkedIndex) (l : DedupeIndex) : Prop where
  cap : d.cap = l.cap
  entries : d.order.map d.entry = l.order.entries
  nodup : d.order.Nodup
  allocated : ∀ elem ∈ d.order, elem < d.values.length
  byKey : ∀ key elem, d.byKey.lookup key = some elem ↔
    elem ∈ d.order ∧ (d.value elem).key = key

theorem represents_new (capacity : ℕ) : (new capacity).Represents (.empty capacity) :=
  ⟨rfl, rfl, nodup_nil, nofun, by simp [new]⟩

theorem map_entry_erase (f : ℕ → Sigma fun _ : Bytes => UInt64) {order : List ℕ} {elem : ℕ}
    (huniq : ∀ e ∈ order, (f e).1 = (f elem).1 → e = elem) :
    (order.erase elem).map f = (order.map f).kerase (f elem).1 := by
  induction order with
  | nil => rfl
  | cons e order ih =>
    by_cases he : e = elem
    · rw [he, erase_cons_head, map_cons, kerase_cons_eq rfl]
    · have hne : (f elem).1 ≠ (f e).1 := fun h => he (huniq e (mem_cons_self) h.symm)
      rw [erase_cons_tail (by simpa using he), map_cons, map_cons,
        kerase_cons_ne hne, ih fun e' he' => huniq e' (mem_cons_of_mem e he')]

namespace Represents

variable {d : LinkedIndex} {l : DedupeIndex} {key : Bytes} {elem : ℕ}

/-- The list and the map hold the same keys. -/
theorem mem_listKeys_iff (h : d.Represents l) : key ∈ d.listKeys ↔ key ∈ d.byKey := by
  unfold listKeys
  rw [← AList.lookup_isSome, isSome_iff_exists, List.mem_map]
  exact exists_congr fun elem => (h.byKey key elem).symm

theorem listKeys_eq (h : d.Represents l) : d.listKeys = l.order.keys := by
  unfold listKeys AList.keys List.keys
  rw [← h.entries, List.map_map]
  rfl

theorem get?_eq (h : d.Represents l) (key : Bytes) :
    l.get? key = (d.byKey.lookup key).map fun elem => (d.value elem).msgID := by
  cases hkey : d.byKey.lookup key with
  | none =>
    refine AList.lookup_eq_none.mpr fun hmem => ?_
    have hin : key ∈ d.byKey := by
      rw [← h.mem_listKeys_iff, h.listKeys_eq, ← AList.mem_keys]
      exact hmem
    rw [AList.lookup_eq_none] at hkey
    exact hkey hin
  | some elem =>
    obtain ⟨hmem, rfl⟩ := (h.byKey key elem).mp hkey
    refine AList.mem_lookup_iff.mpr ?_
    rw [← h.entries]
    exact List.mem_map_of_mem hmem

/-- Only one element has the key of `elem`. -/
theorem unique (h : d.Represents l) (hmem : elem ∈ d.order) :
    ∀ e ∈ d.order, (d.value e).key = (d.value elem).key → e = elem := fun e he hkey => by
  have hboth := ((h.byKey _ e).mpr ⟨he, hkey⟩).symm.trans ((h.byKey _ elem).mpr ⟨hmem, rfl⟩)
  exact Option.some.inj hboth

theorem moveToFront (h : d.Represents l) (hmem : elem ∈ d.order) :
    (d.moveToFront elem).Represents
      { l with order := l.order.insert (d.value elem).key (d.value elem).msgID } := by
  have heq : d.moveToFront elem = { d with order := elem :: d.order.erase elem } := if_pos hmem
  rw [heq]
  refine ⟨h.cap, ?_, ?_, ?_, ?_⟩
  · have herase := map_entry_erase d.entry (h.unique hmem)
    rw [h.entries] at herase
    exact congrArg (List.cons (d.entry elem)) herase
  · exact nodup_cons.mpr ⟨h.nodup.not_mem_erase, h.nodup.erase elem⟩
  · intro e he
    exact h.allocated e ((perm_cons_erase hmem).mem_iff.mpr he)
  · intro key e
    rw [h.byKey key e, (perm_cons_erase hmem).mem_iff]
    rfl

/-- `Lookup` is the lookup of the bounded map. -/
theorem lookup (h : d.Represents l) (key : Bytes) :
    (d.lookup key).1 = (l.lookup key).1 ∧ (d.lookup key).2.Represents (l.lookup key).2 := by
  have hget := h.get?_eq key
  unfold LinkedIndex.lookup Lru.lookup
  rw [show l.order.lookup key = _ from hget]
  cases hkey : d.byKey.lookup key with
  | none => exact ⟨rfl, h⟩
  | some elem =>
    obtain ⟨hmem, rfl⟩ := (h.byKey key elem).mp hkey
    exact ⟨rfl, h.moveToFront hmem⟩

theorem overwrite (h : d.Represents l) (hmem : elem ∈ d.order) (msgID : UInt64) :
    (LinkedIndex.moveToFront
      { d with values := d.values.set elem ⟨(d.value elem).key, msgID⟩ } elem).Represents
      { l with order := l.order.insert (d.value elem).key msgID } := by
  have halloc := h.allocated elem hmem
  have hnot : elem ∉ d.order.erase elem := h.nodup.not_mem_erase
  set d' : LinkedIndex :=
    { d with values := d.values.set elem ⟨(d.value elem).key, msgID⟩ } with hd'
  -- Only the id of the element changes, and no key.
  have hself : d'.value elem = ⟨(d.value elem).key, msgID⟩ := by
    simp [LinkedIndex.value, hd', halloc]
  have hother : ∀ e, e ≠ elem → d'.value e = d.value e := fun e he => by
    simp [LinkedIndex.value, hd', getElem?_set_ne (Ne.symm he)]
  have hkeys : ∀ e, (d'.value e).key = (d.value e).key := fun e => by
    by_cases he : e = elem
    · rw [he, hself]
    · rw [hother e he]
  have heq : d'.moveToFront elem = { d' with order := elem :: d.order.erase elem } := if_pos hmem
  rw [heq]
  refine ⟨h.cap, ?_, nodup_cons.mpr ⟨hnot, h.nodup.erase elem⟩, ?_, ?_⟩
  · have hrest : (d.order.erase elem).map d'.entry = (d.order.erase elem).map d.entry :=
      map_congr_left fun e he => by
        have hne : e ≠ elem := fun hee => hnot (hee ▸ he)
        rw [LinkedIndex.entry, LinkedIndex.entry, hother e hne]
    have hfront : d'.entry elem = ⟨(d.value elem).key, msgID⟩ := by
      rw [LinkedIndex.entry, hself]
    have herase := map_entry_erase d.entry (h.unique hmem)
    rw [h.entries] at herase
    calc (elem :: d.order.erase elem).map d'.entry
        = d'.entry elem :: (d.order.erase elem).map d'.entry := map_cons
      _ = ⟨(d.value elem).key, msgID⟩ :: l.order.entries.kerase (d.value elem).key := by
        rw [hrest, hfront, herase]
        rfl
  · intro e he
    have hlen : d'.values.length = d.values.length := length_set
    exact hlen ▸ h.allocated e ((perm_cons_erase hmem).mem_iff.mpr he)
  · intro key e
    rw [show (LinkedIndex.value { d' with order := elem :: d.order.erase elem } e).key =
      (d'.value e).key from rfl, hkeys e]
    exact (h.byKey key e).trans (and_congr_left' (perm_cons_erase hmem).mem_iff)

/-- A new element at the front is a new entry. -/
theorem pushFront (h : d.Represents l) (hnew : d.byKey.lookup key = none) (msgID : UInt64) :
    (d.pushFront key msgID).Represents { l with order := l.order.insert key msgID } := by
  have hself : (d.pushFront key msgID).value d.values.length = ⟨key, msgID⟩ := by
    simp [LinkedIndex.value, LinkedIndex.pushFront]
  have hother : ∀ e ∈ d.order, (d.pushFront key msgID).value e = d.value e := fun e he => by
    simp [LinkedIndex.value, LinkedIndex.pushFront, getElem?_append_left (h.allocated e he)]
  have hfresh : d.values.length ∉ d.order := fun hin => lt_irrefl _ (h.allocated _ hin)
  have hout : key ∉ l.order := by
    rw [← AList.lookup_eq_none]
    exact (h.get?_eq key).trans (by rw [hnew]; rfl)
  refine ⟨h.cap, ?_, nodup_cons.mpr ⟨hfresh, h.nodup⟩, ?_, ?_⟩
  · have hrest : d.order.map (d.pushFront key msgID).entry = d.order.map d.entry :=
      map_congr_left fun e he => by rw [LinkedIndex.entry, LinkedIndex.entry, hother e he]
    calc (d.pushFront key msgID).order.map (d.pushFront key msgID).entry
        = (d.pushFront key msgID).entry d.values.length ::
            d.order.map (d.pushFront key msgID).entry := map_cons
      _ = ⟨key, msgID⟩ :: l.order.entries := by
        rw [hrest, h.entries, LinkedIndex.entry, hself]
      _ = (l.order.insert key msgID).entries := (AList.entries_insert_of_notMem hout).symm
  · intro e he
    have hlen : (d.pushFront key msgID).values.length = d.values.length + 1 := by
      simp [LinkedIndex.pushFront]
    rcases mem_cons.mp he with rfl | he
    · omega
    · have hlt := h.allocated e he
      omega
  · intro k e
    have hmem : e ∈ (d.pushFront key msgID).order ↔ e = d.values.length ∨ e ∈ d.order :=
      mem_cons
    rw [hmem]
    change (d.byKey.insert key d.values.length).lookup k = some e ↔ _
    by_cases hk : k = key
    · -- No element had the key before.
      rw [hk, AList.lookup_insert, Option.some.injEq]
      constructor
      · rintro rfl
        exact ⟨.inl rfl, by rw [hself]⟩
      · rintro ⟨rfl | he, hkey⟩
        · rfl
        · rw [hother e he] at hkey
          rw [(h.byKey key e).mpr ⟨he, hkey⟩] at hnew
          cases hnew
    · rw [AList.lookup_insert_ne hk, h.byKey k e]
      constructor
      · rintro ⟨he, hkey⟩
        exact ⟨.inr he, by rw [hother e he, hkey]⟩
      · rintro ⟨rfl | he, hkey⟩
        · rw [hself] at hkey
          exact absurd hkey.symm hk
        · exact ⟨he, by rw [← hother e he, hkey]⟩

theorem evict (h : d.Represents l) :
    d.evict.Represents
      (if l.cap < l.order.entries.length then { l with order := Lru.dropOldest l.order }
        else l) := by
  have hlen : l.order.entries.length = d.order.length := by rw [← h.entries, length_map]
  unfold LinkedIndex.evict
  rw [hlen, h.cap]
  split_ifs with hover
  · have hne : d.order ≠ [] := ne_nil_of_length_pos (by omega)
    obtain ⟨oldest, holdest⟩ := isSome_iff_exists.mp (getLast?_isSome.mpr hne)
    obtain ⟨front, hfront⟩ := getLast?_eq_some_iff.mp holdest
    have hin : oldest ∈ d.order := mem_of_getLast? holdest
    have hout : oldest ∉ front := by
      have hnodup := h.nodup
      rw [hfront, nodup_append] at hnodup
      exact fun hmem => hnodup.2.2 oldest hmem oldest (mem_singleton_self _) rfl
    have herase : d.order.erase oldest = front := by
      rw [hfront, erase_append_right _ hout, erase_cons_head, append_nil]
    rw [holdest]
    dsimp only
    rw [herase]
    have hsub : ∀ e, e ∈ front ↔ e ∈ d.order ∧ e ≠ oldest := fun e => by
      rw [hfront, mem_append, mem_singleton]
      constructor
      · exact fun he => ⟨.inl he, fun hee => hout (hee ▸ he)⟩
      · exact fun he => he.1.resolve_right he.2
    refine ⟨rfl, ?_, ?_, fun e he => h.allocated e ((hsub e).mp he).1, ?_⟩
    · change front.map d.entry = l.order.entries.dropLast
      rw [← h.entries, hfront, map_append, map_singleton, dropLast_concat]
    · exact (nodup_append.mp (hfront ▸ h.nodup)).1
    · intro k e
      change (d.byKey.erase (d.value oldest).key).lookup k = some e ↔
        e ∈ front ∧ (d.value e).key = k
      rw [hsub]
      by_cases hk : k = (d.value oldest).key
      · rw [hk, AList.lookup_erase]
        refine iff_of_false nofun fun hboth => ?_
        exact hboth.1.2 (h.unique hin e hboth.1.1 hboth.2)
      · rw [AList.lookup_erase_ne hk, h.byKey]
        constructor
        · rintro ⟨he, hkey⟩
          refine ⟨⟨he, ?_⟩, hkey⟩
          rintro rfl
          exact hk hkey.symm
        · rintro ⟨⟨he, -⟩, hkey⟩
          exact ⟨he, hkey⟩
  · exact h

/-- `Insert` is the insertion of the bounded map. -/
theorem insert (h : d.Represents l) (key : Bytes) (msgID : UInt64) :
    (d.insert key msgID).Represents (l.insert key msgID) := by
  have hget := h.get?_eq key
  unfold LinkedIndex.insert Lru.insert
  cases hkey : d.byKey.lookup key with
  | none =>
    rw [hkey] at hget
    rw [if_neg (AList.lookup_eq_none.mp hget)]
    exact (h.pushFront hkey msgID).evict
  | some elem =>
    rw [hkey] at hget
    obtain ⟨hmem, rfl⟩ := (h.byKey key elem).mp hkey
    rw [if_pos (AList.lookup_isSome.mp (isSome_of_eq_some hget))]
    exact h.overwrite hmem msgID

end Represents

end LinkedIndex

/-! ## Publishing -/

/-- What `applyPublish` works on: the log of a partition and its dedupe index. -/
structure KeyedLog where
  log : List Wal.Record
  dedupe : LinkedIndex

/-- The arguments of `applyPublish`. -/
structure PublishArgs where
  tsNs : UInt64
  visibleAtNs : UInt64
  raftIndex : UInt64
  dedupeKey : Bytes
  payload : Bytes
deriving DecidableEq, Repr

namespace KeyedLog

def record (k : KeyedLog) (a : PublishArgs) : Wal.Record :=
  ⟨UInt64.ofNat k.log.length, a.tsNs, a.dedupeKey, a.payload, a.visibleAtNs, a.raftIndex⟩

/-- `applyPublish`. -/
def applyPublish (k : KeyedLog) (a : PublishArgs) : KeyedLog × Except BrokerError ApplyResult :=
  match if a.dedupeKey ≠ [] then k.dedupe.lookup a.dedupeKey else (none, k.dedupe) with
  | (some existing, dedupe) => ({ k with dedupe := dedupe }, .ok ⟨existing, true⟩)
  | (none, dedupe) =>
    let rec' := k.record a
    if Wal.Fits rec' then
      ({ log := k.log ++ [rec']
         dedupe := if a.dedupeKey ≠ [] then dedupe.insert a.dedupeKey rec'.msgID else dedupe },
        .ok ⟨rec'.msgID, false⟩)
    else ({ k with dedupe := dedupe }, .error .tooLarge)

/-- The log is that of the partition, and the index represents the partition's bounded map. -/
structure Represents (k : KeyedLog) (p : Partition) : Prop where
  log : k.log = p.log
  dedupe : k.dedupe.Represents p.dedupe

theorem Represents.applyPublish {k : KeyedLog} {p : Partition} (h : k.Represents p)
    (a : PublishArgs) :
    (k.applyPublish a).1.Represents
        (p.applyPublish a.tsNs a.visibleAtNs a.raftIndex a.dedupeKey a.payload).1 ∧
      (k.applyPublish a).2 =
        (p.applyPublish a.tsNs a.visibleAtNs a.raftIndex a.dedupeKey a.payload).2 := by
  have hrec : k.record a =
      p.nextRecord a.tsNs a.visibleAtNs a.raftIndex a.dedupeKey a.payload := by
    unfold record Partition.nextRecord
    rw [h.log]
  obtain ⟨hfound, hindex⟩ := h.dedupe.lookup a.dedupeKey
  unfold KeyedLog.applyPublish Partition.applyPublish DedupeIndex.find DedupeIndex.note
  rw [hrec]
  by_cases hkey : a.dedupeKey = []
  · simp only [hkey, ne_eq, not_true_eq_false, if_false]
    split_ifs
    · exact ⟨⟨by rw [h.log], h.dedupe⟩, rfl⟩
    · exact ⟨⟨h.log, h.dedupe⟩, rfl⟩
  · simp only [ne_eq, hkey, not_false_eq_true, if_true]
    rcases hres : p.dedupe.lookup a.dedupeKey with ⟨found, l⟩
    rcases hres' : k.dedupe.lookup a.dedupeKey with ⟨found', d⟩
    rw [hres, hres'] at hfound hindex
    obtain rfl : found' = found := hfound
    cases found' with
    | some => exact ⟨⟨h.log, hindex⟩, rfl⟩
    | none =>
      -- A lookup that finds nothing changes nothing.
      obtain rfl : l = p.dedupe := by
        have hnone : p.dedupe.order.lookup a.dedupeKey = none := by
          have hfst := p.dedupe.lookup_fst a.dedupeKey
          rw [hres] at hfst
          exact hfst.symm
        unfold Lru.lookup at hres
        rw [hnone] at hres
        exact (Prod.mk.inj hres).2.symm
      split_ifs
      · exact ⟨⟨by rw [h.log], hindex.insert _ _⟩, rfl⟩
      · exact ⟨⟨h.log, hindex⟩, rfl⟩

end KeyedLog

/-! ## What the publishes before it say of an answer -/

/-- The publishes that a partition has answered, in order, by their dedupe keys. -/
abbrev History := List (Bytes × ApplyResult)

namespace History

/-- The uses of dedupe keys: every publish with one, fresh or duplicate. -/
def uses (history : History) : List Bytes := (history.map Prod.fst).filter (· ≠ [])

/-- The `cap` most recently used distinct keys. -/
def recentKeys (cap : ℕ) (history : History) : List Bytes := (Lru.byRecency history.uses).take cap

/-- The id of the record that the latest fresh publish with a key has written. -/
def latestFresh (history : History) (key : Bytes) : Option UInt64 :=
  ((history.filter fun answered => answered.1 = key && !answered.2.dup).getLast?).map
    fun answered => answered.2.msgID

theorem uses_snoc_keyed (history : History) {key : Bytes} (hkey : key ≠ []) (r : ApplyResult) :
    uses (history ++ [(key, r)]) = history.uses ++ [key] := by
  simp [uses, hkey]

theorem uses_snoc_nil (history : History) (r : ApplyResult) :
    uses (history ++ [([], r)]) = history.uses := by
  simp [uses]

theorem latestFresh_snoc_dup (history : History) (key : Bytes) (msgID : UInt64) :
    latestFresh (history ++ [(key, ⟨msgID, true⟩)]) = history.latestFresh := by
  funext j
  simp [latestFresh]

theorem latestFresh_snoc_fresh (history : History) (key : Bytes) (msgID : UInt64) :
    latestFresh (history ++ [(key, ⟨msgID, false⟩)]) =
      Function.update history.latestFresh key (some msgID) := by
  funext j
  by_cases hj : j = key
  · rw [hj, Function.update_self]
    simp [latestFresh]
  · rw [Function.update_of_ne hj]
    simp [latestFresh, Ne.symm hj]

end History

/-- A partition and the publishes that it has answered. -/
structure Answering where
  part : KeyedLog
  history : History

/-- A new partition. -/
def Answering.new (cap : ℕ) : Answering := ⟨⟨[], .new cap⟩, []⟩

/-- One call of `applyPublish`. One that fails is not answered, and is no use of its key. -/
def Answering.publish (s : Answering) (a : PublishArgs) : Answering :=
  match s.part.applyPublish a with
  | (part, .ok r) => ⟨part, s.history ++ [(a.dedupeKey, r)]⟩
  | (part, .error _) => ⟨part, s.history⟩

/-- The dedupe index of the partition holds the latest keys with the ids of their latest fresh
publishes, and the records are numbered in order. -/
structure Recorded (cap : ℕ) (history : History) (p : Partition) : Prop where
  cap : p.dedupe.cap = cap
  tracks : Lru.Tracks history.uses history.latestFresh p.dedupe
  numbered : ∀ i (rec : Wal.Record), p.log[i]? = some rec → rec.msgID = UInt64.ofNat i

namespace Recorded

variable {cap : ℕ} {history : History} {p : Partition}

variable {msgID : UInt64}

/-- A duplicate is a use of its key. -/
theorem duplicate (h : Recorded cap history p) (hcap : 1 ≤ cap) {key : Bytes} (hkey : key ≠ [])
    (hget : p.dedupe.get? key = some msgID) :
    Recorded cap (history ++ [(key, ⟨msgID, true⟩)])
      { p with dedupe := (p.dedupe.lookup key).2 } := by
  refine ⟨(p.dedupe.cap_lookup key).trans h.cap, ?_, h.numbered⟩
  rw [History.uses_snoc_keyed history hkey, History.latestFresh_snoc_dup]
  exact h.tracks.lookup (h.cap ▸ hcap) hget

theorem fresh (h : Recorded cap history p) (hcap : 1 ≤ cap) (rec : Wal.Record)
    (hid : rec.msgID = UInt64.ofNat p.log.length)
    (hnew : rec.dedupeKey = [] ∨ p.dedupe.get? rec.dedupeKey = none) :
    Recorded cap (history ++ [(rec.dedupeKey, ⟨rec.msgID, false⟩)])
      { p with log := p.log ++ [rec], dedupe := p.dedupe.note rec.dedupeKey rec.msgID } := by
  have hnumbered : ∀ i (r : Wal.Record), (p.log ++ [rec])[i]? = some r →
      r.msgID = UInt64.ofNat i := by
    intro i r hr
    rw [getElem?_append] at hr
    split_ifs at hr with hlt
    · exact h.numbered i r hr
    · rw [getElem?_singleton] at hr
      split_ifs at hr with hlast
      obtain rfl := Option.some.inj hr
      rw [hid, show i = p.log.length by omega]
  unfold DedupeIndex.note
  by_cases hkey : rec.dedupeKey = []
  · refine ⟨?_, ?_, hnumbered⟩
    · rw [if_neg (not_not_intro hkey)]
      exact h.cap
    · rw [if_neg (not_not_intro hkey), hkey, History.uses_snoc_nil]
      refine h.tracks.congr fun key hmem => ?_
      have hne : key ≠ [] := by simpa using (mem_filter.mp hmem).2
      rw [History.latestFresh_snoc_fresh, Function.update_of_ne hne]
  · refine ⟨?_, ?_, hnumbered⟩
    · rw [if_pos hkey, Lru.cap_insert]
      exact h.cap
    · rw [if_pos hkey, History.uses_snoc_keyed history hkey, History.latestFresh_snoc_fresh]
      exact h.tracks.insert (h.cap ▸ hcap) (hnew.resolve_left hkey) _

/-- The condition for a duplicate, in terms of the publishes before. -/
theorem get?_eq_some_iff (h : Recorded cap history p) {key : Bytes} :
    p.dedupe.get? key = some msgID ↔
      key ∈ history.recentKeys cap ∧ history.latestFresh key = some msgID := by
  rw [h.tracks.get?_eq_some_iff, h.cap]
  rfl

/-- Every recent key has had a fresh publish. -/
theorem get?_of_recent (h : Recorded cap history p) {key : Bytes}
    (hrecent : key ∈ history.recentKeys cap) : ∃ msgID, p.dedupe.get? key = some msgID := by
  have hmem : key ∈ p.dedupe.order := by
    rw [AList.mem_keys, h.tracks.keys, h.cap]
    exact hrecent
  exact isSome_iff_exists.mp (AList.lookup_isSome.mpr hmem)

end Recorded

/-- The partition represents one whose index holds what the history says. -/
structure Answering.Ok (cap : ℕ) (s : Answering) (p : Partition) : Prop where
  represents : s.part.Represents p
  recorded : Recorded cap s.history p

namespace Answering.Ok

variable {cap : ℕ} {s : Answering} {p : Partition}

theorem new (cap : ℕ) : (Answering.new cap).Ok cap ⟨[], .empty cap, ∅, 0⟩ :=
  ⟨⟨rfl, LinkedIndex.represents_new cap⟩, rfl, .empty cap _, by simp⟩

theorem publish (h : s.Ok cap p) (hcap : 1 ≤ cap) (a : PublishArgs) :
    ∃ p', (s.publish a).Ok cap p' := by
  obtain ⟨hpart, hanswer⟩ := h.represents.applyPublish a
  unfold Answering.publish
  rcases hres : s.part.applyPublish a with ⟨part, answer⟩
  rw [hres] at hpart hanswer
  rcases p.applyPublish_cases a.tsNs a.visibleAtNs a.raftIndex a.dedupeKey a.payload with
    ⟨msgID, hkey, hget, heq⟩ | ⟨hnew, hfits⟩
  · rw [heq] at hpart hanswer
    obtain rfl : answer = _ := hanswer
    exact ⟨_, hpart, h.recorded.duplicate hcap hkey hget⟩
  · dsimp only at hfits
    split_ifs at hfits with hfit
    · rw [hfits] at hpart hanswer
      obtain rfl : answer = _ := hanswer
      exact ⟨_, hpart, h.recorded.fresh hcap
        (p.nextRecord a.tsNs a.visibleAtNs a.raftIndex a.dedupeKey a.payload) rfl hnew⟩
    · rw [hfits] at hpart hanswer
      obtain rfl : answer = _ := hanswer
      exact ⟨p, hpart, h.recorded⟩

theorem foldl_publish (h : s.Ok cap p) (hcap : 1 ≤ cap) (calls : List PublishArgs) :
    ∃ p', (calls.foldl Answering.publish s).Ok cap p' := by
  induction calls generalizing s p with
  | nil => exact ⟨p, h⟩
  | cons a calls ih =>
    obtain ⟨p', h'⟩ := h.publish hcap a
    exact ih h'

theorem sameKeys (h : s.Ok cap p) :
    s.part.dedupe.listKeys.Nodup ∧
      (∀ key, key ∈ s.part.dedupe.listKeys ↔ key ∈ s.part.dedupe.byKey) ∧
      s.part.dedupe.listKeys.length ≤ cap := by
  have hkeys := h.represents.dedupe.listKeys_eq
  refine ⟨hkeys ▸ p.dedupe.order.keys_nodup, fun key => ?_, ?_⟩
  · exact h.represents.dedupe.mem_listKeys_iff
  · rw [hkeys, ← h.recorded.cap]
    exact h.recorded.tracks.length_le

theorem applyPublish_spec (h : s.Ok cap p) (a : PublishArgs) :
    if a.dedupeKey ≠ [] ∧ a.dedupeKey ∈ s.history.recentKeys cap then
      ∃ msgID, s.history.latestFresh a.dedupeKey = some msgID ∧
        (s.part.applyPublish a).2 = .ok ⟨msgID, true⟩ ∧
        (s.part.applyPublish a).1.log = s.part.log
    else if Wal.Fits (s.part.record a) then
      (s.part.applyPublish a).2 = .ok ⟨UInt64.ofNat s.part.log.length, false⟩ ∧
        (s.part.applyPublish a).1.log = s.part.log ++ [s.part.record a]
    else (s.part.applyPublish a).2 = .error .tooLarge := by
  obtain ⟨hpart, hanswer⟩ := h.represents.applyPublish a
  have hrec : s.part.record a =
      p.nextRecord a.tsNs a.visibleAtNs a.raftIndex a.dedupeKey a.payload := by
    unfold KeyedLog.record Partition.nextRecord
    rw [h.represents.log]
  rw [hanswer, hpart.log, hrec, h.represents.log]
  rcases p.applyPublish_cases a.tsNs a.visibleAtNs a.raftIndex a.dedupeKey a.payload with
    ⟨msgID, hkey, hget, heq⟩ | ⟨hnew, hfits⟩
  · obtain ⟨hrecent, hfresh⟩ := h.recorded.get?_eq_some_iff.mp hget
    rw [if_pos ⟨hkey, hrecent⟩, heq]
    exact ⟨msgID, hfresh, rfl, rfl⟩
  · have hnot : ¬ (a.dedupeKey ≠ [] ∧ a.dedupeKey ∈ s.history.recentKeys cap) := by
      rintro ⟨hkey, hrecent⟩
      obtain ⟨msgID, hget⟩ := h.recorded.get?_of_recent hrecent
      rw [hnew.resolve_left hkey] at hget
      cases hget
    rw [if_neg hnot]
    dsimp only at hfits
    split_ifs at hfits ⊢ with hfit
    · rw [hfits]
      exact ⟨rfl, rfl⟩
    · rw [hfits]

end Answering.Ok

/-- After any publishes to a new partition, the list and the map of its dedupe index hold the same
distinct keys, no more than fit, and the records are numbered in order. The next publish with a key
is answered as a duplicate exactly when the key is among the `cap` most recently used ones, with
the id of that key's latest fresh publish, and then appends nothing. Every other publish whose
record the log accepts appends it under the next id. -/
theorem applyPublish_refines_lru {cap : ℕ} (hcap : 1 ≤ cap) (calls : List PublishArgs) :
    let s := calls.foldl Answering.publish (.new cap)
    (s.part.dedupe.listKeys.Nodup ∧
      (∀ key, key ∈ s.part.dedupe.listKeys ↔ key ∈ s.part.dedupe.byKey) ∧
      s.part.dedupe.listKeys.length ≤ cap) ∧
    (∀ i (rec : Wal.Record), s.part.log[i]? = some rec → rec.msgID = UInt64.ofNat i) ∧
    ∀ a : PublishArgs,
      (∀ msgID, (s.part.applyPublish a).2 = .ok ⟨msgID, true⟩ ↔
        (a.dedupeKey ≠ [] ∧ a.dedupeKey ∈ s.history.recentKeys cap) ∧
          s.history.latestFresh a.dedupeKey = some msgID) ∧
      (a.dedupeKey ≠ [] ∧ a.dedupeKey ∈ s.history.recentKeys cap →
        (∃ msgID, (s.part.applyPublish a).2 = .ok ⟨msgID, true⟩) ∧
          (s.part.applyPublish a).1.log = s.part.log) ∧
      (¬ (a.dedupeKey ≠ [] ∧ a.dedupeKey ∈ s.history.recentKeys cap) →
        Wal.Fits (s.part.record a) →
        (s.part.applyPublish a).2 = .ok ⟨UInt64.ofNat s.part.log.length, false⟩ ∧
          (s.part.applyPublish a).1.log = s.part.log ++ [s.part.record a]) := by
  intro s
  obtain ⟨p, h⟩ := (Answering.Ok.new cap).foldl_publish hcap calls
  refine ⟨h.sameKeys, ?_, fun a => ?_⟩
  · rw [h.represents.log]
    exact h.recorded.numbered
  · have hspec := h.applyPublish_spec a
    by_cases hrecent : a.dedupeKey ≠ [] ∧ a.dedupeKey ∈ s.history.recentKeys cap
    · rw [if_pos hrecent] at hspec
      obtain ⟨msgID, hfresh, hanswer, hlog⟩ := hspec
      refine ⟨fun m => ?_, fun _ => ⟨⟨msgID, hanswer⟩, hlog⟩, fun hnot => absurd hrecent hnot⟩
      rw [hanswer, hfresh]
      simp [hrecent]
    · rw [if_neg hrecent] at hspec
      refine ⟨fun m => iff_of_false ?_ fun hdup => hrecent hdup.1, fun hdup => absurd hdup hrecent,
        fun _ hfit => ?_⟩
      · -- The answer is a fresh id or an error.
        split_ifs at hspec
        · rw [hspec.1]
          simp
        · rw [hspec]
          simp
      · rw [if_pos hfit] at hspec
        exact hspec

def withKey (key : UInt8) : PublishArgs := ⟨0, 0, 0, [key], [1]⟩

/-- The keys `a`, `b`, `a` and `c` in a partition that remembers two of them: the duplicate of `a`
saves it, and `b` is forgotten. -/
theorem applyPublish_refines_lru_evicted :
    let s := [withKey 97, withKey 98, withKey 97, withKey 99].foldl Answering.publish (.new 2)
    s.history.recentKeys 2 = [[99], [97]] ∧
      (s.part.applyPublish (withKey 97)).2 = .ok ⟨0, true⟩ ∧
      (s.part.applyPublish (withKey 98)).2 = .ok ⟨3, false⟩ ∧
      (s.part.applyPublish (withKey 98)).1.log = s.part.log ++ [s.part.record (withKey 98)] := by
  intro s
  obtain ⟨-, -, hcalls⟩ := applyPublish_refines_lru (by decide : 1 ≤ 2)
    [withKey 97, withKey 98, withKey 97, withKey 99]
  have hrecent : s.history.recentKeys 2 = [[99], [97]] := by decide +kernel
  refine ⟨hrecent, ((hcalls (withKey 97)).1 0).mpr ⟨⟨by decide, ?_⟩, by decide +kernel⟩, ?_⟩
  · rw [hrecent]
    decide
  · have hforgotten := (hcalls (withKey 98)).2.2 (fun h => absurd (hrecent ▸ h.2) (by decide))
      (by decide +kernel)
    have hlen : s.part.log.length = 3 := by decide +kernel
    rw [show UInt64.ofNat _ = 3 from congrArg UInt64.ofNat hlen] at hforgotten
    exact hforgotten

end ToyMQ.Broker
