import Mathlib.Data.Finset.Card
import Mathlib.Data.List.AList

/-!
# Bounded maps with least-recently-used eviction

`Lru κ ν` is a finite map whose entries are kept in the order of their last use, the latest first.
A lookup and an overwrite move an entry to the front, and an insertion over capacity drops the
last one. Neither changes the contents beyond its own key as long as the keys in play fit
(`Lru.get?_lookup`, `Lru.get?_insert`): a bounded index is then a complete one.

Two results are about maps that do evict. Maps with the same contents keep them when they would
drop the same entry (`SameContents.insert`), and a key is still there as long as fewer other keys
than fit were used since (`Recent.lookup`, `Recent.insert`). `Tracks` says what the map holds after
any uses: the distinct keys in the order of their last use, as many as fit.
-/

namespace ToyMQ.Lib

open List Option

/-- A map bounded at `cap` entries, in the order of their last use. -/
structure Lru (κ ν : Type*) where
  cap : ℕ
  order : AList fun _ : κ => ν

namespace Lru

variable {κ ν : Type*}

/-- The empty map. -/
def empty (cap : ℕ) : Lru κ ν := ⟨cap, ∅⟩

variable [DecidableEq κ]

/-- The value under a key. -/
def get? (d : Lru κ ν) (key : κ) : Option ν := d.order.lookup key

/-- The map after its last entry is dropped. -/
def dropOldest (order : AList fun _ : κ => ν) : AList fun _ : κ => ν :=
  ⟨order.entries.dropLast,
    List.Nodup.sublist ((dropLast_sublist _).map _) order.nodupKeys⟩

/-- Reads the value under a key, and makes its entry the latest. -/
def lookup (d : Lru κ ν) (key : κ) : Option ν × Lru κ ν :=
  match d.order.lookup key with
  | none => (none, d)
  | some v => (some v, { d with order := d.order.insert key v })

/-- Stores a value under a key as the latest entry, and drops the oldest one when a new key does
not fit. -/
def insert (d : Lru κ ν) (key : κ) (v : ν) : Lru κ ν :=
  let order := d.order.insert key v
  if key ∈ d.order then { d with order := order }
  else if d.cap < order.entries.length then { d with order := dropOldest order }
  else { d with order := order }

@[simp]
theorem get?_empty (cap : ℕ) (key : κ) : (empty cap : Lru κ ν).get? key = none :=
  AList.lookup_empty key

/-- A lookup returns the value under the key. -/
@[simp]
theorem lookup_fst (d : Lru κ ν) (key : κ) : (d.lookup key).1 = d.get? key := by
  unfold lookup get?
  split <;> simp_all

/-- A lookup changes no value. -/
@[simp]
theorem get?_lookup (d : Lru κ ν) (key j : κ) : (d.lookup key).2.get? j = d.get? j := by
  unfold lookup get?
  split
  · rfl
  next v hv =>
    by_cases hj : j = key
    · rw [hj, AList.lookup_insert, hv]
    · exact AList.lookup_insert_ne hj

@[simp]
theorem cap_lookup (d : Lru κ ν) (key : κ) : (d.lookup key).2.cap = d.cap := by
  unfold lookup
  split <;> rfl

@[simp]
theorem cap_insert (d : Lru κ ν) (key : κ) (v : ν) : (d.insert key v).cap = d.cap := by
  unfold insert
  dsimp only
  split_ifs <;> rfl

variable {d : Lru κ ν}

/-- A map whose keys are among `keys` has no more entries than `keys`. -/
theorem length_le_card {keys : Finset κ} (h : ∀ j, d.get? j ≠ none → j ∈ keys) :
    d.order.entries.length ≤ keys.card := by
  have hsub : d.order.keys.toFinset ⊆ keys := by
    intro j hj
    exact h j (isSome_iff_ne_none.mp
      (AList.lookup_isSome.mpr (AList.mem_keys.mpr (List.mem_toFinset.mp hj))))
  calc d.order.entries.length = d.order.keys.length := (length_map _).symm
    _ = d.order.keys.toFinset.card := (toFinset_card_of_nodup d.order.keys_nodup).symm
    _ ≤ keys.card := Finset.card_le_card hsub

/-- An insertion changes the value under its own key only, when that key and the keys of the map
are among no more keys than fit. -/
theorem get?_insert {keys : Finset κ} (hcap : keys.card ≤ d.cap)
    (h : ∀ j, d.get? j ≠ none → j ∈ keys) {key : κ} (hkey : key ∈ keys) (v : ν) (j : κ) :
    (d.insert key v).get? j = if j = key then some v else d.get? j := by
  -- With the new key the map still has no more entries than `keys`, so that none is dropped.
  have hfits : (d.order.insert key v).entries.length ≤ d.cap := by
    refine le_trans (length_le_card (d := ⟨d.cap, d.order.insert key v⟩) ?_) hcap
    intro i hi
    by_cases hik : i = key
    · exact hik ▸ hkey
    · refine h i ?_
      unfold get? at hi ⊢
      rwa [AList.lookup_insert_ne hik] at hi
  have hinsert : d.insert key v = { d with order := d.order.insert key v } := by
    unfold insert
    dsimp only
    rw [if_neg (Nat.not_lt.mpr hfits), ite_self]
  rw [hinsert]
  split_ifs with hj
  · rw [hj]
    exact AList.lookup_insert _
  · exact AList.lookup_insert_ne hj

/-! ## Eviction -/

/-- The entry that is dropped next. -/
def oldest? (d : Lru κ ν) : Option (Sigma fun _ : κ => ν) := d.order.entries.getLast?

/-- The maps hold the same values under the same keys, in whatever order. -/
structure SameContents (d d' : Lru κ ν) : Prop where
  cap : d.cap = d'.cap
  get : ∀ j, d.get? j = d'.get? j

variable {last : Sigma fun _ : κ => ν}

/-- Dropping the last entry removes its key and nothing else. -/
theorem lookup_dropOldest {order : AList fun _ : κ => ν}
    (hlast : order.entries.getLast? = some last) (j : κ) :
    (dropOldest order).lookup j = if j = last.1 then none else order.lookup j := by
  obtain ⟨front, hfront⟩ := getLast?_eq_some_iff.mp hlast
  have hnodup := order.nodupKeys
  unfold dropOldest AList.lookup
  dsimp only
  rw [hfront] at hnodup ⊢
  rw [dropLast_concat]
  split_ifs with hj
  · -- The keys are distinct, so that the key of the last entry is not among the others.
    rw [List.NodupKeys, keys_append, nodup_append] at hnodup
    refine dlookup_eq_none.mpr fun hmem => ?_
    exact hnodup.2.2 j hmem last.1 (by simp [List.keys]) hj
  · rw [dlookup_append, dlookup_cons_ne _ _ hj, dlookup_nil, or_none]

/-- An insertion of a new key into a full map removes the oldest entry. -/
theorem get?_insert_full {key : κ} (hnew : d.get? key = none)
    (hfull : d.cap ≤ d.order.entries.length) (hlast : d.oldest? = some last) (v : ν) (j : κ) :
    (d.insert key v).get? j =
      if j = last.1 then none else if j = key then some v else d.get? j := by
  have hmem : key ∉ d.order := AList.lookup_eq_none.mp hnew
  have hentries : (d.order.insert key v).entries = ⟨key, v⟩ :: d.order.entries :=
    AList.entries_insert_of_notMem hmem
  have hover : d.cap < (d.order.insert key v).entries.length := by
    rw [hentries, length_cons]
    omega
  have hlast' : (d.order.insert key v).entries.getLast? = some last := by
    unfold oldest? at hlast
    rw [hentries, getLast?_cons, hlast]
    rfl
  have hinsert : d.insert key v = { d with order := dropOldest (d.order.insert key v) } := by
    unfold insert
    rw [if_neg hmem, if_pos hover]
  rw [hinsert]
  unfold get?
  rw [lookup_dropOldest hlast']
  split_ifs with hj hkey
  · rfl
  · rw [hkey]
    exact AList.lookup_insert _
  · exact AList.lookup_insert_ne hkey

/-- An insertion that overwrites, or that finds room, drops nothing. -/
theorem get?_insert_room {key : κ} (hroom : d.get? key = none → d.order.entries.length < d.cap)
    (v : ν) (j : κ) : (d.insert key v).get? j = if j = key then some v else d.get? j := by
  have hinsert : d.insert key v = { d with order := d.order.insert key v } := by
    unfold insert
    dsimp only
    split_ifs with hmem hover
    · rfl
    · have hlen := hroom (AList.lookup_eq_none.mpr hmem)
      rw [AList.entries_insert_of_notMem hmem, length_cons] at hover
      omega
    · rfl
  rw [hinsert]
  split_ifs with hj
  · rw [hj]
    exact AList.lookup_insert _
  · exact AList.lookup_insert_ne hj

namespace SameContents

variable {d d' : Lru κ ν}

/-- Maps with the same contents have the same entries in some order. -/
theorem perm (h : SameContents d d') : d.order.entries.Perm d'.order.entries := by
  refine lookup_ext d.order.nodupKeys d'.order.nodupKeys fun j v => ?_
  have hget : d.order.entries.dlookup j = d'.order.entries.dlookup j := h.get j
  rw [hget]

/-- Maps with the same contents still have the same after an insertion, when a full map would
drop the same entry as the other. -/
theorem insert (h : SameContents d d') {key : κ}
    (hfull : d.get? key = none → d.cap ≤ d.order.entries.length → d.oldest? = d'.oldest?) (v : ν) :
    SameContents (d.insert key v) (d'.insert key v) := by
  refine ⟨by rw [cap_insert, cap_insert, h.cap], fun j => ?_⟩
  have hlen := h.perm.length_eq
  by_cases hdrop : d.get? key = none ∧ d.cap ≤ d.order.entries.length
  · have hold := hfull hdrop.1 hdrop.2
    cases hlast : d.oldest? with
    | none =>
      -- Both maps are empty, and then they are the same.
      have hempty : d.order.entries = [] := getLast?_eq_none_iff.mp hlast
      have hempty' : d'.order.entries = [] := getLast?_eq_none_iff.mp (hold.symm.trans hlast)
      have horder : d.order = d'.order := AList.ext (hempty.trans hempty'.symm)
      have hsame : d = d' := by
        cases d
        cases d'
        exact congrArg₂ Lru.mk h.cap horder
      rw [hsame]
    | some =>
      rw [get?_insert_full hdrop.1 hdrop.2 hlast,
        get?_insert_full (h.get key ▸ hdrop.1) (h.cap ▸ hlen ▸ hdrop.2) (hold ▸ hlast), h.get]
  · have hroom : d.get? key = none → d.order.entries.length < d.cap :=
      fun hnone => Nat.lt_of_not_le fun hle => hdrop ⟨hnone, hle⟩
    rw [get?_insert_room hroom,
      get?_insert_room (fun hnone => h.cap ▸ hlen ▸ hroom ((h.get key).trans hnone)), h.get]

end SameContents

/-! ## Maps in the order of their values -/

section

variable (rank : ν → ℕ)

/-- The values of the entries descend from the latest to the oldest. -/
def Descending (d : Lru κ ν) : Prop :=
  d.order.entries.Pairwise fun x y => rank y.2 < rank x.2

variable {rank} {d d' : Lru κ ν}

/-- The entries after an insertion are the new one and some of those before. -/
theorem entries_insert_sublist (d : Lru κ ν) (key : κ) (v : ν) :
    (d.insert key v).order.entries.Sublist (⟨key, v⟩ :: d.order.entries) := by
  have hinsert : (d.order.insert key v).entries.Sublist (⟨key, v⟩ :: d.order.entries) :=
    (kerase_sublist key d.order.entries).cons_cons _
  unfold insert
  dsimp only
  split_ifs
  · exact hinsert
  · exact (dropLast_sublist _).trans hinsert
  · exact hinsert

/-- The order of the values is kept by the insertion of a higher one. -/
theorem Descending.insert (h : d.Descending rank) (key : κ) {v : ν}
    (hv : ∀ x ∈ d.order.entries, rank x.2 < rank v) : (d.insert key v).Descending rank :=
  List.Pairwise.sublist (d.entries_insert_sublist key v) (pairwise_cons.mpr ⟨hv, h⟩)

/-- Where the values descend, the oldest entry is the one of lowest value. So a map with the same
contents whose oldest entry has the lowest value has that oldest entry. -/
theorem Descending.oldest?_eq (h' : d'.Descending rank) (h : SameContents d d')
    (hleast : ∀ last ∈ d.oldest?, ∀ x ∈ d.order.entries, rank last.2 ≤ rank x.2) :
    d.oldest? = d'.oldest? := by
  have hperm := h.perm
  cases hlast' : d'.oldest? with
  | none =>
    have hempty' : d'.order.entries = [] := getLast?_eq_none_iff.mp hlast'
    have hempty : d.order.entries = [] := perm_nil.mp (hempty' ▸ hperm)
    exact getLast?_eq_none_iff.mpr hempty
  | some last' =>
    obtain ⟨front, hfront⟩ := getLast?_eq_some_iff.mp hlast'
    have hmem' : last' ∈ d.order.entries := hperm.mem_iff.mpr (mem_of_getLast? hlast')
    obtain ⟨last, hlast⟩ : ∃ last, d.oldest? = some last :=
      isSome_iff_exists.mp (getLast?_isSome.mpr (ne_nil_of_mem hmem'))
    have hmem : last ∈ front ++ [last'] :=
      hfront ▸ hperm.mem_iff.mp (mem_of_getLast? hlast)
    rw [hlast]
    rcases mem_append.mp hmem with hbefore | heq
    · -- An entry before the last one of `d'` has a higher value, and is not the lowest in `d`.
      have hless : rank last'.2 < rank last.2 := by
        unfold Descending at h'
        rw [hfront] at h'
        exact (pairwise_append.mp h').2.2 last hbefore last' (mem_singleton_self _)
      exact absurd (hleast last hlast last' hmem') (Nat.not_le.mpr hless)
    · rw [mem_singleton.mp heq]

end

/-! ## Keys in recent use -/

/-- The map holds `v` under `key`, and only entries of `keys` were used since `key` was. -/
def Recent (keys : Finset κ) (key : κ) (v : ν) (d : Lru κ ν) : Prop :=
  ∃ front back, d.order.entries = front ++ ⟨key, v⟩ :: back ∧ ∀ x ∈ front, x.1 ∈ keys

namespace Recent

variable {d : Lru κ ν} {keys : Finset κ} {key j : κ} {v w : ν}

theorem get?_eq (h : Recent keys key v d) : d.get? key = some v := by
  obtain ⟨front, back, heq, -⟩ := h
  exact AList.mem_lookup_iff.mpr (by simp [heq])

/-- A key is the most recent one when it is looked up. -/
theorem of_lookup (h : d.get? key = some v) : Recent keys key v (d.lookup key).2 := by
  unfold get? at h
  unfold Lru.lookup
  rw [h]
  exact ⟨[], d.order.entries.kerase key, rfl, nofun⟩

/-- A key is the most recent one when it is inserted. -/
theorem of_insert (d : Lru κ ν) (key : κ) (v : ν) (hcap : 0 < d.cap) :
    Recent keys key v (d.insert key v) := by
  unfold Lru.insert
  dsimp only
  split_ifs with hmem hover
  · exact ⟨[], d.order.entries.kerase key, rfl, nofun⟩
  · have hentries : (d.order.insert key v).entries = ⟨key, v⟩ :: d.order.entries :=
      AList.entries_insert_of_notMem hmem
    rw [hentries, length_cons] at hover
    have hne : d.order.entries ≠ [] := ne_nil_of_length_pos (by omega)
    refine ⟨[], d.order.entries.dropLast, ?_, nofun⟩
    unfold dropOldest
    dsimp only
    rw [hentries, dropLast_cons_of_ne_nil hne]
    rfl
  · exact ⟨[], d.order.entries.kerase key, rfl, nofun⟩

/-- Using another key moves its entry ahead. -/
theorem ahead (h : Recent keys key v d) (hj : j ∈ keys) (hne : j ≠ key) :
    Recent keys key v { d with order := d.order.insert j w } := by
  obtain ⟨front, back, heq, hfront⟩ := h
  have herase : ∃ front' back', d.order.entries.kerase j = front' ++ ⟨key, v⟩ :: back' ∧
      ∀ x ∈ front', x ∈ front := by
    rw [heq]
    by_cases hin : j ∈ front.keys
    · exact ⟨front.kerase j, back, kerase_append_left hin,
        fun x hx => (kerase_sublist j front).subset hx⟩
    · refine ⟨front, back.kerase j, ?_, fun _ hx => hx⟩
      rw [kerase_append_right hin, kerase_cons_ne hne]
  obtain ⟨front', back', hsplit, hsub⟩ := herase
  refine ⟨⟨j, w⟩ :: front', back', ?_, ?_⟩
  · exact congrArg (List.cons (⟨j, w⟩ : Sigma fun _ : κ => ν)) hsplit
  · intro x hx
    rcases mem_cons.mp hx with rfl | hx
    · exact hj
    · exact hfront x (hsub x hx)

/-- A lookup of any key in use keeps a recent key. -/
theorem lookup (h : Recent keys key v d) (hj : j = key ∨ j ∈ keys) :
    Recent keys key v (d.lookup j).2 := by
  by_cases heq : j = key
  · rw [heq]
    exact of_lookup h.get?_eq
  · unfold Lru.lookup
    split
    · exact h
    · exact h.ahead (hj.resolve_left heq) heq

/-- An insertion of another key keeps a recent one, as long as fewer others than fit were used. -/
theorem insert (h : Recent keys key v d) (hj : j ∈ keys) (hne : j ≠ key)
    (hcard : keys.card < d.cap) : Recent keys key v (d.insert j w) := by
  have hahead : Recent keys key v { d with order := d.order.insert j w } := h.ahead hj hne
  unfold Lru.insert
  dsimp only
  split_ifs with hmem hover
  · exact hahead
  · obtain ⟨front, back, heq, hfront⟩ := hahead
    -- The entries ahead of the key have different keys among `keys`, so that they are fewer than
    -- the capacity, and the last entry is one behind the key.
    have hlen : front.length ≤ keys.card := by
      have hkeys := (d.order.insert j w).nodupKeys
      rw [heq] at hkeys
      have hnodup : (front.map Sigma.fst).Nodup :=
        ((sublist_append_left front _).map Sigma.fst).nodup hkeys
      calc front.length = (front.map Sigma.fst).length := (length_map _).symm
        _ = (front.map Sigma.fst).toFinset.card := (toFinset_card_of_nodup hnodup).symm
        _ ≤ keys.card := Finset.card_le_card fun k hk => by
          obtain ⟨x, hx, rfl⟩ := List.mem_map.mp (List.mem_toFinset.mp hk)
          exact hfront x hx
    have hback : back ≠ [] := by
      rintro rfl
      rw [heq, length_append, length_singleton] at hover
      omega
    refine ⟨front, back.dropLast, ?_, hfront⟩
    unfold dropOldest
    dsimp only
    rw [heq, dropLast_append_of_ne_nil (by simp), dropLast_cons_of_ne_nil hback]
  · exact hahead

end Recent

/-! ## The order of use

The map as a whole, in terms of the keys used so far: it holds the latest of them, as many as
fit. -/

/-- The distinct keys among `uses`, which are in the order of time, by their last use and the
latest first. -/
def byRecency (uses : List κ) : List κ := uses.dedup.reverse

theorem nodup_byRecency (uses : List κ) : (byRecency uses).Nodup :=
  nodup_reverse.mpr uses.nodup_dedup

theorem dedup_snoc (uses : List κ) (key : κ) :
    (uses ++ [key]).dedup = uses.dedup.erase key ++ [key] := by
  induction uses with
  | nil => rfl
  | cons j uses ih =>
    rw [cons_append]
    by_cases hj : j = key
    · -- The use of `j` is not the last one of its key.
      subst hj
      rw [dedup_cons_of_mem (by simp), ih]
      by_cases hmem : j ∈ uses
      · rw [dedup_cons_of_mem hmem]
      · rw [dedup_cons_of_notMem hmem, erase_cons_head,
          erase_of_not_mem (fun h => hmem (mem_dedup.mp h))]
    · by_cases hmem : j ∈ uses
      · rw [dedup_cons_of_mem hmem, dedup_cons_of_mem (by simp [hmem]), ih]
      · rw [dedup_cons_of_notMem hmem, dedup_cons_of_notMem (by simp [hmem, hj]), ih,
          erase_cons_tail (by simpa using hj), cons_append]

/-- A use makes its key the latest, and leaves the others in their order. -/
theorem byRecency_snoc (uses : List κ) (key : κ) :
    byRecency (uses ++ [key]) = key :: (byRecency uses).erase key := by
  rw [(nodup_byRecency uses).erase_eq_filter]
  unfold byRecency
  rw [dedup_snoc, reverse_append, reverse_singleton, singleton_append,
    uses.nodup_dedup.erase_eq_filter, filter_reverse]

variable {l : List κ} {n : ℕ}

theorem take_erase_of_mem {key : κ} (h : key ∈ l.take (n + 1)) :
    (l.take (n + 1)).erase key = (l.erase key).take n := by
  induction l generalizing n with
  | nil => cases h
  | cons j l ih =>
    rw [take_succ_cons] at h ⊢
    by_cases hj : j = key
    · rw [hj, erase_cons_head, erase_cons_head]
    · have hrest : key ∈ l.take n := (mem_cons.mp h).resolve_left (Ne.symm hj)
      cases n with
      | zero => cases hrest
      | succ =>
        rw [erase_cons_tail (by simpa using hj), erase_cons_tail (by simpa using hj),
          take_succ_cons, ih hrest]

theorem take_erase_of_notMem {key : κ} (h : key ∉ l.take (n + 1)) :
    (l.erase key).take n = l.take n := by
  induction l generalizing n with
  | nil => rfl
  | cons j l ih =>
    rw [take_succ_cons, mem_cons, not_or] at h
    rw [erase_cons_tail (by simpa using Ne.symm h.1)]
    cases n with
    | zero => rfl
    | succ => rw [take_succ_cons, take_succ_cons, ih h.2]

/-- The map holds the latest keys of `uses`, as many as fit, each with its value in `val`. -/
structure Tracks (uses : List κ) (val : κ → Option ν) (d : Lru κ ν) : Prop where
  keys : d.order.keys = (byRecency uses).take d.cap
  get : ∀ key ∈ d.order, d.get? key = val key

namespace Tracks

variable {d : Lru κ ν} {uses : List κ} {val : κ → Option ν} {key : κ} {v : ν}

theorem empty (cap : ℕ) (val : κ → Option ν) : Tracks [] val (Lru.empty cap) :=
  ⟨(take_nil).symm, fun _ hmem => absurd hmem (AList.notMem_empty _)⟩

/-- A key is found exactly when it is among the latest, and then with its value. -/
theorem get?_eq_some_iff (h : Tracks uses val d) :
    d.get? key = some v ↔ key ∈ (byRecency uses).take d.cap ∧ val key = some v := by
  rw [← h.keys, ← AList.mem_keys]
  constructor
  · intro hget
    have hmem : key ∈ d.order := AList.lookup_isSome.mp (isSome_of_eq_some hget)
    exact ⟨hmem, (h.get key hmem).symm.trans hget⟩
  · rintro ⟨hmem, hval⟩
    exact (h.get key hmem).trans hval

/-- Only the values of keys that were used matter. -/
theorem congr {val' : κ → Option ν} (h : Tracks uses val d)
    (hval : ∀ key ∈ uses, val key = val' key) : Tracks uses val' d := by
  refine ⟨h.keys, fun key hmem => (h.get key hmem).trans (hval key ?_)⟩
  rw [AList.mem_keys, h.keys] at hmem
  exact mem_dedup.mp (mem_reverse.mp (mem_of_mem_take hmem))

/-- The map has no more entries than fit. -/
theorem length_le (h : Tracks uses val d) : d.order.keys.length ≤ d.cap := by
  rw [h.keys]
  exact length_take_le _ _

/-- A lookup that finds its key is a use of it. -/
theorem lookup (h : Tracks uses val d) (hcap : 0 < d.cap) (hget : d.get? key = some v) :
    Tracks (uses ++ [key]) val (d.lookup key).2 := by
  have horder : (d.lookup key).2 = { d with order := d.order.insert key v } := by
    unfold Lru.lookup
    rw [show d.order.lookup key = some v from hget]
  obtain ⟨n, hn⟩ : ∃ n, d.cap = n + 1 := ⟨d.cap - 1, by omega⟩
  have hmem := (h.get?_eq_some_iff.mp hget).1
  refine ⟨?_, ?_⟩
  · rw [horder, AList.keys_insert, h.keys, byRecency_snoc]
    rw [hn] at hmem ⊢
    rw [take_erase_of_mem hmem, take_succ_cons]
  · intro j hj
    rw [get?_lookup]
    refine h.get j ?_
    rw [horder] at hj
    rcases (AList.mem_insert _).mp hj with rfl | hj
    · exact AList.lookup_isSome.mp (isSome_of_eq_some hget)
    · exact hj

/-- An insertion of a new key is a use of it, and gives it its value. -/
theorem insert (h : Tracks uses val d) (hcap : 0 < d.cap) (hnew : d.get? key = none) (v : ν) :
    Tracks (uses ++ [key]) (Function.update val key (some v)) (d.insert key v) := by
  have hmem : key ∉ d.order := AList.lookup_eq_none.mp hnew
  obtain ⟨n, hn⟩ : ∃ n, d.cap = n + 1 := ⟨d.cap - 1, by omega⟩
  have hout : key ∉ (byRecency uses).take (n + 1) := by
    rw [← hn, ← h.keys, ← AList.mem_keys]
    exact hmem
  have hentries : (d.order.insert key v).entries = ⟨key, v⟩ :: d.order.entries :=
    AList.entries_insert_of_notMem hmem
  have hlen : d.order.entries.length = d.order.keys.length := (length_map _).symm
  refine ⟨?_, ?_⟩
  · -- What is left of the old keys are the latest of them that fit beside the new one.
    have hkept : (d.insert key v).order.keys = key :: (byRecency uses).take n := by
      have hkeys := h.keys
      rw [hn] at hkeys
      unfold Lru.insert
      rw [if_neg hmem, hentries, length_cons, hlen]
      split_ifs with hover
      · have hfull : d.order.keys.length = n + 1 := by
          have hle := h.length_le
          omega
        have hne : d.order.entries ≠ [] := ne_nil_of_length_pos (by omega)
        have hdrop : (dropOldest (d.order.insert key v)).keys = key :: d.order.keys.dropLast := by
          unfold dropOldest AList.keys
          dsimp only
          rw [hentries, dropLast_cons_of_ne_nil hne]
          simp [List.keys, map_dropLast]
        rw [hdrop, dropLast_eq_take, hfull, hkeys, take_take, Nat.add_sub_cancel,
          Nat.min_eq_left (Nat.le_succ n)]
      · have hfits : ((byRecency uses).take (n + 1)).length ≤ n := by
          rw [← hkeys]
          omega
        have hall : (byRecency uses).length ≤ n := by
          rw [length_take] at hfits
          omega
        have hcons : (d.order.insert key v).keys = key :: d.order.keys :=
          congrArg List.keys hentries
        rw [hcons, hkeys, take_of_length_le hall, take_of_length_le (by omega)]
    rw [hkept, cap_insert, hn, byRecency_snoc, take_succ_cons, take_erase_of_notMem hout]
  · intro j hj
    obtain ⟨x, hx, rfl⟩ := List.mem_map.mp (AList.mem_keys.mp hj)
    have hget : (d.insert key v).get? x.1 = some x.2 := AList.mem_lookup_iff.mpr hx
    rw [hget]
    rcases mem_cons.mp ((d.entries_insert_sublist key v).subset hx) with rfl | hold
    · rw [Function.update_self]
    · have hin : x.1 ∈ d.order := AList.mem_keys.mpr (List.mem_map_of_mem hold)
      have hne : x.1 ≠ key := fun he => hmem (he ▸ hin)
      rw [Function.update_of_ne hne, ← h.get _ hin]
      exact (AList.mem_lookup_iff.mpr hold).symm

end Tracks

end Lru

end ToyMQ.Lib
