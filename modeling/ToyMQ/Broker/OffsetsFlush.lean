import Mathlib.Data.List.Sort
import ToyMQ.Broker.AckedSet

/-!
# The persist loop and `offsets.json`

An ack changes the offsets of its consumer and sets the consumer's dirty flag. The persist loop
flushes a partition that has a dirty consumer: it clears the flags one by one, takes the snapshot
consumer by consumer, writes a temporary file and renames it over `offsets.json`. Deliveries, acks
and nacks go on in between, and each file operation can fail; a flush that fails returns without
setting the flags again.

`Flusher.step` has the actions of the consumers and the steps of a flush. A flush that goes through
leaves a file with the offsets of every consumer, or a consumer that was marked meanwhile
(`Flusher.Kept`). So does a flush that fails while a consumer is marked; one that fails while none
is has lost the flags (`failed_flush_forgets`).
-/

namespace ToyMQ.Broker

open Lib List Option

/-! ## The document -/

/-- The length of the UTF-8 sequence that begins with the byte, and the least and the greatest
second byte of it. -/
def utf8Lead (b : UInt8) : Option (ℕ × UInt8 × UInt8) :=
  if b < 0x80 then some (1, 0x80, 0xbf)
  else if b < 0xc2 then none
  else if b < 0xe0 then some (2, 0x80, 0xbf)
  else if b = 0xe0 then some (3, 0xa0, 0xbf)
  else if b = 0xed then some (3, 0x80, 0x9f)
  else if b < 0xf0 then some (3, 0x80, 0xbf)
  else if b = 0xf0 then some (4, 0x90, 0xbf)
  else if b < 0xf4 then some (4, 0x80, 0xbf)
  else if b = 0xf4 then some (4, 0x80, 0x8f)
  else none

/-- How many bytes the character at the front has, or 0 if the bytes are not the encoding of one. -/
def runeLength (text : Bytes) : ℕ :=
  match text.head?.bind utf8Lead with
  | none => 0
  | some (n, low, high) =>
    let tail := (text.take n).drop 1
    if tail.length + 1 = n && tail.head?.all (fun b => low ≤ b && b ≤ high) &&
      (tail.drop 1).all (fun b => 0x80 ≤ b && b ≤ 0xbf) then n else 0

/-- The bytes of the replacement character U+FFFD. -/
def replacement : Bytes := [0xef, 0xbf, 0xbd]

/-- A text after `encoding/json` has written it and read it back, scanned with `fuel` characters:
a byte that is not part of a character becomes the replacement character. -/
def jsonText : ℕ → Bytes → Bytes
  | 0, _ => []
  | fuel + 1, text =>
    match text, runeLength text with
    | [], _ => []
    | _ :: rest, 0 => replacement ++ jsonText fuel rest
    | text, n => text.take n ++ jsonText fuel (text.drop n)

/-- The key of a consumer in the decoded document. -/
def jsonKey (id : Bytes) : Bytes := jsonText id.length id

example : jsonKey [99, 0xff, 0xe2, 0x82, 0xac] = [99, 0xef, 0xbf, 0xbd, 0xe2, 0x82, 0xac] := by
  decide +kernel

/-- What `offsets.json` holds, in the order of the document. -/
abbrev OffsetsFile := List (Sigma fun _ : Bytes => ConsumerOffsets)

/-- The `Consumers` of a snapshot. -/
abbrev OffsetsMap := AList fun _ : Bytes => ConsumerOffsets

/-- `Encode`: the entries in the order of their ids. -/
def document (snapshot : OffsetsMap) : OffsetsFile :=
  (snapshot.entries.insertionSort (·.1 ≤ ·.1)).map fun e => ⟨jsonKey e.1, e.2⟩

/-- `Decode`: the last entry of a key is the one that stays. -/
def decoded (file : OffsetsFile) : OffsetsMap := file.reverse.toAList

/-- What a consumer has whose entry, if there is one, was loaded. -/
def restored (entries : OffsetsMap) (id : Bytes) : Offsets :=
  (entries.lookup id).elim .new Offsets.new.load

/-- Keys that JSON gives back keep their entries. -/
theorem lookup_decoded_document {snapshot : OffsetsMap}
    (hkeys : ∀ id ∈ snapshot, jsonKey id = id) (id : Bytes) :
    (decoded (document snapshot)).lookup id = snapshot.lookup id := by
  have hsorted := snapshot.entries.perm_insertionSort (·.1 ≤ ·.1)
  have hdocument : document snapshot = snapshot.entries.insertionSort (·.1 ≤ ·.1) := by
    refine (map_congr_left fun e he => ?_).trans (List.map_id _)
    have hkey : e.1 ∈ snapshot := mem_keys_of_mem (hsorted.mem_iff.mp he)
    rw [hkeys e.1 hkey]
    rfl
  have hperm : (document snapshot).reverse.Perm snapshot.entries := by
    rw [hdocument]
    exact (reverse_perm _).trans hsorted
  have hnodup : (document snapshot).reverse.NodupKeys :=
    (perm_nodupKeys hperm).mpr snapshot.nodupKeys
  exact (AList.lookup_to_alist _).trans (perm_dlookup id hnodup hperm)

/-! ## The state and its steps -/

/-- The file operations of `flushOffsets`, in their order. -/
inductive FileOp where
  | create | encode | sync | close | rename
deriving DecidableEq, Repr

def FileOp.next : FileOp → Option FileOp
  | .create => some .encode
  | .encode => some .sync
  | .sync => some .close
  | .close => some .rename
  | .rename => none

/-- Where the flush of a partition is. -/
inductive FlushPhase where
  /-- No flush is in progress. -/
  | idle
  /-- The loop over the flags, with the consumers that are left; it holds `consumersMu`. -/
  | clearing (left : List Bytes)
  /-- Between the loop and the snapshot. -/
  | cleared
  /-- `snapshotOffsets`, with the consumers that are left; it holds `consumersMu`. -/
  | snapping (left : List Bytes) (taken : OffsetsMap)
  /-- Before a file operation. -/
  | writing (op : FileOp) (snapshot : OffsetsMap)
deriving DecidableEq

/-- Whether `consumersMu` is held, so that no consumer can be added. -/
def FlushPhase.locked : FlushPhase → Bool
  | .clearing _ => true
  | .snapping _ _ => true
  | _ => false

structure Flusher where
  part : Partition
  /-- The consumers whose `persistDirty` is set. -/
  dirty : Finset Bytes
  file : OffsetsFile
  flush : FlushPhase

/-- Whether an action that finds its message sets `persistDirty`: acks and nacks do, and a sweep
that takes a dead message out of flight. -/
def AckAction.marks (c : Consumer) : AckAction → Bool
  | .deliver _ _ => false
  | .rollback _ => false
  | .nack _ _ => true
  | .sweep threshold expired =>
    c.inflight.keys.any fun msgID => decide (msgID ∉ (c.collectExpired threshold expired).inflight)
  | .ack _ => true

inductive FlushAction where
  /-- A consumer's own action. -/
  | handle (id : Bytes) (a : AckAction)
  /-- `getOrCreateConsumer`. -/
  | create (id : Bytes)
  /-- `partitionHasDirty` has found a dirty consumer and `flushOffsets` is called. -/
  | begin
  /-- The flag of a consumer is cleared. -/
  | clear (id : Bytes)
  | clearDone
  | snapBegin
  /-- A consumer's offsets are copied, under its own lock. -/
  | snap (id : Bytes)
  | snapDone
  /-- The next file operation, and whether it succeeds. -/
  | fileOp (ok : Bool)
deriving DecidableEq

namespace Flusher

def opened (fresh : Partition) (file : OffsetsFile) : Flusher :=
  ⟨fresh.loadOffsets ((decoded file).entries.map fun e => (e.1, e.2)), ∅, file, .idle⟩

/-- A consumer's action. One that fails, because its message is not in flight, changes nothing. -/
def handle (s : Flusher) (id : Bytes) (a : AckAction) : Option Flusher :=
  (s.part.consumers.lookup id).map fun c =>
    match a.step c with
    | none => s
    | some c' =>
      { s with
        part := s.part.setConsumer id c'
        dirty := if a.marks c then insert id s.dirty else s.dirty }

/-- `getOrCreateConsumer`, which stores the consumer it creates. -/
def create (s : Flusher) (id : Bytes) : Flusher :=
  { s with part := s.part.setConsumer id (s.part.getOrCreateConsumer id) }

/-- A file operation. A failure returns, and the last success replaces the file. -/
def fileOp (s : Flusher) (op : FileOp) (snapshot : OffsetsMap) (ok : Bool) : Flusher :=
  if ok then
    match op.next with
    | some op' => { s with flush := .writing op' snapshot }
    | none => { s with file := document snapshot, flush := .idle }
  else { s with flush := .idle }

def step (s : Flusher) : FlushAction → Option Flusher
  | .handle id a => s.handle id a
  | .create id =>
    if s.flush.locked then none
    else some (s.create id)
  | .begin =>
    if s.flush = .idle ∧ s.dirty ≠ ∅ then
      some { s with flush := .clearing s.part.consumers.keys }
    else none
  | .clear id =>
    match s.flush with
    | .clearing left =>
      if id ∈ left then
        some { s with dirty := s.dirty.erase id, flush := .clearing (left.erase id) }
      else none
    | _ => none
  | .clearDone => if s.flush = .clearing [] then some { s with flush := .cleared } else none
  | .snapBegin =>
    if s.flush = .cleared then some { s with flush := .snapping s.part.consumers.keys ∅ } else none
  | .snap id =>
    match s.flush, s.part.consumers.lookup id with
    | .snapping left taken, some c =>
      if id ∈ left then
        some { s with flush := .snapping (left.erase id) (taken.insert id c.offsets.snapshot) }
      else none
    | _, _ => none
  | .snapDone =>
    match s.flush with
    | .snapping [] taken => some { s with flush := .writing .create taken }
    | _ => none
  | .fileOp ok =>
    match s.flush with
    | .writing op snapshot => some (s.fileOp op snapshot ok)
    | _ => none

/-! ## What the steps keep -/

/-- The offsets of a consumer, if the partition has it. -/
def offsets (s : Flusher) (id : Bytes) : Option Offsets :=
  (s.part.consumers.lookup id).map Consumer.offsets

/-- The entries restore the offsets of every consumer that is not in `left`. -/
def Covers (s : Flusher) (entries : OffsetsMap) (left : List Bytes) : Prop :=
  ∀ id o, s.offsets id = some o → id ∉ left → restored entries id = o

/-- `offsets.json` has the offsets of every consumer of the partition. A consumer without an entry
has those of a new one, as after `loadOffsets`. -/
def Synced (s : Flusher) : Prop := s.Covers (decoded s.file) []

/-- The entries are of consumers of the partition, and they cover the consumers outside `left` or
a consumer is dirty. -/
structure Holds (s : Flusher) (entries : OffsetsMap) (left : List Bytes) : Prop where
  known : ∀ id ∈ entries, s.offsets id ≠ none
  covers : s.Covers entries left ∨ s.dirty ≠ ∅

/-- What a consumer's action does: it leaves all offsets as they are or it leaves a mark. -/
structure Handled (s s' : Flusher) : Prop where
  file : s'.file = s.file
  flush : s'.flush = s.flush
  known : ∀ id, s'.offsets id = none ↔ s.offsets id = none
  dirty : s.dirty ⊆ s'.dirty
  marked : ∀ id ∈ s'.dirty, id ∈ s.dirty ∨ s.offsets id ≠ none
  offsets : s'.offsets = s.offsets ∨ s'.dirty ≠ ∅

variable {s s' : Flusher} {id : Bytes} {entries : OffsetsMap} {left : List Bytes}

theorem mem_keys_iff : id ∈ s.part.consumers.keys ↔ s.offsets id ≠ none := by
  unfold offsets
  rw [ne_eq, map_eq_none_iff, AList.lookup_eq_none, not_not]
  rfl

theorem Handled.refl (s : Flusher) : Handled s s :=
  ⟨rfl, rfl, fun _ => Iff.rfl, subset_rfl, fun _ h => .inl h, .inl rfl⟩

variable {c : Consumer}

/-- Without a mark the offsets stay. -/
theorem offsets_of_not_marks {c' : Consumer} {a : AckAction} (h : a.step c = some c')
    (hmarks : a.marks c = false) : c'.offsets = c.offsets := by
  have hoffsets := AckAction.offsets_of_step h
  cases a with
  | ack => cases hmarks
  | _ => exact hoffsets

theorem offsets_setConsumer (s : Flusher) (id : Bytes) (c : Consumer) (dirty : Finset Bytes)
    (k : Bytes) :
    ({ s with part := s.part.setConsumer id c, dirty := dirty } : Flusher).offsets k =
      if k = id then some c.offsets else s.offsets k := by
  unfold offsets Partition.setConsumer
  split_ifs with hk
  · rw [hk, AList.lookup_insert]
    rfl
  · rw [AList.lookup_insert_ne hk]

theorem handled_of_handle {a : AckAction} (h : s.handle id a = some s') : Handled s s' := by
  obtain ⟨c, hc, rfl⟩ := map_eq_some_iff.mp h
  have hid : s.offsets id = some c.offsets := by
    unfold offsets
    rw [hc]
    rfl
  cases hstep : a.step c with
  | none => exact .refl s
  | some =>
    refine ⟨rfl, rfl, ?_, ?_, ?_, ?_⟩
    · intro k
      rw [offsets_setConsumer]
      by_cases hk : k = id
      · rw [if_pos hk, hk, hid]
        exact iff_of_false (some_ne_none _) (some_ne_none _)
      · rw [if_neg hk]
    · split_ifs
      · exact Finset.subset_insert _ _
      · exact subset_rfl
    · intro k hk
      split_ifs at hk
      · rcases Finset.mem_insert.mp hk with rfl | hk
        · exact .inr (by rw [hid]; exact some_ne_none _)
        · exact .inl hk
      · exact .inl hk
    · cases hmarks : a.marks c with
      | true => exact .inr (Finset.insert_ne_empty _ _)
      | false =>
        left
        funext k
        rw [offsets_setConsumer, offsets_of_not_marks hstep hmarks]
        split_ifs with hk
        · rw [hk, hid]
        · rfl

/-- The file and the phase do not matter. -/
theorem Holds.congr (h : s.Holds entries left) (file : OffsetsFile) (flush : FlushPhase) :
    ({ s with file := file, flush := flush } : Flusher).Holds entries left :=
  ⟨h.known, h.covers⟩

theorem Holds.handled (h : s.Holds entries left) (hh : Handled s s') : s'.Holds entries left where
  known := fun k hk hnone => h.known k hk ((hh.known k).mp hnone)
  covers := by
    rcases hh.offsets with heq | hdirty
    · refine h.covers.imp (fun hcovers k o ho => hcovers k o (heq ▸ ho)) ?_
      exact fun hdirty => (Finset.nonempty_iff_ne_empty.mpr hdirty).mono hh.dirty |>.ne_empty
    · exact .inr hdirty

/-- A created consumer has the offsets of one without an entry. -/
theorem offsets_create (s : Flusher) (id k : Bytes) :
    (s.create id).offsets k =
      if k = id then some ((s.offsets id).getD .new) else s.offsets k := by
  rw [create, offsets_setConsumer]
  unfold offsets Partition.getOrCreateConsumer
  cases s.part.consumers.lookup id with
  | none => rfl
  | some => rfl

theorem offsets_create_eq_none {k : Bytes} (h : (s.create id).offsets k = none) :
    s.offsets k = none := by
  rw [offsets_create] at h
  split_ifs at h
  exact h

theorem Holds.create (h : s.Holds entries left) : (s.create id).Holds entries left where
  known := fun k hk hnone => h.known k hk (offsets_create_eq_none hnone)
  covers := by
    refine h.covers.imp_left fun hcovers k o ho hleft => ?_
    rw [offsets_create] at ho
    split_ifs at ho with hk
    · cases hid : s.offsets id with
      | some o' =>
        rw [hid] at ho
        cases ho
        exact hcovers k o' (hk ▸ hid) hleft
      | none =>
        rw [hid] at ho
        cases ho
        -- The entries are of consumers that are there, so this one has none.
        have hentry : entries.lookup k = none :=
          AList.lookup_eq_none.mpr fun hmem => h.known k hmem (hk ▸ hid)
        rw [restored, hentry]
        rfl
    · exact hcovers k o ho hleft

def PhaseKept (s : Flusher) : FlushPhase → Prop
  | .idle => s.Holds (decoded s.file) []
  | .clearing _ => True
  | .cleared => True
  | .snapping left taken => s.Holds taken left
  | .writing _ snapshot => s.Holds snapshot []

theorem PhaseKept.mono {phase : FlushPhase} (h : s.PhaseKept phase) (hfile : s'.file = s.file)
    (hholds : ∀ entries left, s.Holds entries left → s'.Holds entries left) :
    s'.PhaseKept phase := by
  cases phase with
  | idle =>
    rw [PhaseKept, hfile]
    exact hholds _ _ h
  | clearing | cleared => trivial
  | snapping | writing => exact hholds _ _ h

/-- The invariant of the runs in which no flush loses a mark. -/
structure Kept (s : Flusher) : Prop where
  /-- The ids are texts that JSON gives back. -/
  ids : ∀ id, s.offsets id ≠ none → jsonKey id = id
  marked : ∀ id ∈ s.dirty, s.offsets id ≠ none
  file : ∀ id ∈ decoded s.file, s.offsets id ≠ none
  phase : s.PhaseKept s.flush

theorem Kept.handled (h : s.Kept) (hh : Handled s s') : s'.Kept where
  ids := fun id hid => h.ids id fun hnone => hid ((hh.known id).mpr hnone)
  marked := fun id hid hnone => by
    rw [hh.known] at hnone
    exact (hh.marked id hid).elim (fun hold => h.marked id hold hnone) fun hne => hne hnone
  file := fun id hid hnone => h.file id (hh.file ▸ hid) ((hh.known id).mp hnone)
  phase := by
    rw [hh.flush]
    exact h.phase.mono hh.file fun _ _ hholds => hholds.handled hh

theorem Kept.create (h : s.Kept) (hid : jsonKey id = id) : (s.create id).Kept where
  ids := fun k hk => by
    rw [offsets_create] at hk
    split_ifs at hk with heq
    · rw [heq, hid]
    · exact h.ids k hk
  marked := fun k hk hnone => h.marked k hk (offsets_create_eq_none hnone)
  file := fun k hk hnone => h.file k hk (offsets_create_eq_none hnone)
  phase := h.phase.mono rfl fun _ _ hholds => hholds.create

/-- A consumer whose offsets were copied is covered. -/
theorem Holds.snap (h : s.Holds entries left) (hc : s.part.consumers.lookup id = some c) :
    s.Holds (entries.insert id c.offsets.snapshot) (left.erase id) where
  known := fun k hk => by
    rcases (AList.mem_insert _).mp hk with rfl | hk
    · unfold offsets
      rw [hc]
      exact some_ne_none _
    · exact h.known k hk
  covers := by
    refine h.covers.imp_left fun hcovers k o ho hleft => ?_
    unfold restored
    by_cases hk : k = id
    · subst hk
      rw [AList.lookup_insert, elim_some, Offsets.load_snapshot]
      unfold offsets at ho
      rw [hc] at ho
      exact Option.some.inj ho
    · rw [AList.lookup_insert_ne hk]
      exact hcovers k o ho fun hmem => hleft ((mem_erase_of_ne hk).mpr hmem)

/-- The document is read back as the snapshot. -/
theorem Holds.document (h : s.Holds entries left)
    (hids : ∀ id, s.offsets id ≠ none → jsonKey id = id) :
    s.Holds (decoded (document entries)) left := by
  have hlookup := lookup_decoded_document fun id hid => hids id (h.known id hid)
  refine ⟨fun id hid => h.known id ?_, h.covers.imp_left fun hcovers id o ho hleft => ?_⟩
  · rw [← AList.lookup_isSome, hlookup, AList.lookup_isSome] at hid
    exact hid
  · rw [restored, hlookup]
    exact hcovers id o ho hleft

/-- What a step does, with the phase that it starts in. -/
inductive Took (s : Flusher) : FlushAction → Flusher → Prop where
  | handle {id : Bytes} {a : AckAction} {s' : Flusher} (hhandled : Handled s s') :
    Took s (.handle id a) s'
  | create (id : Bytes) : Took s (.create id) (s.create id)
  | begin (hidle : s.flush = .idle) :
    Took s .begin { s with flush := .clearing s.part.consumers.keys }
  | clear {left : List Bytes} (id : Bytes) (hflush : s.flush = .clearing left) :
    Took s (.clear id) { s with dirty := s.dirty.erase id, flush := .clearing (left.erase id) }
  | clearDone (hflush : s.flush = .clearing []) : Took s .clearDone { s with flush := .cleared }
  | snapBegin (hflush : s.flush = .cleared) :
    Took s .snapBegin { s with flush := .snapping s.part.consumers.keys ∅ }
  | snap {left : List Bytes} {taken : OffsetsMap} {id : Bytes} {c : Consumer}
    (hflush : s.flush = .snapping left taken) (hc : s.part.consumers.lookup id = some c) :
    Took s (.snap id)
      { s with flush := .snapping (left.erase id) (taken.insert id c.offsets.snapshot) }
  | snapDone {taken : OffsetsMap} (hflush : s.flush = .snapping [] taken) :
    Took s .snapDone { s with flush := .writing .create taken }
  | fileOp {op : FileOp} {snapshot : OffsetsMap} (ok : Bool)
    (hflush : s.flush = .writing op snapshot) : Took s (.fileOp ok) (s.fileOp op snapshot ok)

variable {a : FlushAction}

theorem took_of_step (hstep : s.step a = some s') : Took s a s' := by
  cases a with
  | handle => exact .handle (handled_of_handle hstep)
  | create id =>
    simp only [step] at hstep
    split_ifs at hstep
    cases hstep
    exact .create id
  | begin =>
    simp only [step] at hstep
    split_ifs at hstep with h
    cases hstep
    exact .begin h.1
  | clear id =>
    simp only [step] at hstep
    split at hstep
    next left hflush =>
      split_ifs at hstep
      cases hstep
      exact .clear id hflush
    · cases hstep
  | clearDone =>
    simp only [step] at hstep
    split_ifs at hstep with hflush
    cases hstep
    exact .clearDone hflush
  | snapBegin =>
    simp only [step] at hstep
    split_ifs at hstep with hflush
    cases hstep
    exact .snapBegin hflush
  | snap =>
    simp only [step] at hstep
    split at hstep
    next left taken c hflush hc =>
      split_ifs at hstep
      cases hstep
      exact .snap hflush hc
    · cases hstep
  | snapDone =>
    simp only [step] at hstep
    split at hstep
    next taken hflush =>
      cases hstep
      exact .snapDone hflush
    · cases hstep
  | fileOp ok =>
    simp only [step] at hstep
    split at hstep
    next op snapshot hflush =>
      cases hstep
      exact .fileOp ok hflush
    · cases hstep

/-- The condition on the steps of a run: a file operation fails only while a consumer is dirty, and
the ids of new consumers are texts that JSON gives back. -/
def Retried (s : Flusher) : FlushAction → Prop
  | .create id => jsonKey id = id
  | .fileOp ok => ok = true ∨ s.dirty ≠ ∅
  | _ => True

instance (s : Flusher) : DecidablePred (Retried s) := fun a =>
  match a with
  | .create id => inferInstanceAs (Decidable (jsonKey id = id))
  | .fileOp ok => inferInstanceAs (Decidable (ok = true ∨ s.dirty ≠ ∅))
  | .handle _ _ => .isTrue trivial
  | .begin => .isTrue trivial
  | .clear _ => .isTrue trivial
  | .clearDone => .isTrue trivial
  | .snapBegin => .isTrue trivial
  | .snap _ => .isTrue trivial
  | .snapDone => .isTrue trivial

variable {op : FileOp}

theorem Kept.fileOp {snapshot : OffsetsMap} {ok : Bool} (h : s.Kept)
    (hflush : s.flush = .writing op snapshot) (hok : ok = true ∨ s.dirty ≠ ∅) :
    (s.fileOp op snapshot ok).Kept := by
  have hholds : s.Holds snapshot [] := by
    have hphase := h.phase
    rw [hflush] at hphase
    exact hphase
  unfold Flusher.fileOp
  split_ifs with hsucc
  · split
    · exact ⟨h.ids, h.marked, h.file, hholds.congr _ _⟩
    · have hdocument := hholds.document h.ids
      exact ⟨h.ids, h.marked, hdocument.known, hdocument.congr _ _⟩
  · exact ⟨h.ids, h.marked, h.file, h.file, .inr (hok.resolve_left hsucc)⟩

theorem kept_of_step (hok : Retried s a) (h : s.Kept) (hstep : s.step a = some s') : s'.Kept := by
  have hphase := h.phase
  cases took_of_step hstep with
  | handle hhandled => exact h.handled hhandled
  | create => exact h.create hok
  | begin | clearDone => exact ⟨h.ids, h.marked, h.file, trivial⟩
  | clear => exact ⟨h.ids, fun k hk => h.marked k (Finset.mem_of_mem_erase hk), h.file, trivial⟩
  | snapBegin =>
    refine ⟨h.ids, h.marked, h.file, fun k hk => absurd hk (AList.notMem_empty k), .inl ?_⟩
    intro k o ho hleft
    exact absurd (mem_keys_iff.mpr (ho ▸ some_ne_none o)) hleft
  | snap hflush hc =>
    rw [hflush] at hphase
    exact ⟨h.ids, h.marked, h.file, (Holds.snap hphase hc).congr _ _⟩
  | snapDone hflush =>
    rw [hflush] at hphase
    exact ⟨h.ids, h.marked, h.file, Holds.congr hphase _ _⟩
  | fileOp ok hflush => exact h.fileOp hflush hok

/-! ## A flush on its own -/

/-- The steps of a flush whose file operations succeed. -/
def Quiet (_ : Flusher) : FlushAction → Prop
  | .handle _ _ => False
  | .create _ => False
  | .fileOp ok => ok = true
  | _ => True

/-- What holds in a phase of a flush that no consumer interferes with. -/
def PhaseSettling (s : Flusher) : FlushPhase → Prop
  | .idle => s.Synced
  | .clearing left => ∀ id ∈ s.dirty, id ∈ left
  | _ => s.dirty = ∅

theorem retried_of_quiet (h : Quiet s a) : Retried s a := by
  cases a with
  | create => exact h.elim
  | fileOp => exact .inl h
  | _ => trivial

/-- With all flags cleared, the snapshot covers every consumer. -/
theorem settling_of_fileOp {snapshot : OffsetsMap} (h : s.Kept)
    (hflush : s.flush = .writing op snapshot) (hclean : s.dirty = ∅) :
    (s.fileOp op snapshot true).PhaseSettling (s.fileOp op snapshot true).flush := by
  have hkept := h.fileOp hflush (.inl rfl)
  unfold Flusher.fileOp at hkept ⊢
  rw [if_pos rfl] at hkept ⊢
  cases hnext : op.next with
  | some => exact hclean
  | none =>
    rw [hnext] at hkept
    exact hkept.phase.covers.resolve_right fun hdirty => hdirty hclean

theorem settling_of_step (hok : Quiet s a) (h : s.Kept)
    (hphase : s.flush ≠ .idle → s.PhaseSettling s.flush) (hstep : s.step a = some s') :
    s'.PhaseSettling s'.flush := by
  cases took_of_step hstep with
  | handle | create => exact hok.elim
  | begin => exact fun id hid => mem_keys_iff.mpr (h.marked id hid)
  | clear id hflush =>
    rw [hflush] at hphase
    intro k hk
    obtain ⟨hne, hk⟩ := Finset.mem_erase.mp hk
    exact (mem_erase_of_ne hne).mpr (hphase (by simp) k hk)
  | clearDone hflush =>
    rw [hflush] at hphase
    refine Finset.eq_empty_of_forall_notMem fun k hk => ?_
    exact not_mem_nil (hphase (by simp) k hk)
  | snapBegin hflush | snap hflush | snapDone hflush =>
    rw [hflush] at hphase
    exact hphase (by simp)
  | fileOp ok hflush =>
    cases hok
    rw [hflush] at hphase
    exact settling_of_fileOp h hflush (hphase (by simp))

/-- A flush on its own brings the file up to date. -/
theorem synced_of_quiet_run {as : List FlushAction} (h : s.Kept) (hidle : s.flush = .idle)
    (hrun : Run step Quiet s as s') (has : as ≠ []) (hidle' : s'.flush = .idle) : s'.Synced := by
  cases hrun with
  | nil => exact absurd rfl has
  | @cons _ s₁ _ a as hok hstep hrun =>
    have hkept₁ : s₁.Kept := kept_of_step (retried_of_quiet hok) h hstep
    have hphase₁ : s₁.PhaseSettling s₁.flush :=
      settling_of_step hok h (fun hne => absurd hidle hne) hstep
    have hend : s'.Kept ∧ s'.PhaseSettling s'.flush := by
      refine hrun.invariant (I := fun s => s.Kept ∧ s.PhaseSettling s.flush) ⟨hkept₁, hphase₁⟩ ?_
      intro t a t' hok ht hstep
      exact ⟨kept_of_step (retried_of_quiet hok) ht.1 hstep,
        settling_of_step hok ht.1 (fun _ => ht.2) hstep⟩
    have hphase := hend.2
    rw [hidle'] at hphase
    exact hphase

/-- The flags can be cleared one by one. -/
theorem exists_clear (hflush : s.flush = .clearing left) :
    ∃ as s', Run step Quiet s as s' ∧ s'.flush = .cleared := by
  induction left generalizing s with
  | nil => exact ⟨[.clearDone], _, .single trivial (if_pos hflush), rfl⟩
  | cons id left ih =>
    have hstep : s.step (.clear id) =
        some { s with dirty := s.dirty.erase id, flush := .clearing left } := by
      simp only [step, hflush]
      rw [if_pos mem_cons_self, erase_cons_head]
    obtain ⟨as, s', hrun, hcleared⟩ := ih (s := { s with
      dirty := s.dirty.erase id, flush := .clearing left }) rfl
    exact ⟨.clear id :: as, s', .cons trivial hstep hrun, hcleared⟩

/-- The offsets that are left can be copied one by one. -/
theorem exists_snap {taken : OffsetsMap} (hflush : s.flush = .snapping left taken)
    (hleft : ∀ id ∈ left, id ∈ s.part.consumers) :
    ∃ as s' snapshot, Run step Quiet s as s' ∧ s'.flush = .writing .create snapshot := by
  induction left generalizing s taken with
  | nil =>
    have hstep : s.step .snapDone = some { s with flush := .writing .create taken } := by
      simp only [step, hflush]
    exact ⟨[.snapDone], _, taken, .single trivial hstep, rfl⟩
  | cons id left ih =>
    obtain ⟨c, hc⟩ := isSome_iff_exists.mp
      (AList.lookup_isSome.mpr (hleft id mem_cons_self))
    have hstep : s.step (.snap id) =
        some { s with flush := .snapping left (taken.insert id c.offsets.snapshot) } := by
      simp only [step, hflush, hc]
      rw [if_pos mem_cons_self, erase_cons_head]
    obtain ⟨as, s', snapshot, hrun, hwriting⟩ := ih (s := { s with
      flush := .snapping left (taken.insert id c.offsets.snapshot) }) rfl
        fun k hk => hleft k (mem_cons_of_mem id hk)
    exact ⟨.snap id :: as, s', snapshot, .cons trivial hstep hrun, hwriting⟩

theorem run_fileOps {snapshot : OffsetsMap} (hflush : s.flush = .writing .create snapshot) :
    Run step Quiet s (List.replicate 5 (.fileOp true))
      { s with file := document snapshot, flush := .idle } := by
  have hstep : s.step (.fileOp true) = some { s with flush := .writing .encode snapshot } := by
    simp only [step, hflush]
    rfl
  refine .cons rfl hstep (.cons rfl rfl (.cons rfl rfl (.cons rfl rfl (.single rfl rfl))))

/-- The persist loop can flush a dirty partition. -/
theorem exists_flush (hidle : s.flush = .idle) (hdirty : s.dirty ≠ ∅) :
    ∃ as s', as ≠ [] ∧ Run step Quiet s as s' ∧ s'.flush = .idle := by
  have hbegin : s.step .begin = some { s with flush := .clearing s.part.consumers.keys } :=
    if_pos ⟨hidle, hdirty⟩
  obtain ⟨as, s₁, hclear, hcleared⟩ :=
    exists_clear (s := { s with flush := .clearing s.part.consumers.keys }) rfl
  obtain ⟨bs, s₂, snapshot, hsnap, hwriting⟩ :=
    exists_snap (s := { s₁ with flush := .snapping s₁.part.consumers.keys ∅ }) rfl fun _ h => h
  have hsnapBegin : s₁.step .snapBegin =
      some { s₁ with flush := .snapping s₁.part.consumers.keys ∅ } := if_pos hcleared
  have hfrom : Run step Quiet s₁ (.snapBegin :: (bs ++ List.replicate 5 (.fileOp true)))
      { s₂ with file := document snapshot, flush := .idle } :=
    .cons trivial hsnapBegin (hsnap.trans (run_fileOps hwriting))
  exact ⟨.begin :: (as ++ .snapBegin :: (bs ++ List.replicate 5 (.fileOp true))), _,
    cons_ne_nil _ _, .cons trivial hbegin (hclear.trans hfrom), rfl⟩

/-! ## The start -/

theorem offsets_opened {fresh : Partition} (hfresh : fresh.consumers = ∅) (file : OffsetsFile)
    (id : Bytes) :
    (opened fresh file).offsets id = ((decoded file).lookup id).map Offsets.new.load := by
  have hkeys : ((decoded file).entries.map fun e => (e.1, e.2)).map Prod.fst =
      (decoded file).keys := by
    rw [List.map_map]
    rfl
  unfold offsets opened
  cases hlookup : (decoded file).lookup id with
  | none =>
    rw [Partition.lookup_loadOffsets_of_notMem, hfresh]
    · rfl
    · rw [hkeys]
      exact AList.lookup_eq_none.mp hlookup
  | some entry =>
    have hnodup : (((decoded file).entries.map fun e => (e.1, e.2)).map Prod.fst).Nodup := by
      rw [hkeys]
      exact (decoded file).keys_nodup
    have hmem : (id, entry) ∈ (decoded file).entries.map fun e => (e.1, e.2) :=
      List.mem_map.mpr ⟨⟨id, entry⟩, AList.mem_lookup_iff.mp hlookup, rfl⟩
    obtain ⟨c, hc, hoffsets⟩ := Partition.lookup_loadOffsets (p := fresh) hnodup hmem
      (by rw [hfresh]; rfl)
    rw [hc]
    exact congrArg some hoffsets

theorem kept_opened {fresh : Partition} {file : OffsetsFile} (hfresh : fresh.consumers = ∅)
    (hfile : ∀ id ∈ decoded file, jsonKey id = id) : (opened fresh file).Kept := by
  have hknown : ∀ id, (opened fresh file).offsets id ≠ none ↔ id ∈ decoded file := fun id => by
    rw [offsets_opened hfresh, ne_eq, map_eq_none_iff, AList.lookup_eq_none, not_not]
  refine ⟨fun id hid => hfile id ((hknown id).mp hid), fun id hid => ?_,
    fun id hid => (hknown id).mpr hid, fun id hid => (hknown id).mpr hid, .inl fun id o ho _ => ?_⟩
  · exact absurd hid (Finset.notMem_empty id)
  · rw [offsets_opened hfresh] at ho
    obtain ⟨entry, hentry, rfl⟩ := map_eq_some_iff.mp ho
    rw [restored]
    exact congrArg (fun e => Option.elim e .new Offsets.new.load) hentry

/-- A partition that has loaded its offsets file, whose keys are texts that JSON gives back, in any
interleaving of the actions of its consumers with flushes whose file operations may fail. As long as
a file operation fails only while a consumer is dirty (marked after the flush had cleared its flag)
and the ids of new consumers are valid UTF-8, the file has the offsets of every consumer or a
consumer is dirty whenever no flush is in progress. From there a flush on its own is possible if the
file is not up to date, and brings it up to date. -/
theorem acks_reach_file {fresh : Partition} {file : OffsetsFile} {as : List FlushAction}
    (hfresh : fresh.consumers = ∅) (hfile : ∀ id ∈ decoded file, jsonKey id = id)
    (hrun : Run step Retried (opened fresh file) as s) (hidle : s.flush = .idle) :
    (s.Synced ∨ s.dirty ≠ ∅) ∧
    (∃ bs s', Run step Quiet s bs s' ∧ s'.flush = .idle ∧ s'.Synced) ∧
    ∀ bs s', Run step Quiet s bs s' → bs ≠ [] → s'.flush = .idle → s'.Synced := by
  have hkept : s.Kept :=
    hrun.invariant (kept_opened hfresh hfile) fun _ _ _ hok h hstep => kept_of_step hok h hstep
  have hphase := hkept.phase
  rw [hidle] at hphase
  have hquiet : ∀ bs s', Run step Quiet s bs s' → bs ≠ [] → s'.flush = .idle → s'.Synced :=
    fun _ _ hbs hne hidle' => synced_of_quiet_run hkept hidle hbs hne hidle'
  refine ⟨hphase.covers, ?_, hquiet⟩
  rcases hphase.covers with hsynced | hdirty
  · exact ⟨[], s, .nil s, hidle, hsynced⟩
  · obtain ⟨bs, s', hne, hbs, hidle'⟩ := exists_flush hidle hdirty
    exact ⟨bs, s', hbs, hidle', hquiet bs s' hbs hne hidle'⟩

/-- An ack, then a flush up to its first file operation. -/
def ackedThenFlush : List FlushAction :=
  [.create [99], .handle [99] (.deliver 0 []), .handle [99] (.deliver 1 []),
    .handle [99] (.ack 0), .begin, .clear [99], .clearDone, .snapBegin, .snap [99], .snapDone]

/-- The flush fails after another ack has come in. -/
theorem acks_reach_file_overtaken :
    ∃ s, Run step Retried (opened ⟨[], .empty 8, ∅, 8⟩ [])
        (ackedThenFlush ++ [.handle [99] (.ack 1), .fileOp false]) s ∧
      s.dirty = {[99]} ∧ (s.Synced ∨ s.dirty ≠ ∅) ∧
      ∃ bs s', Run step Quiet s bs s' ∧ s'.flush = .idle ∧ s'.Synced := by
  refine exists_run_of_exec (P := fun s => s.dirty = {[99]} ∧ s.flush = .idle)
    (by decide +kernel) ?_
  rintro s hrun ⟨hdirty, hidle⟩
  have hreach := acks_reach_file rfl (fun id hid => absurd hid (AList.notMem_empty id)) hrun hidle
  exact ⟨hdirty, hreach.1, hreach.2.1⟩

/-- A flush whose first file operation fails leaves the file without an ack and no consumer dirty:
the persist loop does not flush the partition again. -/
theorem failed_flush_forgets :
    ∃ s, Run step (fun _ _ => True) (opened ⟨[], .empty 8, ∅, 8⟩ [])
        (ackedThenFlush ++ [.fileOp false]) s ∧
      s.flush = .idle ∧ s.dirty = ∅ ∧ ¬ s.Synced ∧ s.step .begin = none := by
  refine exists_run_of_exec (P := fun s => s.flush = .idle ∧ s.dirty = ∅ ∧
    s.offsets [99] = some ⟨true, 0, ∅⟩ ∧ restored (decoded s.file) [99] = .new)
    (by decide +kernel) ?_
  rintro s - ⟨hidle, hclean, hoffsets, hrestored⟩
  refine ⟨hidle, hclean, fun hsynced => ?_, if_neg fun h => h.2 hclean⟩
  have hsame := hsynced [99] _ hoffsets not_mem_nil
  rw [hrestored] at hsame
  exact absurd hsame (by decide)

/-! ## A clean stop -/

/-- The last flush of `Close`, which is left out when no consumer is dirty: opened on what it
leaves, a partition gives every consumer, known or not, the offsets it had. -/
theorem clean_stop_restores {fresh fresh' : Partition} {file : OffsetsFile}
    {as bs : List FlushAction} (hfresh : fresh.consumers = ∅)
    (hfile : ∀ id ∈ decoded file, jsonKey id = id)
    (hrun : Run step Retried (opened fresh file) as s) (hidle : s.flush = .idle)
    (hstop : Run step Quiet s bs s') (hskip : bs = [] → s.dirty = ∅) (hidle' : s'.flush = .idle)
    (hfresh' : fresh'.consumers = ∅) (id : Bytes) :
    ((opened fresh' s'.file).offsets id).getD .new = (s'.offsets id).getD .new := by
  have hkept : s.Kept :=
    hrun.invariant (kept_opened hfresh hfile) fun _ _ _ hok h hstep => kept_of_step hok h hstep
  have hkept' : s'.Kept := hstop.invariant hkept
    fun _ _ _ hok h hstep => kept_of_step (retried_of_quiet hok) h hstep
  have hsynced : s'.Synced := by
    by_cases hbs : bs = []
    · subst hbs
      cases hstop
      have hphase := hkept.phase
      rw [hidle] at hphase
      exact hphase.covers.resolve_right fun hdirty => hdirty (hskip rfl)
    · exact synced_of_quiet_run hkept hidle hstop hbs hidle'
  have hread : ((opened fresh' s'.file).offsets id).getD .new = restored (decoded s'.file) id := by
    rw [offsets_opened hfresh', restored]
    cases (decoded s'.file).lookup id <;> rfl
  rw [hread]
  cases ho : s'.offsets id with
  | some o => exact hsynced id o ho not_mem_nil
  | none =>
    have hnone : (decoded s'.file).lookup id = none :=
      AList.lookup_eq_none.mpr fun hmem => hkept'.file id hmem ho
    rw [restored, hnone]
    rfl

instance (s : Flusher) (a : FlushAction) : Decidable (Quiet s a) := by
  cases a with
  | handle | create => exact .isFalse fun h => h
  | fileOp ok => exact inferInstanceAs (Decidable (ok = true))
  | _ => exact .isTrue trivial

theorem clean_stop_restores_acked :
    ∃ s, Run step Retried (opened ⟨[], .empty 8, ∅, 8⟩ []) (ackedThenFlush.take 4) s ∧
      ∃ s', Run step Quiet s (ackedThenFlush.drop 4 ++ List.replicate 5 (.fileOp true)) s' ∧
        s'.offsets [99] = some ⟨true, 0, ∅⟩ ∧ ∀ id,
          ((opened ⟨[], .empty 8, ∅, 8⟩ s'.file).offsets id).getD .new =
            (s'.offsets id).getD .new := by
  obtain ⟨s, hrun, hidle, s', hstop, hidle', hoffsets⟩ :
      ∃ s, Run step Retried (opened ⟨[], .empty 8, ∅, 8⟩ []) (ackedThenFlush.take 4) s ∧
        s.flush = .idle ∧
        ∃ s', Run step Quiet s (ackedThenFlush.drop 4 ++ List.replicate 5 (.fileOp true)) s' ∧
          s'.flush = .idle ∧ s'.offsets [99] = some ⟨true, 0, ∅⟩ := by
    decide +kernel
  exact ⟨s, hrun, s', hstop, hoffsets, clean_stop_restores rfl
    (fun id hid => absurd hid (AList.notMem_empty id)) hrun hidle hstop
    (fun hnil => nomatch hnil) hidle' rfl⟩

end Flusher

end ToyMQ.Broker
