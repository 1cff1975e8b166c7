import ToyMQ.Client.Connection

/-!
# Responses and the calls they go to

`Exchange.Ok` is the invariant under which the pairing by order is right: the calls in the pending
queue are those of what is in flight, in the same order, and what no call waits for comes last.
Two things break it. A reply with a surplus frame, while another call is in flight or before the
client has read the surplus; and two calls that register in one order and write in the other.
-/

namespace ToyMQ.Client

open Lib Server Broker List

/-! ## Callers that have yet to write -/

variable {callers : List Phase} {i : ℕ} {ph : Phase}

theorem pushedIDs_split (h : callers[i]? = some ph) :
    pushedIDs callers = pushedIDs (callers.take i) ++
      (ph.pushedID.toList ++ pushedIDs (callers.drop (i + 1))) := by
  obtain ⟨hi, rfl⟩ := List.getElem?_eq_some_iff.mp h
  have hsplit : callers = callers.take i ++ (callers[i] :: callers.drop (i + 1)) := by
    rw [cons_getElem_drop_succ, take_append_drop]
  unfold pushedIDs
  conv_lhs => rw [hsplit]
  rw [filterMap_append, filterMap_cons]
  cases callers[i].pushedID <;> rfl

theorem pushedIDs_set (h : callers[i]? = some ph) (ph' : Phase) :
    pushedIDs (callers.set i ph') = pushedIDs (callers.take i) ++
      (ph'.pushedID.toList ++ pushedIDs (callers.drop (i + 1))) := by
  have hi : i < callers.length := (List.getElem?_eq_some_iff.mp h).1
  have hset : (callers.set i ph')[i]? = some ph' := by
    rw [getElem?_set_self hi]
  rw [pushedIDs_split hset, take_set_of_le (le_refl i),
    drop_set_of_lt (Nat.lt_succ_self i)]

/-! ## The invariant -/

/-- The frame is that of the server's reply to the call. -/
def Own (history : List Call) (id : ℕ) (f : Frame) : Prop :=
  ∃ c reply, history[id]? = some c ∧ c.reply = some reply ∧ c.req.Answers reply ∧ f = reply.frame

/-- The calls of what is in flight: unread responses, requests that were not served, and frames
that were not written. -/
def Exchange.inflight (x : Exchange) : List (Option ℕ) :=
  x.responses.map Sent.call ++ (x.wire.filter Item.answered).map Item.call ++
    (pushedIDs x.callers).map some

/-- The pairing is right. -/
structure Exchange.Ok (x : Exchange) : Prop where
  /-- The queue lists the calls in flight in order, and what no call waits for comes last. -/
  aligned : ∃ k, x.inflight = x.pending.queue.map some ++ List.replicate k none
  /-- Frames are written in the order of registration. -/
  in_order : x.written ++ pushedIDs x.callers = List.range x.history.length
  length_eq : x.pending.reqs.length = x.history.length
  live : ∀ p ∈ x.pending.reqs, p.cancelled = false
  queue_lt : ∀ id ∈ x.pending.queue, id < x.pending.reqs.length
  queue_nodup : x.pending.queue.Nodup
  /-- A call has its response exactly when it has left the queue. -/
  resp_none_iff : ∀ id p, x.pending.reqs[id]? = some p → (p.resp = none ↔ id ∈ x.pending.queue)
  on_wire : ∀ it ∈ x.wire, ∀ id, it.call = some id →
    ∃ c, x.history[id]? = some c ∧ it.parsed = c.req.parse
  own_unread : ∀ f ∈ x.responses, ∀ id, f.call = some id → Own x.history id f.frame
  own_resp : ∀ id p f, x.pending.reqs[id]? = some p → p.resp = some f → Own x.history id f
  own_returned : ∀ r ∈ x.returned, r.1 ∉ x.pending.queue ∧
    ∃ c reply, x.history[r.1]? = some c ∧ c.reply = some reply ∧ r.2 = c.req.outcome reply
  one_unwritten : (pushedIDs x.callers).length ≤ 1
  waiting_lt : ∀ id, .waiting id ∈ x.callers → id < x.history.length

/-! ## Histories -/

section History

variable {history : List Call} {id : ℕ} {f : Frame}

variable {c : Call}

/-- A call keeps its number when others are added. -/
theorem getElem?_append_call (h : history[id]? = some c) (c' : Call) :
    (history ++ [c'])[id]? = some c := by
  rw [getElem?_append_left (List.getElem?_eq_some_iff.mp h).1]
  exact h

theorem Own.append (h : Own history id f) (c : Call) : Own (history ++ [c]) id f := by
  obtain ⟨c', reply, hc, hrest⟩ := h
  exact ⟨c', reply, getElem?_append_call hc c, hrest⟩

/-- The reply to another call changes nothing. -/
theorem getElem?_record_ne {call : Option ℕ} (h : call ≠ some id) (reply : Option Reply) :
    (record history call reply)[id]? = history[id]? := by
  match call, reply with
  | none, _ => rfl
  | some _, none => rfl
  | some id', some reply =>
    have hne : id' ≠ id := fun heq => h (congrArg some heq)
    unfold record
    rw [getElem?_modify]
    simp [hne]

theorem getElem?_record_self (h : history[id]? = some c) (reply : Reply) :
    (record history (some id) (some reply))[id]? = some { c with reply := some reply } := by
  unfold record
  rw [getElem?_modify, h]
  simp

theorem Own.record_ne (h : Own history id f) {call : Option ℕ} (hne : call ≠ some id)
    (reply : Option Reply) : Own (record history call reply) id f := by
  obtain ⟨c, r, hc, hrest⟩ := h
  exact ⟨c, r, by rw [getElem?_record_ne hne]; exact hc, hrest⟩

theorem length_record (call : Option ℕ) (reply : Option Reply) :
    (record history call reply).length = history.length := by
  unfold record
  split
  · rw [length_modify]
  · rfl

/-- A request keeps its place in the history. -/
theorem exists_req_record (h : history[id]? = some c) (call : Option ℕ) (reply : Option Reply) :
    ∃ c', (record history call reply)[id]? = some c' ∧ c'.req = c.req := by
  by_cases hne : call = some id
  · subst hne
    cases reply with
    | none => exact ⟨c, h, rfl⟩
    | some reply => exact ⟨_, getElem?_record_self h reply, rfl⟩
  · exact ⟨c, by rw [getElem?_record_ne hne]; exact h, rfl⟩

end History

/-! ## One step -/

namespace Exchange.Ok

variable {x : Exchange} {residue : Bytes → List (Except Bytes Command)}

theorem ids_inflight (h : x.Ok) : x.inflight.filterMap id = x.pending.queue := by
  obtain ⟨k, hk⟩ := h.aligned
  rw [hk, filterMap_append, filterMap_map]
  simp

/-- A call that has its response has left the queue. -/
theorem notMem_queue (h : x.Ok) {id : ℕ} {p : PendingReq} {f : Frame}
    (hp : x.pending.reqs[id]? = some p) (hf : p.resp = some f) : id ∉ x.pending.queue := by
  intro hmem
  have hnone := (h.resp_none_iff id p hp).mpr hmem
  rw [hf] at hnone
  cases hnone

variable {i : ℕ} {c : Call} {f : Sent} {it : Item} {rest : List Item}

theorem call (h : x.Ok) {req : Request} (hi : x.callers[i]? = some .idle)
    (hpushed : pushedIDs x.callers = []) (hnone : none ∉ x.inflight) :
    Ok { x with
      history := x.history ++ [⟨req, none⟩]
      pending := x.pending.push
      callers := x.callers.set i (.pushed x.pending.reqs.length) } := by
  have hnew : pushedIDs (x.callers.set i (.pushed x.pending.reqs.length)) =
      [x.pending.reqs.length] := by
    rw [pushedIDs_split hi] at hpushed
    obtain ⟨hpre, hpost⟩ := append_eq_nil_iff.mp hpushed
    rw [pushedIDs_set hi, hpre, (append_eq_nil_iff.mp hpost).2]
    rfl
  have hold : ∀ id ∈ x.pending.queue, id ≠ x.pending.reqs.length := fun id hid =>
    (h.queue_lt id hid).ne
  refine ⟨⟨0, ?_⟩, ?_, ?_, ?_, ?_, ?_, ?_, ?_, ?_, ?_, ?_, (congrArg List.length hnew).le, ?_⟩
  · -- With no surplus in flight the new call comes last on both sides.
    obtain ⟨k, hk⟩ := h.aligned
    have hzero : k = 0 := by
      by_contra hpos
      exact hnone (hk ▸ mem_append_right _ (mem_replicate.mpr ⟨hpos, rfl⟩))
    subst hzero
    unfold Exchange.inflight at hk ⊢
    rw [hpushed] at hk
    dsimp only [Pending.push]
    rw [hnew]
    simp only [map_nil, append_nil, replicate_zero] at hk ⊢
    rw [hk, map_append]
  · have horder := h.in_order
    rw [hpushed, append_nil] at horder
    rw [hnew, horder, h.length_eq, length_append, length_singleton, range_succ]
  · dsimp only [Pending.push]
    rw [length_append, length_append, h.length_eq]
    rfl
  · intro p hp
    obtain ⟨id, hid⟩ := getElem?_of_mem hp
    rcases Pending.getElem?_push hid with hid | ⟨-, rfl⟩
    · exact h.live p (mem_of_getElem? hid)
    · rfl
  · intro id hid
    dsimp only [Pending.push] at hid ⊢
    rw [length_append, length_singleton]
    rcases mem_append.mp hid with hid | hid
    · exact (h.queue_lt id hid).trans (Nat.lt_succ_self _)
    · rw [mem_singleton.mp hid]
      exact Nat.lt_succ_self _
  · refine nodup_append.mpr ⟨h.queue_nodup, nodup_singleton _, ?_⟩
    intro id hid id' hid'
    rw [mem_singleton.mp hid']
    exact hold id hid
  · intro id p hp
    rw [Pending.push, mem_append, mem_singleton]
    rcases Pending.getElem?_push hp with hp | ⟨rfl, rfl⟩
    · have hlt := (List.getElem?_eq_some_iff.mp hp).1
      rw [h.resp_none_iff id p hp, or_iff_left hlt.ne]
    · exact ⟨fun _ => .inr rfl, fun _ => rfl⟩
  · intro it hit id hid
    obtain ⟨c, hc, hparse⟩ := h.on_wire it hit id hid
    exact ⟨c, getElem?_append_call hc _, hparse⟩
  · exact fun f hf id hid => (h.own_unread f hf id hid).append _
  · intro id p f hp hf
    rcases Pending.getElem?_push hp with hp | ⟨-, rfl⟩
    · exact (h.own_resp id p f hp hf).append _
    · cases hf
  · intro r hr
    obtain ⟨hnot, c, reply, hc, hrest⟩ := h.own_returned r hr
    refine ⟨fun hmem => ?_, c, reply, getElem?_append_call hc _, hrest⟩
    rcases mem_append.mp hmem with hmem | hmem
    · exact hnot hmem
    · have hlt := (List.getElem?_eq_some_iff.mp hc).1
      rw [mem_singleton.mp hmem, h.length_eq] at hlt
      exact lt_irrefl _ hlt
  · intro id hid
    rw [length_append]
    rcases mem_or_eq_of_mem_set hid with hid | hid
    · exact (h.waiting_lt id hid).trans (Nat.lt_succ_self _)
    · cases hid

theorem pushedIDs_ret {callers : List Phase} {id : ℕ} (hi : callers[i]? = some (.waiting id)) :
    pushedIDs (callers.set i .idle) = pushedIDs callers := by
  rw [pushedIDs_set hi, pushedIDs_split hi]
  rfl

/-- A frame that is written moves from the callers to the wire, with what the parser leaves of it
behind. -/
theorem tags_items (residue : Bytes → List (Except Bytes Command)) (id : ℕ) (req : Request) :
    ∃ k, ((items residue id req).filter Item.answered).map Item.call =
      some id :: List.replicate k none := by
  have hanswered : (⟨req.parse, some id⟩ : Item).answered = true := by
    unfold Item.answered
    split
    next hparse => exact absurd hparse req.parse_ne_traceparent
    · rfl
  refine ⟨((((req.leftover.map residue).getD []).map fun p => (⟨p, none⟩ : Item)).filter
    Item.answered).length, ?_⟩
  unfold items
  rw [filter_append, filter_cons_of_pos hanswered]
  have htrace : ((if req.traced then [(⟨.ok .traceparent, none⟩ : Item)] else []).filter
      Item.answered) = [] := by
    split <;> rfl
  rw [htrace, nil_append, map_cons]
  congr 1
  refine eq_replicate_iff.mpr ⟨length_map _, fun t ht => ?_⟩
  obtain ⟨it, hit, rfl⟩ := List.mem_map.mp ht
  obtain ⟨p, -, rfl⟩ := List.mem_map.mp (mem_of_mem_filter hit)
  rfl

/-- A call writes its frame. -/
theorem write (h : x.Ok) {id : ℕ} (hi : x.callers[i]? = some (.pushed id))
    (hc : x.history[id]? = some c) :
    Ok { x with
      callers := x.callers.set i (.waiting id)
      wire := x.wire ++ items residue id c.req
      written := x.written ++ [id] } := by
  -- It is the only one that has yet to write.
  have hsplit := pushedIDs_split hi
  have hnew := pushedIDs_set hi (.waiting id)
  have hone := h.one_unwritten
  rw [hsplit, length_append, length_append] at hone
  dsimp only [Phase.pushedID, Option.toList] at hsplit hnew hone
  rw [length_singleton] at hone
  have hpre : pushedIDs (x.callers.take i) = [] := eq_nil_of_length_eq_zero (by omega)
  have hpost : pushedIDs (x.callers.drop (i + 1)) = [] := eq_nil_of_length_eq_zero (by omega)
  rw [hpre, hpost] at hsplit hnew
  simp only [nil_append, append_nil] at hsplit hnew
  refine ⟨?_, ?_, h.length_eq, h.live, h.queue_lt, h.queue_nodup, h.resp_none_iff, ?_,
    h.own_unread, h.own_resp, h.own_returned, ?_, ?_⟩
  · obtain ⟨k, hk⟩ := h.aligned
    obtain ⟨j, hj⟩ := tags_items residue id c.req
    refine ⟨k + j, ?_⟩
    unfold Exchange.inflight at hk ⊢
    rw [hsplit] at hk
    rw [hnew, filter_append, map_append, hj, ← replicate_append_replicate,
      ← append_assoc (List.map some x.pending.queue), ← hk]
    simp
  · have horder := h.in_order
    rw [hsplit] at horder
    rw [hnew, append_nil]
    exact horder
  · intro it hit id' hid'
    rcases mem_append.mp hit with hit | hit
    · exact h.on_wire it hit id' hid'
    · -- Of what is new on the wire, only the request itself is a call's.
      rcases mem_append.mp hit with hit | hit
      · split at hit
        · rw [mem_singleton.mp hit] at hid'
          cases hid'
        · cases hit
      · rcases mem_cons.mp hit with rfl | hit
        · obtain rfl := Option.some.inj hid'
          exact ⟨c, hc, rfl⟩
        · obtain ⟨p, -, rfl⟩ := List.mem_map.mp hit
          cases hid'
  · rw [hnew]
    exact Nat.zero_le 1
  · intro id' hid'
    rcases mem_or_eq_of_mem_set hid' with hid' | hid'
    · exact h.waiting_lt id' hid'
    · cases hid'
      exact (List.getElem?_eq_some_iff.mp hc).1

/-- A call takes its response and returns. -/
theorem ret (h : x.Ok) {id : ℕ} {f : Frame} (hi : x.callers[i]? = some (.waiting id))
    (hc : x.history[id]? = some c) (hf : x.pending.reqs[id]?.bind PendingReq.resp = some f) :
    Ok { x with
      callers := x.callers.set i .idle
      returned := x.returned ++ [(id, c.req.resolve f)] } := by
  obtain ⟨p, hp, hpf⟩ := Option.bind_eq_some_iff.mp hf
  obtain ⟨c', reply, hc', hreply, hanswers, rfl⟩ := h.own_resp id p f hp hpf
  obtain rfl := Option.some.inj (hc.symm.trans hc')
  have hnot := h.notMem_queue hp hpf
  refine ⟨?_, ?_, h.length_eq, h.live, h.queue_lt, h.queue_nodup, h.resp_none_iff, h.on_wire,
    h.own_unread, h.own_resp, ?_, pushedIDs_ret hi ▸ h.one_unwritten, ?_⟩
  · unfold Exchange.inflight
    rw [pushedIDs_ret hi]
    exact h.aligned
  · rw [pushedIDs_ret hi]
    exact h.in_order
  · intro r hr
    rcases mem_append.mp hr with hr | hr
    · exact h.own_returned r hr
    · rw [mem_singleton.mp hr]
      exact ⟨hnot, c, reply, hc, hreply, Request.resolve_frame hanswers⟩
  · intro id' hid'
    rcases mem_or_eq_of_mem_set hid' with hid' | hid'
    · exact h.waiting_lt id' hid'
    · cases hid'

theorem inflight_of_responses {rest : List Sent} (hresp : x.responses = f :: rest) :
    x.inflight = f.call :: ({ x with responses := rest } : Exchange).inflight := by
  unfold Exchange.inflight
  rw [hresp]
  rfl

theorem discard (h : x.Ok) {rest : List Sent} (hresp : x.responses = f :: rest)
    (hq : x.pending.queue = []) : Ok { x with responses := rest } := by
  refine ⟨?_, h.in_order, h.length_eq, h.live, h.queue_lt, h.queue_nodup, h.resp_none_iff,
    h.on_wire, fun g hg => h.own_unread g (hresp ▸ mem_cons_of_mem f hg), h.own_resp,
    h.own_returned, h.one_unwritten, h.waiting_lt⟩
  obtain ⟨k, hk⟩ := h.aligned
  rw [inflight_of_responses hresp, hq, map_nil, nil_append] at hk
  rw [hq, map_nil]
  cases k with
  | zero => cases hk
  | succ k =>
    rw [replicate_succ] at hk
    exact ⟨k, (List.cons.inj hk).2⟩

theorem handOver (h : x.Ok) {rest : List Sent} {head : ℕ} {queue : List ℕ}
    (hresp : x.responses = f :: rest) (hq : x.pending.queue = head :: queue) :
    Ok { x with
      pending := ⟨x.pending.reqs.modify head fun p => { p with resp := some f.frame }, queue⟩
      responses := rest } := by
  obtain ⟨k, hk⟩ := h.aligned
  rw [inflight_of_responses hresp, hq, map_cons, cons_append] at hk
  obtain ⟨hcall, htail⟩ := List.cons.inj hk
  have hown := h.own_unread f (hresp ▸ mem_cons_self) head hcall
  have hnodup := h.queue_nodup
  rw [hq] at hnodup
  have hheadnot : head ∉ queue := (nodup_cons.mp hnodup).1
  -- The call at the head gets the frame, the others keep what they have.
  have hget : ∀ id p, (x.pending.reqs.modify head
      fun p => { p with resp := some f.frame })[id]? = some p →
        ∃ q, x.pending.reqs[id]? = some q ∧
          p = if id = head then { q with resp := some f.frame } else q := by
    intro id p hp
    rw [getElem?_modify] at hp
    obtain ⟨q, hq', rfl⟩ := Option.map_eq_some_iff.mp hp
    refine ⟨q, hq', ?_⟩
    by_cases hid : id = head
    · simp [hid]
    · rw [if_neg hid, if_neg (Ne.symm hid)]
  refine ⟨⟨k, htail⟩, h.in_order, ?_, ?_, ?_, (nodup_cons.mp hnodup).2, ?_, h.on_wire,
    fun g hg => h.own_unread g (hresp ▸ mem_cons_of_mem f hg), ?_, ?_, h.one_unwritten,
    h.waiting_lt⟩
  · rw [length_modify]
    exact h.length_eq
  · intro p hp
    obtain ⟨id, hid⟩ := getElem?_of_mem hp
    obtain ⟨q, hq', rfl⟩ := hget id p hid
    have hlive := h.live q (mem_of_getElem? hq')
    split_ifs <;> exact hlive
  · intro id hid
    rw [length_modify]
    exact h.queue_lt id (hq ▸ mem_cons_of_mem head hid)
  · intro id p hp
    obtain ⟨q, hq', rfl⟩ := hget id p hp
    have hiff := h.resp_none_iff id q hq'
    rw [hq, mem_cons] at hiff
    split_ifs with hid
    · subst hid
      exact ⟨fun hnone => (nomatch hnone), fun hmem => absurd hmem hheadnot⟩
    · rw [hiff, or_iff_right hid]
  · intro id p g hp hg
    obtain ⟨q, hq', rfl⟩ := hget id p hp
    split_ifs at hg with hid
    · obtain rfl := Option.some.inj hg
      rw [hid]
      exact hown
    · exact h.own_resp id q g hq' hg
  · intro r hr
    obtain ⟨hnot, hrest⟩ := h.own_returned r hr
    rw [hq] at hnot
    exact ⟨fun hmem => hnot (mem_cons_of_mem head hmem), hrest⟩

theorem deliver (h : x.Ok) {rest : List Sent} (hresp : x.responses = f :: rest) :
    Ok { x with pending := x.pending.deliver f.frame, responses := rest } := by
  cases hq : x.pending.queue with
  | nil =>
    have hsame : x.pending.deliver f.frame = x.pending := by
      unfold Pending.deliver
      rw [hq, deliverTo, ← hq]
    rw [hsame]
    exact h.discard hresp hq
  | cons head =>
    have hlt : head < x.pending.reqs.length := h.queue_lt head (hq ▸ mem_cons_self)
    rw [Pending.deliver_cons hq (getElem?_eq_getElem hlt) (h.live _ (getElem_mem hlt))]
    exact h.handOver hresp hq

/-- The session answers all but trace lines. -/
theorem answered_iff {β ς : Type} (calls : Calls β ς) (session : Session β ς) (it : Item) :
    it.answered = true ↔ (session.handleParsed calls it.parsed).2 ≠ none := by
  unfold Item.answered
  cases it.parsed with
  | error => simp [Session.handleParsed]
  | ok cmd => cases cmd <;> simp [Session.handleParsed, Session.handleCommand]

/-- The session reads a trace line. -/
theorem serveNone (h : x.Ok) (hwire : x.wire = it :: rest) (hanswered : it.answered = false) :
    Ok { x with wire := rest } := by
  refine ⟨?_, h.in_order, h.length_eq, h.live, h.queue_lt, h.queue_nodup, h.resp_none_iff,
    fun it' hit' => h.on_wire it' (hwire ▸ mem_cons_of_mem it hit'), h.own_unread, h.own_resp,
    h.own_returned, h.one_unwritten, h.waiting_lt⟩
  have haligned := h.aligned
  unfold Exchange.inflight at haligned ⊢
  rw [hwire, filter_cons_of_neg (by rw [hanswered]; exact Bool.false_ne_true)] at haligned
  exact haligned

/-- The request that the session reads next, among what is in flight. -/
theorem inflight_of_wire (hwire : x.wire = it :: rest) (hanswered : it.answered = true) :
    x.inflight = x.responses.map Sent.call ++ it.call ::
      ((rest.filter Item.answered).map Item.call ++ (pushedIDs x.callers).map some) := by
  unfold Exchange.inflight
  rw [hwire, filter_cons_of_pos hanswered, map_cons, append_assoc,
    cons_append]

theorem queued (h : x.Ok) (hwire : x.wire = it :: rest) (hanswered : it.answered = true) {id : ℕ}
    (hid : it.call = some id) : id ∈ x.pending.queue ∧ ∀ f ∈ x.responses, f.call ≠ some id := by
  have hids := h.ids_inflight
  rw [inflight_of_wire hwire hanswered, hid, filterMap_append] at hids
  refine ⟨hids ▸ by simp, fun f hf hcall => ?_⟩
  have hnodup := h.queue_nodup
  rw [← hids] at hnodup
  refine (nodup_append.mp hnodup).2.2 id ?_ id (by simp) rfl
  rw [filterMap_map]
  exact mem_filterMap.mpr ⟨f, hf, hcall⟩

/-- The frame of a reply takes the place of the request. A surplus frame is harmless when nothing
that a call waits for comes after it. -/
theorem aligned_serve (h : x.Ok) {reply : Reply} (hwire : x.wire = it :: rest)
    (hanswered : it.answered = true) (hsurplus : reply.surplus ≠ [] →
      ∀ t ∈ (rest.filter Item.answered).map Item.call ++ (pushedIDs x.callers).map some,
        t = none) :
    ∃ k, ({ x with
        history := record x.history it.call (some reply)
        wire := rest
        responses := x.responses ++ sentFrames it.call (some reply) } : Exchange).inflight =
      x.pending.queue.map some ++ List.replicate k none := by
  have hinflight := inflight_of_wire hwire hanswered
  generalize hbehind : (rest.filter Item.answered).map Item.call ++
    (pushedIDs x.callers).map some = behind at hsurplus hinflight
  obtain ⟨k, hk⟩ := h.aligned
  refine ⟨k + reply.surplus.length, ?_⟩
  have hnew : ({ x with
      history := record x.history it.call (some reply)
      wire := rest
      responses := x.responses ++ sentFrames it.call (some reply) } : Exchange).inflight =
      x.responses.map Sent.call ++
        it.call :: (List.replicate reply.surplus.length none ++ behind) := by
    unfold Exchange.inflight sentFrames
    rw [append_assoc, hbehind]
    simp only [map_append, map_cons, List.map_map, Function.comp_def, map_const',
      append_assoc, cons_append]
  -- Either there is no surplus, or it joins others like it.
  have hswap : List.replicate reply.surplus.length none ++ behind =
      behind ++ List.replicate reply.surplus.length none := by
    by_cases hnil : reply.surplus = []
    · rw [hnil, length_nil, replicate_zero, nil_append, append_nil]
    · rw [eq_replicate_iff.mpr ⟨rfl, hsurplus hnil⟩, replicate_append_replicate,
        replicate_append_replicate, Nat.add_comm]
  rw [hnew, hswap, ← replicate_append_replicate]
  calc x.responses.map Sent.call ++
        it.call :: (behind ++ List.replicate reply.surplus.length none)
      = (x.responses.map Sent.call ++ it.call :: behind) ++
          List.replicate reply.surplus.length none := by
        rw [append_assoc, cons_append]
    _ = x.pending.queue.map some ++
          (List.replicate k none ++ List.replicate reply.surplus.length none) := by
        rw [← hinflight, hk, append_assoc]

/-- The session replies. -/
theorem serveSome (h : x.Ok) {reply : Reply} (hwire : x.wire = it :: rest)
    (hanswered : it.answered = true)
    (hanswers : ∀ req : Request, it.parsed = req.parse → req.Answers reply)
    (hsurplus : reply.surplus ≠ [] →
      ∀ t ∈ (rest.filter Item.answered).map Item.call ++ (pushedIDs x.callers).map some,
        t = none) :
    Ok { x with
      history := record x.history it.call (some reply)
      wire := rest
      responses := x.responses ++ sentFrames it.call (some reply) } := by
  -- The reply changes no call that has a frame in flight or has left the queue.
  have hfresh : ∀ f ∈ x.responses, ∀ id, f.call = some id → it.call ≠ some id :=
    fun f hf id hid hcall => (h.queued hwire hanswered hcall).2 f hf hid
  have hdone : ∀ id, id ∉ x.pending.queue → it.call ≠ some id := fun id hid hcall =>
    hid (h.queued hwire hanswered hcall).1
  refine ⟨h.aligned_serve hwire hanswered hsurplus, ?_, ?_, h.live, h.queue_lt, h.queue_nodup,
    h.resp_none_iff, ?_, ?_, ?_, ?_, h.one_unwritten,
    fun id hid => (h.waiting_lt id hid).trans_eq (length_record _ _).symm⟩
  · rw [length_record]
    exact h.in_order
  · rw [length_record]
    exact h.length_eq
  · intro it' hit' id hid
    obtain ⟨c, hc, hparse⟩ := h.on_wire it' (hwire ▸ mem_cons_of_mem it hit') id hid
    obtain ⟨c', hc', hreq⟩ := exists_req_record hc it.call (some reply)
    exact ⟨c', hc', hreq ▸ hparse⟩
  · intro f hf id hid
    rcases mem_append.mp hf with hf | hf
    · exact (h.own_unread f hf id hid).record_ne (hfresh f hf id hid) _
    · rcases mem_cons.mp hf with rfl | hf
      · -- The frame of the reply, for the call whose request was on the wire.
        obtain ⟨c, hc, hparse⟩ := h.on_wire it (hwire ▸ mem_cons_self) id hid
        dsimp only at hid ⊢
        rw [hid]
        exact ⟨_, reply, getElem?_record_self hc reply, rfl, hanswers c.req hparse, rfl⟩
      · obtain ⟨g, -, rfl⟩ := List.mem_map.mp hf
        cases hid
  · intro id p f hp hf
    exact (h.own_resp id p f hp hf).record_ne (hdone id (h.notMem_queue hp hf)) _
  · intro r hr
    obtain ⟨hnot, c, reply', hc, hrest⟩ := h.own_returned r hr
    refine ⟨hnot, c, reply', ?_, hrest⟩
    rw [getElem?_record_ne (hdone r.1 hnot)]
    exact hc

/-- Every step preserves the pairing when calls begin with nothing unwritten and no surplus in
flight, and a surplus frame has nothing behind it that a call waits for. -/
theorem step {mayCall : Request → Prop} {mayServe : Reply → Prop} {x' : Exchange} (h : x.Ok)
    (hstep : x.Step residue mayCall mayServe x')
    (hcall : ∀ req, mayCall req → pushedIDs x.callers = [] ∧ none ∉ x.inflight)
    (hserve : ∀ it rest reply, x.wire = it :: rest → it.answered = true → mayServe reply →
      reply.surplus ≠ [] →
        ∀ t ∈ (rest.filter Item.answered).map Item.call ++ (pushedIDs x.callers).map some,
          t = none) : x'.Ok := by
  cases hstep with
  | stay => exact h
  | call hmay hi => exact h.call hi (hcall _ hmay).1 (hcall _ hmay).2
  | write hi hc => exact h.write hi hc
  | ret hi hc hf => exact h.ret hi hc hf
  | deliver hresp => exact h.deliver hresp
  | @serve it rest reply hwire hreply hmay =>
    obtain ⟨β, ς, calls, session, rfl⟩ := hreply
    cases hr : (session.handleParsed calls it.parsed).2 with
    | none =>
      have hanswered : it.answered = false := by
        rw [← Bool.not_eq_true, answered_iff calls session, not_ne_iff]
        exact hr
      have hrecord : record x.history it.call none = x.history := by
        unfold record
        split <;> first | rfl | contradiction
      have hnone := h.serveNone hwire hanswered
      rw [hrecord, sentFrames, append_nil]
      exact hnone
    | some reply =>
      have hanswered : it.answered = true := by
        rw [answered_iff calls session, hr]
        exact Option.some_ne_none reply
      refine h.serveSome hwire hanswered (fun req hreq => ?_)
        (hserve it rest reply hwire hanswered (hmay reply hr))
      obtain ⟨reply', hreply', hanswers⟩ := exists_reply calls session req
      rw [← hreq, hr] at hreply'
      exact Option.some.inj hreply' ▸ hanswers

end Exchange.Ok

/-- A new connection. -/
theorem ok_new {β : Type} (ς : Type) (n : ℕ) (broker : β) :
    (Conn.new ς n broker).exchange.Ok := by
  have hpushed : pushedIDs (List.replicate n Phase.idle) = [] := by
    exact filterMap_eq_nil_iff.mpr fun ph hph => by rw [eq_of_mem_replicate hph]; rfl
  refine ⟨⟨0, ?_⟩, ?_, rfl, ?_, ?_, nodup_nil, ?_, ?_, ?_, ?_, ?_, ?_, ?_⟩
  · dsimp only [Conn.exchange, Conn.new, Exchange.inflight]
    rw [hpushed]
    rfl
  · dsimp only [Conn.exchange, Conn.new]
    rw [hpushed]
    rfl
  · intro p hp
    cases hp
  · intro id hid
    cases hid
  · exact fun id p hp => by simp [Conn.exchange, Conn.new] at hp
  · intro it hit
    cases hit
  · intro f hf
    cases hf
  · exact fun id p f hp => by simp [Conn.exchange, Conn.new] at hp
  · intro r hr
    cases hr
  · dsimp only [Conn.exchange, Conn.new]
    rw [hpushed]
    exact Nat.zero_le 1
  · intro id hid
    cases eq_of_mem_replicate hid

end ToyMQ.Client
