import ToyMQ.Server.Parser

/-!
# The limits on what a client sends

A command passes four limits on its way to every replica. The parser has one for the length of a
line and one for the payload, the envelope of a raft entry has one for its whole, and the log has
one for a key and one for a record. An entry that cannot be decoded is fatal to the node that
applies it, so a command that the parser lets through has to stay below the limits behind it.

`Command.envelope` is what a command leads to, and `replicated_eq` that the leader proposes this or
refuses the command before. `commands_apply` is the result: the entry of every command that is read
from a stream decodes on every node, and the record of a publish fits the log and is read back.
-/

namespace ToyMQ.Server

open Lib Broker Replication

/-- The envelope of a command in a session whose topic is `currentTopic`, on a leader whose clock
shows `clock` and that routes a publish to the partition `routed`. -/
def Command.envelope (clock : UInt64) (routed : ℕ) (currentTopic : Bytes) :
    Command → Option Envelope
  | .pub c => some (publishEnvelope clock c routed)
  | .ack consumerID partition msgID =>
    some (settleEnvelope .ack currentTopic partition consumerID msgID)
  | .nack consumerID partition msgID =>
    some (settleEnvelope .nack currentTopic partition consumerID msgID)
  | .create topic partitions => some (createEnvelope topic partitions)
  | _ => none

variable {cmd : Command}

/-- A command is proposed as its envelope, or refused. -/
theorem replicated_eq {n n' : Node} {index : UInt64} {currentTopic : Bytes} {outcome : Outcome}
    (h : replicated n index currentTopic cmd = some (n', outcome)) :
    (∃ e, outcome = .error e) ∨
      ∃ m routed env, cmd.envelope m.clock routed currentTopic = some env ∧
        replicated n index currentTopic cmd = propose m index env := by
  cases cmd with
  | pub c =>
    rw [replicated] at h ⊢
    rcases hroute : localRoute n c.topic c.partition c.partitionSet c.routingKey with
      ⟨m, e | routed⟩
    · rw [hroute] at h
      cases h
      exact .inl ⟨e, rfl⟩
    · exact .inr ⟨m, routed, _, rfl, rfl⟩
  | ack | nack => exact .inr ⟨n, 0, _, rfl, rfl⟩
  | create =>
    rw [replicated] at h ⊢
    split_ifs at h ⊢
    · cases h
      exact .inl ⟨_, rfl⟩
    · exact .inr ⟨n, 0, _, rfl, rfl⟩
  | sub | pause | resume | traceparent | info => cases h

/-- The topic of a session: none at first, then that of a subscribe it has read. -/
def SessionTopic (quote : Bytes → Bytes) (topic : Bytes) : Prop :=
  topic = [] ∨ ∃ br rest c, readCommand quote defaultMaxPayload br = (.ok (.sub c), rest) ∧
    topic = c.topic

variable {topic : Bytes}

theorem SessionTopic.length_le {quote : Bytes → Bytes} (h : SessionTopic quote topic) :
    topic.length ≤ maxLineLength := by
  rcases h with rfl | ⟨br, rest, c, hread, rfl⟩
  · exact Nat.zero_le _
  · exact length_topic_of_readCommand hread

/-- The envelope of an admitted command fits an entry. -/
theorem sendable_envelope (hadm : Admitted cmd) (htopic : topic.length ≤ maxLineLength)
    {clock : UInt64} {routed : ℕ} {env : Envelope}
    (henv : cmd.envelope clock routed topic = some env) : env.Sendable := by
  cases cmd with
  | pub =>
    obtain ⟨hctopic, hkey, hpayload, -, -⟩ := hadm
    cases henv
    exact sendable_of_lengths (isInt32_int32 _) isInt32_zero hctopic hkey (Nat.zero_le _) hpayload
  | ack | nack =>
    cases henv
    exact sendable_of_lengths (isInt32_int32 _) isInt32_zero htopic (Nat.zero_le _) hadm.1
      (Nat.zero_le _)
  | create =>
    cases henv
    exact sendable_of_lengths isInt32_zero (isInt32_int32 _) hadm.1 (Nat.zero_le _) (Nat.zero_le _)
      (Nat.zero_le _)
  | sub | pause | resume | traceparent | info => cases henv

/-- For every stream that a session may receive: the entry of a command that is read from it is
decoded to the command's envelope, on whatever node applies it. What the leader does with the
command is to refuse it, or to propose that envelope. The record of a publish fits the log of any
partition, with any stamps, and is read back from its frame. -/
theorem commands_apply (crc : Bytes → UInt32) {quote : Bytes → Bytes} {br rest : Bytes}
    {cmd : Command} (h : readCommand quote defaultMaxPayload br = (.ok cmd, rest)) {topic : Bytes}
    (htopic : SessionTopic quote topic) :
    (∀ clock routed env, cmd.envelope clock routed topic = some env →
      decode (encode env) = .ok env) ∧
    (∀ n index n' outcome, replicated n index topic cmd = some (n', outcome) →
      (∃ e, outcome = .error e) ∨
        ∃ m routed env, cmd.envelope m.clock routed topic = some env ∧
          decode (encode env) = .ok env ∧ replicated n index topic cmd = propose m index env) ∧
    ∀ c, cmd = .pub c → ∀ (p : Partition) (tsNs visibleAtNs raftIndex : UInt64),
      ∃ bs,
        Wal.encode crc (p.nextRecord tsNs visibleAtNs raftIndex c.dedupeKey c.payload) = .ok bs ∧
        Wal.decode crc bs =
          .ok (p.nextRecord tsNs visibleAtNs raftIndex c.dedupeKey c.payload, bs.length) := by
  have hdecode : ∀ clock routed env, cmd.envelope clock routed topic = some env →
      decode (encode env) = .ok env := by
    intro clock routed env henv
    rcases admitted_of_readCommand h with hadm | ⟨c, rfl⟩ | rfl | rfl | rfl | rfl
    · exact decode_encode (sendable_envelope hadm htopic.length_le henv)
    all_goals cases henv
  refine ⟨hdecode, ?_, ?_⟩
  · intro n index n' outcome hrep
    rcases replicated_eq hrep with herr | ⟨m, routed, env, henv, heq⟩
    · exact .inl herr
    · exact .inr ⟨m, routed, env, henv, hdecode _ _ env henv, heq⟩
  · rintro c rfl p tsNs visibleAtNs raftIndex
    -- The key leaves room for the verb and the topic on its line, which the log's limit needs.
    have hkey := length_dedupeKey_of_readCommand h
    obtain ⟨-, hline, hpayload, -, -⟩ : Admitted (.pub c) := by
      rcases admitted_of_readCommand h with hadm | ⟨c', heq⟩ | heq | heq | heq | heq
      · exact hadm
      all_goals cases heq
    have hfits : Wal.Fits (p.nextRecord tsNs visibleAtNs raftIndex c.dedupeKey c.payload) := by
      refine (fits_nextRecord_iff p _ _ _ hline hpayload).mpr ?_
      unfold maxLineLength at hkey
      omega
    refine ⟨_, (Wal.encode_eq_ok_iff crc).mpr ⟨hfits, rfl⟩, ?_⟩
    have hread := Wal.decode_frame crc hfits []
    rwa [List.append_nil] at hread

/-- A publish with a key, as it is read from a stream. -/
def keyedPub : PubCommand :=
  { topic := ascii "a", dedupeKey := ascii "k", routingKey := [], partition := 0
    partitionSet := false, payload := ascii "x", delayMs := 0, waitReplicas := 0
    waitTimeoutMs := 0 }

theorem commands_apply_keyedPub :
    readCommand id defaultMaxPayload (ascii "PUB a k - 1\nx\n") = (.ok (.pub keyedPub), []) ∧
      decode (encode (publishEnvelope 5 keyedPub 0)) = .ok (publishEnvelope 5 keyedPub 0) := by
  have hread : readCommand id defaultMaxPayload (ascii "PUB a k - 1\nx\n") =
      (.ok (.pub keyedPub), []) := by decide +kernel
  exact ⟨hread, (commands_apply (fun _ => 0) hread (.inl rfl)).1 5 0 _ rfl⟩

end ToyMQ.Server
