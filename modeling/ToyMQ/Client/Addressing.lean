import ToyMQ.Client.RequestFrames
import ToyMQ.Server.TopicNames

/-!
# Addressing a created topic

The verbs read the word for a topic in two ways. A publish and a subscribe split it at the first
hash sign into a name and the number of a partition; a creation takes it whole. A topic that was
created under a name with a hash sign is thus out of reach: a publish or a subscribe to it is
refused, or goes to the topic with the name before the hash sign (`hash_topic_diverted`).

`created_addressable_iff` says that this is the only such case. The argument is that a name which a
publish or a subscribe yields never has a hash sign (`hash_notMem_topic`), and that a name without
one is read back from every word that is made of it (`parseTopicPartition_topicWord`).
-/

namespace ToyMQ.Client

open Lib Server

section

variable {quote : Bytes → Bytes} {maxPayload : ℕ}

/-! ## What the parsers make of a topic's word -/

variable {tok : Bytes} {t : TopicToken}

theorem hash_notMem_topic (h : parseTopicPartition quote tok = .ok t) : 35 ∉ t.topic := by
  unfold parseTopicPartition at h
  split at h
  next hnone =>
    split_ifs at h
    · cases h
    · cases h
      exact notMem_of_cut_eq_none hnone
  next base suffix hcut =>
    have hbase := notMem_of_cut hcut
    split_ifs at h
    · cases h
    · cases h
    · cases h
      exact hbase
    · split at h
      · split_ifs at h
        · cases h
        · cases h
          exact hbase
      · cases h

theorem parsePubHeader_of_topic (verb key routing : Bytes) {length : Bytes} {options : List Bytes}
    {o : PubOptions} {n : ℕ} (ho : parsePubOptions quote {} options = .ok o)
    (ht : parseTopicPartition quote tok = .ok t) (hstar : t.star = false)
    (hlength : parseUint length = .ok n) (hmax : n ≤ maxPayload) :
    ∃ c, parsePubHeader quote maxPayload (verb :: tok :: key :: routing :: length :: options) =
      .ok (c, n) ∧ c.topic = t.topic ∧ c.partition = t.partition := by
  unfold parsePubHeader
  dsimp only
  rw [ho, ht, hlength]
  simp only [Bind.bind, Except.bind, hstar, Bool.false_eq_true, if_false]
  rw [if_neg (Nat.not_lt.mpr hmax)]
  exact ⟨_, rfl, rfl, rfl⟩

/-- What may stand behind the topic of a publish: a rest of the line, and a body on the stream. -/
def ValidRest (quote : Bytes → Bytes) (maxPayload : ℕ) (rest br : Bytes) : Prop :=
  ∃ key routing length options o n payload,
    fields rest = key :: routing :: length :: options ∧ parsePubOptions quote {} options = .ok o ∧
    parseUint length = .ok n ∧ n ≤ maxPayload ∧ (readBody n br).1 = .ok payload

/-- The line of a publish, from the word for its topic and what follows. -/
def pubLine (tok rest : Bytes) : Bytes := ascii "PUB" ++ 32 :: (tok ++ 32 :: rest)

/-- The line of a subscribe. -/
def subLine (tok consumerID : Bytes) : Bytes := ascii "SUB" ++ 32 :: (tok ++ 32 :: consumerID)

/-- The verbs agree on the name of a topic: a publish with or without the number of a partition, and
a subscribe, go to the topic of this name, and the publish to the partition of this number. -/
structure Addressable (quote : Bytes → Bytes) (maxPayload : ℕ) (topic : Bytes) : Prop where
  pub : ∀ (partition : Option (Fin (2 ^ 63))) (rest br : Bytes),
    ValidRest quote maxPayload rest br →
    ∃ c, (parseCommandLine quote maxPayload (pubLine (topicWord topic partition) rest) br).1 =
        .ok (.pub c) ∧
      c.topic = topic ∧ ∀ n ∈ partition, c.partition = (n.val : ℤ)
  sub : ∀ consumerID br, IsToken consumerID →
    ∃ c, (parseCommandLine quote maxPayload (subLine topic consumerID) br).1 = .ok (.sub c) ∧
      c.topic = topic

variable {topic : Bytes}

/-- A publish to a name without a hash sign. -/
theorem pub_of_noHash {rest br : Bytes} (htopic : IsToken topic) (hhash : 35 ∉ topic)
    (partition : Option (Fin (2 ^ 63))) (hrest : ValidRest quote maxPayload rest br) :
    ∃ c, (parseCommandLine quote maxPayload (pubLine (topicWord topic partition) rest) br).1 =
        .ok (.pub c) ∧
      c.topic = topic ∧ ∀ n ∈ partition, c.partition = (n.val : ℤ) := by
  obtain ⟨key, routing, length, options, o, n, payload, hwords, ho, hlength, hmax, hbody⟩ := hrest
  have hfields : fields (pubLine (topicWord topic partition) rest) =
      ascii "PUB" :: topicWord topic partition :: key :: routing :: length :: options := by
    rw [pubLine, (isToken_of_mem_keywords _ (by simp [keywords])).fields_cons,
      (isToken_topicWord htopic partition).fields_cons, hwords]
  obtain ⟨c, hheader, hname, hpartition⟩ := parsePubHeader_of_topic (ascii "PUB") key routing ho
    (parseTopicPartition_topicWord htopic hhash partition) rfl hlength hmax
  refine ⟨{ c with payload := payload }, ?_, hname, fun m hm => ?_⟩
  · rw [parseCommandLine_pub hfields, hfields, parsePub, hheader]
    show Except.map _ (readBody n br).1 = _
    rw [hbody]
    rfl
  · rw [Option.mem_def.mp hm] at hpartition
    exact hpartition

/-- A subscribe is read from the words of its line. -/
theorem parseCommandLine_subLine {consumerID : Bytes} (htopic : IsToken topic)
    (hconsumer : IsToken consumerID) (br : Bytes) :
    parseCommandLine quote maxPayload (subLine topic consumerID) br =
      (parseSub quote [ascii "SUB", topic, consumerID], br) := by
  have hfields : fields (subLine topic consumerID) = [ascii "SUB", topic, consumerID] := by
    rw [subLine, (isToken_of_mem_keywords _ (by simp [keywords])).fields_cons, htopic.fields_cons,
      hconsumer.fields_eq]
  rw [parseCommandLine_verb (parseSub quote) (by simp [bodiless]) hfields, hfields]

/-- A name without a hash sign is addressable. -/
theorem addressable_of_noHash (htopic : IsToken topic) (hhash : 35 ∉ topic) :
    Addressable quote maxPayload topic := by
  refine ⟨fun partition rest br hrest => pub_of_noHash htopic hhash partition hrest,
    fun consumerID br hconsumer => ?_⟩
  have hparsed : parseSub quote [ascii "SUB", topic, consumerID] = _ :=
    parseSub_words (a := { topic, consumerID }) htopic hhash
  rw [parseCommandLine_subLine htopic hconsumer]
  exact ⟨_, hparsed, rfl⟩

/-- Every created topic whose name has no hash sign is addressable, and no other. For every command
line that `ParseCommandLine` reads as a creation: the frames of a publish to this name, with the
number of any partition or none and with any valid rest, and the line of a subscribe by any
consumer, are read as commands for the topic of this name exactly when there is no hash sign in
it. -/
theorem created_addressable_iff {line br rest topic : Bytes} {partitions : ℤ}
    (h : parseCommandLine quote maxPayload line br = (.ok (.create topic partitions), rest)) :
    Addressable quote maxPayload topic ↔ 35 ∉ topic := by
  have htopic : IsToken topic := by
    rcases parseCommandLine_cases h with hpub | hparsed
    · obtain ⟨_, _, _, -, -, heq⟩ := of_parsePub hpub
      cases heq
    · cases hparsed with
      | create hword => exact isToken_of_mem_fields hword
  refine ⟨fun haddr => ?_, addressable_of_noHash htopic⟩
  have hconsumer : IsToken (ascii "c") := by decide +kernel
  obtain ⟨c, hsub, hname⟩ := haddr.sub (ascii "c") [] hconsumer
  rw [parseCommandLine_subLine htopic hconsumer] at hsub
  have hparsed : parseSub quote [ascii "SUB", topic, ascii "c"] = .ok (.sub c) := hsub
  obtain ⟨tok, t, c', htok, hname', heq, -⟩ := of_parseSub hparsed
  cases heq
  rw [← hname, hname']
  exact hash_notMem_topic htok

end

/-- The theorem at a topic `orders`: a publish to its partition 7. -/
theorem created_addressable_iff_orders :
    parseCommandLine id 10 (ascii "CREATE orders PARTITIONS 8") [] =
        (.ok (.create (ascii "orders") 8), []) ∧
      Addressable id 10 (ascii "orders") ∧
      ValidRest id 10 (ascii "- k 2 DELAY 5") (ascii "hi\n") ∧
      ∃ c, (parseCommandLine id 10 (pubLine (topicWord (ascii "orders") (some 7))
          (ascii "- k 2 DELAY 5")) (ascii "hi\n")).1 = .ok (.pub c) ∧
        c.topic = ascii "orders" ∧ c.partition = 7 := by
  have hcreate : parseCommandLine id 10 (ascii "CREATE orders PARTITIONS 8") [] =
      (.ok (.create (ascii "orders") 8), []) := by decide +kernel
  have haddr : Addressable id 10 (ascii "orders") :=
    (created_addressable_iff hcreate).mpr (by decide +kernel)
  have hrest : ValidRest id 10 (ascii "- k 2 DELAY 5") (ascii "hi\n") :=
    ⟨ascii "-", ascii "k", ascii "2", [ascii "DELAY", ascii "5"], { delayMs := 5 }, 2, ascii "hi",
      by decide +kernel, by decide +kernel, by decide +kernel, by decide, by decide +kernel⟩
  obtain ⟨c, hpub, htopic, hpartition⟩ := haddr.pub (some 7) _ _ hrest
  exact ⟨hcreate, haddr, hrest, c, hpub, htopic, hpartition 7 rfl⟩

/-- A created topic is not addressable. `CREATE` takes `a#1` for the name of a topic; a publish and
a subscribe with this word go to the topic `a`, and a publish to a partition of it is refused. -/
theorem hash_topic_diverted :
    parseCommandLine id 10 (ascii "CREATE a#1 PARTITIONS 2") [] =
        (.ok (.create (ascii "a#1") 2), []) ∧
      (parseCommandLine id 10 (ascii "PUB a#1 - - 1") (ascii "x\n")).1.toOption.bind
        Command.topic? = some (ascii "a") ∧
      (parseCommandLine id 10 (ascii "PUB a#1#0 - - 1") (ascii "x\n")).1.toOption = none ∧
      (parseCommandLine id 10 (ascii "SUB a#1 c") []).1.toOption.bind Command.topic? =
        some (ascii "a") := by
  decide +kernel

end ToyMQ.Client
