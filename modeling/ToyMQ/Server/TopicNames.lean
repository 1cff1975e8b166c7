import ToyMQ.Broker.TopicDirs
import ToyMQ.Server.Parser

/-!
# The names of topics, on the wire and on disk

The parser takes any word for the name of a topic, and the broker uses the name as a path below its
data directory. `TopicName` is the set of the names that can occur: those that the parser produces,
and those of the dead-letter topics.

A name without a separator that is neither `.` nor `..` is one directory, and over such names the
partitions are stored apart and found again (`partitions_isolated`). The name `a/0` is the
directory of the first partition of a topic `a` with more than one: the two share one log
(`slash_shares_directory`).
-/

namespace ToyMQ.Server

open Lib Broker Option

/-! ## The names that occur -/

def Command.topic? : Command → Option Bytes
  | .pub c => some c.topic
  | .sub c => some c.topic
  | .create topic _ => some topic
  | _ => none

/-- A name that the parser produces, of some input. -/
def WireName (name : Bytes) : Prop :=
  ∃ quote maxPayload br cmd rest,
    readCommand quote maxPayload br = (.ok cmd, rest) ∧ cmd.topic? = some name

def TopicName (name : Bytes) : Prop :=
  WireName name ∨ ∃ topic, WireName topic ∧ name = topic ++ dlqSuffix

variable {name : Bytes}

/-- The parser produces no empty name. -/
theorem WireName.ne_nil (h : WireName name) : name ≠ [] := by
  obtain ⟨quote, maxPayload, br, cmd, rest, hread, htopic⟩ := h
  unfold readCommand at hread
  split at hread
  · cases hread
  next line rest' hline =>
    rcases parseCommandLine_cases hread with hpub | hparsed
    · obtain ⟨c, payloadLen, payload, hheader, -, rfl⟩ := of_parsePub hpub
      obtain ⟨_, _, _, _, _, _, t, -, ht, hname, -⟩ := of_parsePubHeader hheader
      cases htopic
      exact hname ▸ (of_parseTopicPartition ht).1
    · cases hparsed with
      | sub htok hname =>
        cases htopic
        exact hname ▸ (of_parseTopicPartition htok).1
      | create hword =>
        cases htopic
        exact ne_nil_of_mem_fields hword
      | ack | nack | pause | resume | traceparent | info => cases htopic

theorem TopicName.ne_nil (h : TopicName name) : name ≠ [] := by
  rcases h with hwire | ⟨topic, -, rfl⟩
  · exact hwire.ne_nil
  · exact List.append_ne_nil_of_right_ne_nil _ (by decide)

def OneElement (name : Bytes) : Prop := separator ∉ name ∧ name ≠ dot ∧ name ≠ dotDot

theorem TopicName.plain (h : TopicName name) (hone : OneElement name) : Plain name :=
  ⟨h.ne_nil, hone.1, hone.2.1, hone.2.2⟩

/-! ## Isolation -/

/-- In every run of a broker, restarts included, over topics whose names are one element of a path:
two partitions have distinct directories, neither of which has a file of the other's log or its
offsets in it or further below; both lie below `<dataDir>/topics`; and a broker that starts on the
disk opens both where they are. -/
theorem partitions_isolated {dataDir : Bytes} {config : Config} {as : List TopicEvent}
    {b : TopicDirs}
    (h : Run TopicDirs.step (fun _ a => ∀ name ∈ a.name?, TopicName name ∧ OneElement name)
      (.new dataDir config) as b)
    {topic topic' : Bytes} {i i' : ℕ} {p p' : Path} (hp : b.dir? topic i = some p)
    (hp' : b.dir? topic' i' = some p') (hne : (topic, i) ≠ (topic', i')) :
    p ≠ p' ∧
      (∀ index, ¬ p.AtOrAbove (walFile p' index) ∧ ¬ p'.AtOrAbove (walFile p index)) ∧
      (¬ p.AtOrAbove (offsetsFile p') ∧ ¬ p'.AtOrAbove (offsetsFile p)) ∧
      ((topicsDir dataDir).AtOrAbove p ∧ p ≠ topicsDir dataDir) ∧
      ((topicsDir dataDir).AtOrAbove p' ∧ p' ≠ topicsDir dataDir) ∧
      ∀ config', ∃ b', newBroker dataDir config' b.disk = .ok b' ∧
        b'.dir? topic i = some p ∧ b'.dir? topic' i' = some p' := by
  obtain ⟨rfl, counts, hlaid⟩ := laid_of_run
    (fun _ a ha name hname => (ha name hname).1.plain (ha name hname).2) h
  -- Nothing lies in both directories.
  have happart : ∀ q, p.AtOrAbove q → ¬ p'.AtOrAbove q := fun q habove habove' => by
    obtain ⟨htopic, hi⟩ := hlaid.eq_of_above hp hp' habove habove'
    exact hne (Prod.ext htopic hi)
  refine ⟨?_, ?_, ?_, hlaid.below_topicsDir hp, hlaid.below_topicsDir hp', ?_⟩
  · rintro rfl
    exact happart p (.refl p) (.refl p)
  · exact fun index => ⟨fun habove => happart _ habove (atOrAbove_walFile p' index),
      happart _ (atOrAbove_walFile p index)⟩
  · exact ⟨fun habove => happart _ habove (atOrAbove_offsetsFile p'),
      happart _ (atOrAbove_offsetsFile p)⟩
  · intro config'
    obtain ⟨b', hnew, hdir, hlaid'⟩ := hlaid.newBroker config'
    have hsame : ∀ name i, b'.dir? name i = b.dir? name i := fun name i => by
      rw [TopicDirs.dir?, TopicDirs.dir?, hlaid'.lookup_eq, hlaid.lookup_eq, hdir]
    exact ⟨b', hnew, (hsame topic i).trans hp, (hsame topic' i').trans hp'⟩

/-- A broker with one partition in a topic that is not created with another number. -/
def oneByDefault : Config := ⟨16, 1, 8, 3⟩

/-- A name that the parser is seen to produce. -/
theorem wireName_of_line (line : Bytes)
    (h : (readCommand id defaultMaxPayload line).1.toOption.bind Command.topic? = some name) :
    WireName name := by
  obtain ⟨cmd, hcmd, hname⟩ := bind_eq_some_iff.mp h
  exact ⟨id, defaultMaxPayload, line, cmd, _, Prod.ext (ok_of_toOption hcmd) rfl, hname⟩

/-- A topic with two partitions, a restart and a dead-letter topic. -/
def apartEvents : List TopicEvent :=
  [.createTopicLocal (ascii "a") 2, .restart oneByDefault, .getOrCreateTopic (ascii "a.dlq")]

theorem partitions_isolated_deadLetters :
    ∃ b p p', Run TopicDirs.step (fun _ a => ∀ name ∈ a.name?, TopicName name ∧ OneElement name)
        (.new (ascii "/data") oneByDefault) apartEvents b ∧
      p = ⟨true, [ascii "data", ascii "topics", ascii "a", ascii "1"]⟩ ∧
      p' = ⟨true, [ascii "data", ascii "topics", ascii "a.dlq"]⟩ ∧ p ≠ p' ∧
      ∀ config', ∃ b', newBroker (ascii "/data") config' b.disk = .ok b' ∧
        b'.dir? (ascii "a") 1 = some p ∧ b'.dir? (ascii "a.dlq") 0 = some p' := by
  obtain ⟨b, hb, hp, hp'⟩ : ∃ b, Run TopicDirs.step (fun _ a => a ∈ apartEvents)
      (.new (ascii "/data") oneByDefault) apartEvents b ∧
      b.dir? (ascii "a") 1 = some ⟨true, [ascii "data", ascii "topics", ascii "a", ascii "1"]⟩ ∧
      b.dir? (ascii "a.dlq") 0 = some ⟨true, [ascii "data", ascii "topics", ascii "a.dlq"]⟩ := by
    decide +kernel
  have hwire : WireName (ascii "a") :=
    wireName_of_line (ascii "CREATE a PARTITIONS 2\n") (by decide +kernel)
  have hrun : Run TopicDirs.step
      (fun _ a => ∀ name ∈ a.name?, TopicName name ∧ OneElement name)
      (.new (ascii "/data") oneByDefault) apartEvents b := by
    refine hb.mono fun _ a ha name hname => ?_
    simp only [apartEvents, List.mem_cons, List.not_mem_nil, or_false] at ha
    rcases ha with rfl | rfl | rfl
    · cases hname
      exact ⟨.inl hwire, by decide +kernel, by decide +kernel, by decide +kernel⟩
    · cases hname
    · cases hname
      exact ⟨.inr ⟨ascii "a", hwire, by decide +kernel⟩, by decide +kernel, by decide +kernel,
        by decide +kernel⟩
  have hapart := partitions_isolated hrun hp hp' (by decide +kernel)
  exact ⟨b, _, _, hrun, rfl, rfl, hapart.1, hapart.2.2.2.2.2⟩

/-- The two partitions of a topic `a`, a topic `a/0` and a topic `..`. -/
def sharedEvents : List TopicEvent :=
  [.createTopicLocal (ascii "a") 2, .getOrCreateTopic (ascii "a/0"), .getOrCreateTopic (ascii "..")]

/-- Over any names of topics, the first partition of `a` and the topic `a/0` have one directory,
which a restart opens for `a` alone, and the directory of `..` is the data directory itself. -/
theorem slash_shares_directory :
    ∃ b, Run TopicDirs.step (fun _ a => ∀ name ∈ a.name?, TopicName name)
        (.new (ascii "/data") oneByDefault) sharedEvents b ∧
      b.dir? (ascii "a") 0 = some ⟨true, [ascii "data", ascii "topics", ascii "a", ascii "0"]⟩ ∧
      b.dir? (ascii "a/0") 0 = b.dir? (ascii "a") 0 ∧
      b.dir? (ascii "..") 0 = some ⟨true, [ascii "data"]⟩ ∧
      ¬ (topicsDir (ascii "/data")).AtOrAbove ⟨true, [ascii "data"]⟩ ∧
      ∃ b', newBroker (ascii "/data") oneByDefault b.disk = .ok b' ∧
        b'.dir? (ascii "a") 0 = b.dir? (ascii "a") 0 ∧ b'.dir? (ascii "a/0") 0 = none := by
  obtain ⟨b, hb, hfirst, hslash, hparent, hscan⟩ :
      ∃ b, Run TopicDirs.step (fun _ a => a ∈ sharedEvents)
          (.new (ascii "/data") oneByDefault) sharedEvents b ∧
        b.dir? (ascii "a") 0 = some ⟨true, [ascii "data", ascii "topics", ascii "a", ascii "0"]⟩ ∧
        b.dir? (ascii "a/0") 0 = b.dir? (ascii "a") 0 ∧
        b.dir? (ascii "..") 0 = some ⟨true, [ascii "data"]⟩ ∧
        ∃ b', newBroker (ascii "/data") oneByDefault b.disk = .ok b' ∧
          b'.dir? (ascii "a") 0 = b.dir? (ascii "a") 0 ∧ b'.dir? (ascii "a/0") 0 = none := by
    decide +kernel
  refine ⟨b, hb.mono fun _ a ha name hname => ?_, hfirst, hslash, hparent, by decide +kernel, hscan⟩
  simp only [sharedEvents, List.mem_cons, List.not_mem_nil, or_false] at ha
  rcases ha with rfl | rfl | rfl
  · cases hname
    exact .inl (wireName_of_line (ascii "CREATE a PARTITIONS 2\n") (by decide +kernel))
  · cases hname
    exact .inl (wireName_of_line (ascii "PUB a/0 - - 1\nx\n") (by decide +kernel))
  · cases hname
    exact .inl (wireName_of_line (ascii "SUB .. c\n") (by decide +kernel))

end ToyMQ.Server
