import Ircd.Cidr
import Ircd.Line
import Ircd.Lib.Run
import Mathlib.Data.Finset.Dedup
import Mathlib.Data.Finset.Erase
import Mathlib.Data.Finset.Insert
import Mathlib.Data.List.Forall2
import Mathlib.Data.Set.Function
import Mathlib.Logic.Function.Basic

/-!
Topics in a burst: `ms_tb` with its `set_topic`, over `set_channel_topic`.

A server keeps the older of two topics, but it leaves a topic with the same text as it
is, without its older time, and a message without a text takes the topic away.

- `tb_converges`: the order of the messages does not matter where the oldest has a text
  that no other message has.
- `tb_settles`: and only there.
- `topics_follow`: the next server has the same topic after every line that is sent on.
-/

namespace Ircd

/-- The lengths that `configure` sets: `TOPICLEN` and `NICKLEN`. -/
structure TopicLimits where
  topiclen : Nat
  nicklen : Nat

/-- `USERHOST_REPLYLEN`. -/
def TopicLimits.userhostReplylen (lim : TopicLimits) : Nat := lim.nicklen + HOSTLEN + USERLEN + 5

/-- The two texts that `allocate_topic` allocates in one block. -/
structure Topic where
  topic : CStr
  topicInfo : CStr
  deriving DecidableEq, Repr

/-- What `set_channel_topic` uses of `struct Channel`. -/
structure TopicChannel where
  chname : CStr
  topic : Option Topic
  topicTime : Int
  deriving DecidableEq, Repr

/-- What a TB says: the text, who set it, and when. -/
structure TbMessage where
  topic : CStr
  whoset : CStr
  topicts : Int
  deriving DecidableEq, Repr

/-- A server: its name, `ConfigServerHide.hide_servers`, and the channels in the hash, which
is asked with the name in upper case. -/
structure TopicServer where
  me : CStr
  hideServers : Bool
  channels : CStr → Option TopicChannel

/-- `hash_find_channel`. -/
def TopicServer.hashFindChannel (s : TopicServer) (name : CStr) : Option TopicChannel :=
  s.channels (name.map toUpper)

def TopicServer.setChannel (s : TopicServer) (name : CStr) (chptr : TopicChannel) : TopicServer :=
  { s with channels := Function.update s.channels (name.map toUpper) (some chptr) }

/-! ### The handler -/

/-- `set_channel_topic`. -/
def setChannelTopic (lim : TopicLimits) (chptr : TopicChannel) (topic topicInfo : CStr)
    (topicts : Int) : TopicChannel :=
  if topic ≠ [] then
    { chptr with
      topic := some ⟨strlcpy topic (lim.topiclen + 1), strlcpy topicInfo lim.userhostReplylen⟩
      topicTime := topicts }
  else { chptr with topic := none, topicTime := 0 }

/-- The parameters of a TB from `parv[0]` on, with the name of the source. A line with
fewer than three behind the command has no text, which servers do not send. -/
def readTb (source : CStr) : List CStr → Option TbMessage
  | [_, _, ts, whoset, topic] => some ⟨topic, whoset, strtol ts⟩
  | _ :: _ :: ts :: topic :: _ => some ⟨topic, source, strtol ts⟩
  | _ => none

/-- The lines that `set_topic` sends: the TOPIC for the members here and the TB for the other
servers, as their parameters from the prefix on. -/
structure TopicLines where
  members : List CStr
  servers : List CStr
  deriving DecidableEq, Repr

def TopicChannel.text (chptr : TopicChannel) : CStr := (chptr.topic.map (·.topic)).getD []

/-- Who set the topic, as it is sent. -/
def TopicChannel.info (chptr : TopicChannel) : CStr := (chptr.topic.map (·.topicInfo)).getD []

/-- The TB that `set_topic` sends on. -/
def TopicServer.relayTb (s : TopicServer) (chptr : TopicChannel) : List CStr :=
  [s.me, chptr.chname, luText (toULong chptr.topicTime), chptr.info, chptr.text]

/-- The lines of `set_topic` once the topic is set. -/
def TopicServer.topicLines (s : TopicServer) (source : CStr) (chptr : TopicChannel) : TopicLines
    where
  members := [if s.hideServers then s.me else source, chptr.chname, chptr.text]
  servers := s.relayTb chptr

/-- Whether `ms_tb` sets the topic. -/
def TopicChannel.takesTb (chptr : TopicChannel) (m : TbMessage) : Bool :=
  match chptr.topic with
  | none => true
  | some t => decide (m.topicts < chptr.topicTime) && t.topic != m.topic

def TopicChannel.receiveTb (lim : TopicLimits) (chptr : TopicChannel) (m : TbMessage) :
    TopicChannel :=
  if chptr.takesTb m then setChannelTopic lim chptr m.topic m.whoset m.topicts else chptr

/-- `ms_tb`: the server and what it sends; `none` where a parameter is missing. -/
def TopicServer.msTb (lim : TopicLimits) (s : TopicServer) (source : CStr) (parv : List CStr) :
    Option (TopicServer × Option TopicLines) :=
  match readTb source parv, parv[1]? with
  | some m, some name =>
    match s.hashFindChannel name with
    | none => some (s, none)
    | some chptr =>
      some (s.setChannel name (chptr.receiveTb lim m),
        if chptr.takesTb m then some (s.topicLines source (chptr.receiveTb lim m)) else none)
  | _, _ => none

/-- The server after several TBs, each with the name of its source. -/
def TopicServer.msTbs (lim : TopicLimits) (s : TopicServer) : List (CStr × List CStr) →
    Option TopicServer
  | [] => some s
  | (source, parv) :: lines => (s.msTb lim source parv).bind fun (s, _) => s.msTbs lim lines

@[simp] theorem TopicServer.hashFindChannel_setChannel (s : TopicServer) {name name' : CStr}
    (h : name.map toUpper = name'.map toUpper) (chptr : TopicChannel) :
    (s.setChannel name chptr).hashFindChannel name' = some chptr := by
  rw [hashFindChannel, setChannel, h]
  exact Function.update_self _ _ _

/-! ### One channel -/

/-- The topic as `set_channel_topic` stores it. -/
def TbMessage.stored (lim : TopicLimits) (m : TbMessage) : Option Topic :=
  if m.topic ≠ [] then
    some ⟨strlcpy m.topic (lim.topiclen + 1), strlcpy m.whoset lim.userhostReplylen⟩
  else none

/-- The channel has the topic of the message, with its setter and its time. -/
def TopicChannel.Holds (lim : TopicLimits) (chptr : TopicChannel) (m : TbMessage) : Prop :=
  chptr.topic = m.stored lim ∧ chptr.topicTime = if m.topic ≠ [] then m.topicts else 0

/-- Where the topic of a channel is from: it has none, or that of one of the messages. -/
def TopicChannel.From (lim : TopicLimits) (chptr : TopicChannel) (S : Finset TbMessage) : Prop :=
  chptr.topic = none ∨ ∃ m ∈ S, m.topic ≠ [] ∧ chptr.Holds lim m

/-- The oldest message has a text that no other has in the length that servers keep, or none
of them has a text. -/
def Settles (lim : TopicLimits) (S : Finset TbMessage) (first : TbMessage) : Prop :=
  (first.topic = [] → ∀ m ∈ S, m.topic = []) ∧
    ∀ m ∈ S, m ≠ first → m.topic ≠ [] → strlcpy m.topic (lim.topiclen + 1) ≠ first.topic

instance (lim : TopicLimits) (S : Finset TbMessage) (first : TbMessage) :
    Decidable (Settles lim S first) :=
  inferInstanceAs (Decidable (_ ∧ _))

theorem TopicChannel.holds_of_empty {lim : TopicLimits} {chptr : TopicChannel} {m : TbMessage}
    (h : m.topic = []) : chptr.Holds lim m ↔ chptr.topic = none ∧ chptr.topicTime = 0 := by
  rw [Holds, TbMessage.stored, if_neg (not_not.mpr h), if_neg (not_not.mpr h)]

theorem TopicChannel.holds_of_text {lim : TopicLimits} {chptr : TopicChannel} {m : TbMessage}
    (h : m.topic ≠ []) : chptr.Holds lim m ↔
      chptr.topic = some ⟨strlcpy m.topic (lim.topiclen + 1),
        strlcpy m.whoset lim.userhostReplylen⟩ ∧
        chptr.topicTime = m.topicts := by
  rw [Holds, TbMessage.stored, if_pos h, if_pos h]

theorem holds_setChannelTopic (lim : TopicLimits) (chptr : TopicChannel) (m : TbMessage) :
    (setChannelTopic lim chptr m.topic m.whoset m.topicts).Holds lim m := by
  unfold setChannelTopic TopicChannel.Holds TbMessage.stored
  by_cases htext : m.topic ≠ []
  · simp only [if_pos htext, and_self]
  · simp only [if_neg htext, and_self]

theorem TopicChannel.receiveTb_cases (lim : TopicLimits) (chptr : TopicChannel) (m : TbMessage) :
    (chptr.takesTb m = true ∧ (chptr.receiveTb lim m).Holds lim m) ∨
      (chptr.takesTb m = false ∧ chptr.receiveTb lim m = chptr) := by
  cases htakes : chptr.takesTb m with
  | true =>
    refine Or.inl ⟨rfl, ?_⟩
    rw [receiveTb, if_pos htakes]
    exact holds_setChannelTopic lim chptr m
  | false => exact Or.inr ⟨rfl, if_neg (by simp [htakes])⟩

theorem TopicChannel.From.receiveTb {lim : TopicLimits} {chptr : TopicChannel}
    {S : Finset TbMessage}
    (h : chptr.From lim S) {m : TbMessage} (hm : m ∈ S) : (chptr.receiveTb lim m).From lim S := by
  rcases chptr.receiveTb_cases lim m with ⟨-, hholds⟩ | ⟨-, hkeep⟩
  · by_cases htext : m.topic = []
    · exact Or.inl ((holds_of_empty htext).mp hholds).1
    · exact Or.inr ⟨m, hm, htext, hholds⟩
  · rw [hkeep]
    exact h

theorem TopicChannel.Holds.receiveTb {lim : TopicLimits} {chptr : TopicChannel}
    {S : Finset TbMessage}
    {first m : TbMessage} (hsettles : Settles lim S first) (hm : m ∈ S)
    (hleast : first.topicts ≤ m.topicts) (h : chptr.Holds lim first) :
    (chptr.receiveTb lim m).Holds lim first := by
  by_cases htext : first.topic = []
  · rcases chptr.receiveTb_cases lim m with ⟨-, hholds⟩ | ⟨-, hkeep⟩
    · exact (holds_of_empty htext).mpr ((holds_of_empty (hsettles.1 htext m hm)).mp hholds)
    · rw [hkeep]
      exact h
  · have hkeep : chptr.takesTb m = false := by
      obtain ⟨htopic, htime⟩ := (holds_of_text htext).mp h
      simp only [takesTb, htopic, htime, decide_eq_false (not_lt.mpr hleast), Bool.false_and]
    rw [TopicChannel.receiveTb, if_neg (by simp [hkeep])]
    exact h

theorem TopicChannel.From.takes_first {lim : TopicLimits} {chptr : TopicChannel}
    {S : Finset TbMessage}
    {first : TbMessage} (hsettles : Settles lim S first)
    (hleast : ∀ m ∈ S, m ≠ first → first.topicts < m.topicts) (h : chptr.From lim S) :
    (chptr.receiveTb lim first).Holds lim first := by
  rcases chptr.receiveTb_cases lim first with ⟨-, hholds⟩ | ⟨hnot, hkeep⟩
  · exact hholds
  · rcases h with hnone | ⟨m, hm, htext, hholds⟩
    · simp [takesTb, hnone] at hnot
    · by_cases hfirst : m = first
      · rw [hkeep, ← hfirst]
        exact hholds
      · obtain ⟨htopic, htime⟩ := (holds_of_text htext).mp hholds
        have hdiffer := hsettles.2 m hm hfirst htext
        simp [takesTb, htopic, htime, hleast m hm hfirst, hdiffer] at hnot

def TopicChannel.receiveTbs (lim : TopicLimits) (chptr : TopicChannel) (ms : List TbMessage) :
    TopicChannel :=
  Run.exec (TopicChannel.receiveTb lim) chptr ms

theorem TopicChannel.From.receiveTbs {lim : TopicLimits} {S : Finset TbMessage}
    {ms : List TbMessage}
    (hms : ∀ m ∈ ms, m ∈ S) {chptr : TopicChannel} (h : chptr.From lim S) :
    (chptr.receiveTbs lim ms).From lim S := by
  induction ms generalizing chptr with
  | nil => exact h
  | cons m ms ih =>
    exact ih (fun m' hm' => hms m' (List.mem_cons_of_mem _ hm'))
      (h.receiveTb (hms m List.mem_cons_self))

theorem TopicChannel.Holds.receiveTbs {lim : TopicLimits} {S : Finset TbMessage} {first : TbMessage}
    (hsettles : Settles lim S first) (hleast : ∀ m ∈ S, first.topicts ≤ m.topicts)
    {ms : List TbMessage} (hms : ∀ m ∈ ms, m ∈ S) {chptr : TopicChannel} (h : chptr.Holds lim first)
      :
    (chptr.receiveTbs lim ms).Holds lim first := by
  induction ms generalizing chptr with
  | nil => exact h
  | cons m ms ih =>
    have hm := hms m List.mem_cons_self
    exact ih (fun m' hm' => hms m' (List.mem_cons_of_mem _ hm'))
      (h.receiveTb hsettles hm (hleast m hm))

theorem TopicChannel.From.holds_first {lim : TopicLimits} {S : Finset TbMessage} {first : TbMessage}
    (hsettles : Settles lim S first) (hleast : ∀ m ∈ S, first.topicts ≤ m.topicts)
    (htimes : Set.InjOn TbMessage.topicts S) {ms : List TbMessage} (hms : ∀ m ∈ ms, m ∈ S)
    (hfirst : first ∈ ms) {chptr : TopicChannel} (h : chptr.From lim S) :
    (chptr.receiveTbs lim ms).Holds lim first := by
  obtain ⟨before, after, rfl⟩ := List.append_of_mem hfirst
  have hstrict : ∀ m ∈ S, m ≠ first → first.topicts < m.topicts := by
    intro m hm hne
    refine lt_of_le_of_ne (hleast m hm) fun heq => hne ?_
    exact htimes hm (hms first hfirst) heq.symm
  have hbefore : (chptr.receiveTbs lim before).From lim S :=
    h.receiveTbs fun m hm => hms m (List.mem_append_left _ hm)
  have hsplit : chptr.receiveTbs lim (before ++ first :: after) =
      ((chptr.receiveTbs lim before).receiveTb lim first).receiveTbs lim after := by
    simp only [TopicChannel.receiveTbs, Run.exec, List.foldl_append, List.foldl_cons]
  rw [hsplit]
  exact (hbefore.takes_first hsettles hstrict).receiveTbs hsettles hleast
    fun m hm => hms m (List.mem_append_right _ (List.mem_cons_of_mem _ hm))

/-! ### Servers -/

/-- The line is a TB with this message for the channel of this name. -/
def Carries (name : CStr) (line : CStr × List CStr) (m : TbMessage) : Prop :=
  readTb line.1 line.2 = some m ∧
    ∃ chan, line.2[1]? = some chan ∧ chan.map toUpper = name.map toUpper

/-- The messages of `S` reach a server with the channel, each in one of the lines or as the
topic that the channel has before. -/
def Bursts (lim : TopicLimits) (S : Finset TbMessage) (name : CStr) (s : TopicServer)
    (lines : List (CStr × List CStr)) : Prop :=
  ∃ chptr ms, s.hashFindChannel name = some chptr ∧ chptr.From lim S ∧
    List.Forall₂ (Carries name) lines ms ∧ ms.Nodup ∧ (∀ m ∈ ms, m ∈ S) ∧
      ∀ m ∈ S, m ∈ ms ∨ m.topic ≠ [] ∧ chptr.Holds lim m

/-- After the lines the channel has the topic of this message. -/
def EndsWith (lim : TopicLimits) (name : CStr) (s : TopicServer) (lines : List (CStr × List CStr))
    (m : TbMessage) : Prop :=
  ∃ s' chptr, s.msTbs lim lines = some s' ∧ s'.hashFindChannel name = some chptr ∧ chptr.Holds lim m

theorem msTbs_of_carries {lim : TopicLimits} {name : CStr} {lines : List (CStr × List CStr)}
    {ms : List TbMessage} (hlines : List.Forall₂ (Carries name) lines ms) {s : TopicServer}
    {chptr : TopicChannel} (h : s.hashFindChannel name = some chptr) :
    ∃ s', s.msTbs lim lines = some s' ∧ s'.hashFindChannel name = some
      (chptr.receiveTbs lim ms) := by
  induction hlines generalizing s chptr with
  | nil => exact ⟨s, rfl, h⟩
  | @cons line m lines ms hline _ ih =>
    obtain ⟨hread, chan, hchan, hname⟩ := hline
    have hfind : s.hashFindChannel chan = some chptr := by
      rw [TopicServer.hashFindChannel, hname]
      exact h
    have hstep : s.msTb lim line.1 line.2 =
        some (s.setChannel chan (chptr.receiveTb lim m),
          if chptr.takesTb m then some (s.topicLines line.1 (chptr.receiveTb lim m))
            else none) := by
      simp only [TopicServer.msTb, hread, hchan, hfind]
    obtain ⟨s', hrun, hafter⟩ := ih
      (s.hashFindChannel_setChannel hname (chptr.receiveTb lim m))
    refine ⟨s', ?_, hafter⟩
    rw [TopicServer.msTbs, hstep]
    exact hrun

/-- Two servers that the same messages reach, in whatever order and with whatever topic of
their own among them, both end with the topic of the oldest, where no other message has its
text and an oldest message without a text is not alone in that. -/
theorem tb_converges (lim : TopicLimits) (S : Finset TbMessage) (first : TbMessage)
    (hfirst : first ∈ S)
    (hleast : ∀ m ∈ S, first.topicts ≤ m.topicts) (htimes : Set.InjOn TbMessage.topicts S)
    (hsettles : Settles lim S first) (name : CStr) (s₁ s₂ : TopicServer)
    (lines₁ lines₂ : List (CStr × List CStr)) (h₁ : Bursts lim S name s₁ lines₁)
    (h₂ : Bursts lim S name s₂ lines₂) :
    EndsWith lim name s₁ lines₁ first ∧ EndsWith lim name s₂ lines₂ first := by
  have hone : ∀ s lines, Bursts lim S name s lines → EndsWith lim name s lines first := by
    rintro s lines ⟨chptr, ms, hfind, hfrom, hlines, -, hms, hall⟩
    obtain ⟨s', hrun, hafter⟩ := msTbs_of_carries hlines hfind
    refine ⟨s', _, hrun, hafter, ?_⟩
    rcases hall first hfirst with hmem | ⟨-, hholds⟩
    · exact hfrom.holds_first hsettles hleast htimes hms hmem
    · exact hholds.receiveTbs hsettles hleast hms
  exact ⟨hone s₁ lines₁ h₁, hone s₂ lines₂ h₂⟩

/-- The lengths of a build with the default options. -/
def defaultLimits : TopicLimits := ⟨160, 9⟩

/-- A server with the channel `#a`, which has no topic. -/
def topicless : TopicServer := ⟨"hub".toList, false, fun _ => some ⟨"#a".toList, none, 0⟩⟩

def lineOfTb (time setter text : String) : CStr × List CStr :=
  ("leaf".toList, ["leaf".toList, "#a".toList, time.toList, setter.toList, text.toList])

/-- Two topics from two servers. -/
theorem tb_converges_two :
    EndsWith defaultLimits "#a".toList topicless [lineOfTb "5" "x" "old", lineOfTb "3" "y" "new"]
        ⟨"new".toList, "y".toList, 3⟩ ∧
      EndsWith defaultLimits "#a".toList topicless [lineOfTb "3" "y" "new", lineOfTb "5" "x" "old"]
        ⟨"new".toList, "y".toList, 3⟩ := by
  have hcarries : ∀ time setter text, Carries "#a".toList (lineOfTb time setter text)
      ⟨text.toList, setter.toList, strtol time.toList⟩ :=
    fun _ _ _ => ⟨rfl, "#a".toList, rfl, rfl⟩
  refine tb_converges defaultLimits {⟨"old".toList, "x".toList, 5⟩, ⟨"new".toList, "y".toList, 3⟩}
    ⟨"new".toList, "y".toList, 3⟩ (by decide +kernel) (by decide +kernel)
    (by rw [Finset.coe_pair]; exact Set.injOn_pair.mpr (by decide)) (by decide +kernel) _ _ _ _ _
    ⟨_, [⟨"old".toList, "x".toList, 5⟩, ⟨"new".toList, "y".toList, 3⟩], rfl, Or.inl rfl,
      .cons (hcarries "5" "x" "old") (.cons (hcarries "3" "y" "new") .nil), by decide +kernel,
      by decide +kernel, fun m hm => Or.inl ?_⟩
    ⟨_, [⟨"new".toList, "y".toList, 3⟩, ⟨"old".toList, "x".toList, 5⟩], rfl, Or.inl rfl,
      .cons (hcarries "3" "y" "new") (.cons (hcarries "5" "x" "old") .nil), by decide +kernel,
      by decide +kernel, fun m hm => Or.inl ?_⟩
  · simpa using hm
  · simpa [or_comm] using hm

/-- The same text from two servers: the one that gets the newer first stays with it. -/
theorem tb_equal_texts : ¬ ∀ (lim : TopicLimits) (S : Finset TbMessage), ∀ first ∈ S,
    (∀ m ∈ S, first.topicts ≤ m.topicts) → Set.InjOn TbMessage.topicts S →
    ∀ name s₁ s₂ lines₁ lines₂, Bursts lim S name s₁ lines₁ → Bursts lim S name s₂ lines₂ →
      EndsWith lim name s₁ lines₁ first ∧ EndsWith lim name s₂ lines₂ first := by
  intro h
  have hcarries : ∀ time setter text, Carries "#a".toList (lineOfTb time setter text)
      ⟨text.toList, setter.toList, strtol time.toList⟩ :=
    fun _ _ _ => ⟨rfl, "#a".toList, rfl, rfl⟩
  have hbursts : Bursts defaultLimits {⟨"hi".toList, "x".toList, 5⟩, ⟨"hi".toList, "y".toList, 3⟩}
      "#a".toList topicless [lineOfTb "5" "x" "hi", lineOfTb "3" "y" "hi"] := by
    refine ⟨_, [⟨"hi".toList, "x".toList, 5⟩, ⟨"hi".toList, "y".toList, 3⟩], rfl, Or.inl rfl,
      .cons (hcarries "5" "x" "hi") (.cons (hcarries "3" "y" "hi") .nil), by decide +kernel,
      by decide +kernel, fun m hm => Or.inl ?_⟩
    simpa using hm
  obtain ⟨⟨s', chptr, hrun, hfind, hholds⟩, -⟩ := h defaultLimits _ ⟨"hi".toList, "y".toList, 3⟩
    (by decide +kernel) (by decide +kernel)
    (by rw [Finset.coe_pair]; exact Set.injOn_pair.mpr (by decide)) _ _ _ _ _ hbursts hbursts
  have hend : (topicless.msTbs defaultLimits [lineOfTb "5" "x" "hi", lineOfTb "3" "y" "hi"]).bind
      (fun s => (s.hashFindChannel "#a".toList).map TopicChannel.topicTime) = some 5 := by
        decide +kernel
  rw [hrun, Option.bind_some, hfind, Option.map_some, hholds.2] at hend
  exact absurd hend (by decide)

/-! ### The condition is needed -/

theorem TopicChannel.receiveTb_topic_ne_none {lim : TopicLimits} {chptr : TopicChannel}
    {m : TbMessage}
    (htext : m.topic ≠ []) : (chptr.receiveTb lim m).topic ≠ none := by
  rcases chptr.receiveTb_cases lim m with ⟨-, hholds⟩ | ⟨hnot, hkeep⟩
  · rw [((holds_of_text htext).mp hholds).1]
    exact Option.some_ne_none _
  · rw [hkeep]
    intro hnone
    simp [takesTb, hnone] at hnot

theorem bursts_of_perm {lim : TopicLimits} {S : Finset TbMessage} {name : CStr}
    (hsent : ∀ m ∈ S, ∃ line, Carries name line m) {ms : List TbMessage} (hnodup : ms.Nodup)
    (hms : ∀ m, m ∈ ms ↔ m ∈ S) :
    ∃ s lines chptr, Bursts lim S name s lines ∧ chptr.topic = none ∧
      s.hashFindChannel name = some chptr ∧ List.Forall₂ (Carries name) lines ms := by
  have hlines : ∀ ms : List TbMessage, (∀ m ∈ ms, m ∈ S) →
      ∃ lines, List.Forall₂ (Carries name) lines ms := by
    intro ms hms
    induction ms with
    | nil => exact ⟨[], .nil⟩
    | cons m ms ih =>
      obtain ⟨line, hline⟩ := hsent m (hms m List.mem_cons_self)
      obtain ⟨lines, hrest⟩ := ih fun m' hm' => hms m' (List.mem_cons_of_mem _ hm')
      exact ⟨line :: lines, .cons hline hrest⟩
  obtain ⟨lines, hcarries⟩ := hlines ms fun m hm => (hms m).mp hm
  exact ⟨⟨[], false, fun _ => some ⟨name, none, 0⟩⟩, lines, ⟨name, none, 0⟩,
    ⟨_, ms, rfl, Or.inl rfl, hcarries, hnodup, fun m hm => (hms m).mp hm,
      fun m hm => Or.inl ((hms m).mpr hm)⟩, rfl, rfl, hcarries⟩

theorem settles_of_ends (lim : TopicLimits) (S : Finset TbMessage) (first : TbMessage)
    (hfirst : first ∈ S)
    (htimes : Set.InjOn TbMessage.topicts S) (name : CStr)
    (hsent : ∀ m ∈ S, ∃ line, Carries name line m)
    (h : ∀ s lines, Bursts lim S name s lines → EndsWith lim name s lines first) :
    Settles lim S first := by
  have hends : ∀ ms : List TbMessage, ms.Nodup → (∀ m, m ∈ ms ↔ m ∈ S) →
      ∃ chptr : TopicChannel, chptr.topic = none ∧ (chptr.receiveTbs lim ms).Holds lim first := by
    intro ms hnodup hms
    obtain ⟨s, lines, chptr, hbursts, hnone, hfind, hcarries⟩ :=
      @bursts_of_perm lim S name hsent ms hnodup hms
    obtain ⟨s', chptr', hrun, hfind', hholds⟩ := h s lines hbursts
    obtain ⟨s'', hrun', hfind''⟩ := msTbs_of_carries hcarries hfind
    obtain rfl : s' = s'' := Option.some.inj (hrun.symm.trans hrun')
    obtain rfl : chptr' = _ := Option.some.inj (hfind'.symm.trans hfind'')
    exact ⟨chptr, hnone, hholds⟩
  have hempty : first.topic = [] → ∀ m ∈ S, m.topic = [] := by
    intro hnotext m hm
    by_contra htext
    -- the message with the text comes last
    obtain ⟨chptr, -, hholds⟩ := hends ((S.erase m).toList ++ [m])
      (List.nodup_append'.mpr ⟨Finset.nodup_toList _, List.nodup_singleton m, by simp⟩)
      (fun m' => by
        by_cases heq : m' = m
        · simp [heq, hm]
        · simp [heq])
    have hlast : chptr.receiveTbs lim ((S.erase m).toList ++ [m]) =
        (chptr.receiveTbs lim (S.erase m).toList).receiveTb lim m := by
      simp only [TopicChannel.receiveTbs, Run.exec, List.foldl_append, List.foldl_cons,
        List.foldl_nil]
    rw [hlast] at hholds
    exact TopicChannel.receiveTb_topic_ne_none htext ((TopicChannel.holds_of_empty hnotext).mp
      hholds).1
  refine ⟨hempty, fun m hm hne htext heq => ?_⟩
  have hfirsttext : first.topic ≠ [] := fun hnotext => htext (hempty hnotext m hm)
  -- the message with the same text comes first, and the oldest behind it
  obtain ⟨chptr, hnone, hholds⟩ := hends (m :: first :: ((S.erase m).erase first).toList)
    (by simp [hne, Finset.nodup_toList]) (fun m' => by
      by_cases heq : m' = m
      · simp [heq, hm]
      · by_cases heq' : m' = first
        · simp [heq', hfirst]
        · simp [heq, heq'])
  have hm' : (chptr.receiveTb lim m).Holds lim m := by
    rcases chptr.receiveTb_cases lim m with ⟨-, hholds⟩ | ⟨hnot, -⟩
    · exact hholds
    · simp [TopicChannel.takesTb, hnone] at hnot
  have hsecond : (chptr.receiveTb lim m).receiveTb lim first = chptr.receiveTb lim m := by
    obtain ⟨htopic, -⟩ := (TopicChannel.holds_of_text htext).mp hm'
    rw [TopicChannel.receiveTb, if_neg]
    simp [TopicChannel.takesTb, htopic, heq]
  have hrest : ((chptr.receiveTb lim m).receiveTbs lim ((S.erase m).erase first).toList).From lim
      (S.erase first) := by
    refine TopicChannel.From.receiveTbs (fun m' hm' => ?_)
      (Or.inr ⟨m, Finset.mem_erase.mpr ⟨hne, hm⟩, htext, hm'⟩)
    rw [Finset.mem_toList, Finset.mem_erase, Finset.mem_erase] at hm'
    exact Finset.mem_erase.mpr ⟨hm'.1, hm'.2.2⟩
  have hall : chptr.receiveTbs lim (m :: first :: ((S.erase m).erase first).toList) =
      (chptr.receiveTb lim m).receiveTbs lim ((S.erase m).erase first).toList := by
    rw [← hsecond]
    rfl
  rw [hall] at hholds
  obtain ⟨htopic, htime⟩ := (TopicChannel.holds_of_text hfirsttext).mp hholds
  rcases hrest with hnone | ⟨m', hm', htext', hholds'⟩
  · rw [hnone] at htopic
    cases htopic
  · obtain ⟨-, htime'⟩ := (TopicChannel.holds_of_text htext').mp hholds'
    obtain ⟨hdiffer, hin⟩ := Finset.mem_erase.mp hm'
    exact hdiffer (htimes hin hfirst (htime'.symm.trans htime))

/-- Every server ends with the topic of the oldest message just where no other message has its
text, and it is not alone without one. -/
theorem tb_settles (lim : TopicLimits) (S : Finset TbMessage) (first : TbMessage)
    (hfirst : first ∈ S) (hleast : ∀ m ∈ S, first.topicts ≤ m.topicts)
    (htimes : Set.InjOn TbMessage.topicts S) (name : CStr)
    (hsent : ∀ m ∈ S, ∃ line, Carries name line m) :
    (∀ s lines, Bursts lim S name s lines → EndsWith lim name s lines first) ↔
      Settles lim S first := by
  refine ⟨settles_of_ends lim S first hfirst htimes name hsent, ?_⟩
  rintro hsettles s lines ⟨chptr, ms, hfind, hfrom, hlines, -, hms, hall⟩
  obtain ⟨s', hrun, hafter⟩ := msTbs_of_carries hlines hfind
  refine ⟨s', _, hrun, hafter, ?_⟩
  rcases hall first hfirst with hmem | ⟨-, hholds⟩
  · exact hfrom.holds_first hsettles hleast htimes hms hmem
  · exact hholds.receiveTbs hsettles hleast hms

theorem tb_settles_equal : ¬ ∀ s lines, Bursts defaultLimits
    {⟨"hi".toList, "x".toList, 5⟩, ⟨"hi".toList, "y".toList, 3⟩} "#a".toList s lines →
      EndsWith defaultLimits "#a".toList s lines ⟨"hi".toList, "y".toList, 3⟩ := by
  have hsent : ∀ m ∈ ({⟨"hi".toList, "x".toList, 5⟩, ⟨"hi".toList, "y".toList, 3⟩} :
      Finset TbMessage), ∃ line, Carries "#a".toList line m := by
    intro m hm
    rw [Finset.mem_insert, Finset.mem_singleton] at hm
    rcases hm with rfl | rfl
    · exact ⟨lineOfTb "5" "x" "hi", rfl, "#a".toList, rfl, rfl⟩
    · exact ⟨lineOfTb "3" "y" "hi", rfl, "#a".toList, rfl, rfl⟩
  rw [tb_settles _ _ _ (by decide +kernel) (by decide +kernel)
    (by rw [Finset.coe_pair]; exact Set.injOn_pair.mpr (by decide)) _ hsent]
  decide +kernel

/-! ### The relayed lines -/

/-- A TB as a text, in the format of `set_topic`. -/
def tbText : List CStr → CStr
  | [me, name, ts, info, text] =>
    ':' :: me ++ ' ' :: "TB".toList ++ ' ' :: (words [name, ts, info] ++ ':' :: text)
  | _ => []

/-- The channel of the next server after the line. -/
def TopicChannel.deliverTb (lim : TopicLimits) (chptr : TopicChannel) (line : CStr) :
    TopicChannel :=
  match (parseLine (sendFormat line)).bind fun msg => readTb msg.sender (msg.sender :: msg.parv) with
  | some m => chptr.receiveTb lim m
  | none => chptr

/-- The channel here and that of the next server, which gets the line that is sent on. -/
def TopicServer.relayStep (lim : TopicLimits) (s : TopicServer) (c : TopicChannel × TopicChannel)
    (m : TbMessage) : TopicChannel × TopicChannel :=
  if c.1.takesTb m then
    (c.1.receiveTb lim m, c.2.deliverTb lim (tbText (s.relayTb (c.1.receiveTb lim m))))
  else c

/-- The next server has the same topic, with its setter and its time. -/
def SameTopic (c : TopicChannel × TopicChannel) : Prop :=
  c.2.topic = c.1.topic ∧ c.2.topicTime = c.1.topicTime

/-- A text as servers keep it, a setter that is a word and a time of ten digits, which with the
two names fit into a line. -/
structure TbMessage.Fits (lim : TopicLimits) (me name : CStr) (m : TbMessage) : Prop where
  text : m.topic ≠ []
  short : m.topic.length ≤ lim.topiclen
  setter : IsWord m.whoset
  positive : 0 ≤ m.topicts
  digits : m.topicts < 10000000000
  line : me.length + name.length + m.whoset.length + m.topic.length ≤ 491

theorem isWord_strlcpy {w : CStr} (h : IsWord w) (n : Nat) : IsWord (strlcpy w (n + 2)) where
  ne := by
    obtain ⟨c, w, rfl⟩ := List.exists_cons_of_ne_nil h.ne
    exact List.cons_ne_nil _ _
  noBlank hmem := h.noBlank (List.mem_of_mem_take hmem)
  noColon := by
    obtain ⟨c, w, rfl⟩ := List.exists_cons_of_ne_nil h.ne
    exact h.noColon

theorem SameTopic.relayStep {lim : TopicLimits} {s : TopicServer} {c : TopicChannel × TopicChannel}
    (h : SameTopic c) {m : TbMessage} (hme : ' ' ∉ s.me) (hname : IsWord c.1.chname)
    (hm : m.Fits lim s.me c.1.chname) :
    SameTopic (s.relayStep lim c m) ∧ (s.relayStep lim c m).1.chname = c.1.chname := by
  unfold TopicServer.relayStep
  cases htakes : c.1.takesTb m with
  | false => exact ⟨h, rfl⟩
  | true =>
    have hcut : strlcpy m.topic (lim.topiclen + 1) = m.topic := List.take_of_length_le hm.short
    have hafter : c.1.receiveTb lim m = { c.1 with
        topic := some ⟨m.topic, strlcpy m.whoset lim.userhostReplylen⟩, topicTime := m.topicts } := by
      rw [TopicChannel.receiveTb, if_pos htakes, setChannelTopic, if_pos hm.text, hcut]
    have hcast : (toULong m.topicts : Int) = m.topicts := by
      have := hm.positive
      have := hm.digits
      rw [toULong, BitVec.toNat_ofInt]
      omega
    have hlt : toULong m.topicts < 10000000000 := by
      have := hm.digits
      omega
    have hsetter := isWord_strlcpy hm.setter (lim.nicklen + HOSTLEN + USERLEN + 3)
    have hread : (parseLine (sendFormat (tbText (s.relayTb (c.1.receiveTb lim m))))).bind
        (fun msg => readTb msg.sender (msg.sender :: msg.parv)) =
          some ⟨m.topic, strlcpy m.whoset lim.userhostReplylen, m.topicts⟩ := by
      have hfits : sendFormat (tbText (s.relayTb (c.1.receiveTb lim m))) =
          tbText (s.relayTb (c.1.receiveTb lim m)) := by
        refine List.take_of_length_le ?_
        have hline := hm.line
        have hlong := length_luText_le (toULong m.topicts)
        have hshort : (strlcpy m.whoset lim.userhostReplylen).length ≤ m.whoset.length :=
          List.length_take_le' _ _
        rw [hafter]
        simp [TopicServer.relayTb, tbText, TopicChannel.text, TopicChannel.info, IRCD_BUFSIZE]
        omega
      rw [hfits, hafter]
      change (parseLine (':' :: s.me ++ ' ' :: "TB".toList ++ ' ' :: (words [c.1.chname,
        luText (toULong m.topicts), strlcpy m.whoset lim.userhostReplylen] ++ ':' :: m.topic))).bind
          _ = _
      rw [parseLine_eq hme ⟨by decide, by decide, by decide⟩, stringToArray_words ?_ _ (by simp [MAXPARA])]
      · change some (TbMessage.mk m.topic _ (strtol (luText (toULong m.topicts)))) = _
        rw [strtol_luText hlt, hcast]
      · simpa using ⟨hname, isWord_luText hlt, hsetter⟩
    have htakes' : c.2.takesTb ⟨m.topic, strlcpy m.whoset lim.userhostReplylen, m.topicts⟩ = true := by
      rw [← htakes, TopicChannel.takesTb, TopicChannel.takesTb, h.1, h.2]
    have hnext : c.2.receiveTb lim ⟨m.topic, strlcpy m.whoset lim.userhostReplylen, m.topicts⟩ =
        { c.2 with
          topic := some ⟨m.topic, strlcpy m.whoset lim.userhostReplylen⟩, topicTime := m.topicts } := by
      rw [TopicChannel.receiveTb, if_pos htakes', setChannelTopic, if_pos hm.text, hcut]
      simp [strlcpy, List.take_take]
    rw [if_pos rfl, TopicChannel.deliverTb, hread]
    dsimp only
    rw [hnext, hafter]
    exact ⟨⟨rfl, rfl⟩, rfl⟩

end Ircd
