import Ircd.FanOut
import Ircd.TopicBurst
import Mathlib.Data.List.TakeWhile

/-!
TOPIC and MODE for channels: `m_topic` and `m_mode`.

A server without the channel says so, unless it is a lazy leaf, where the channel may still be
on the uplink. There both handlers ask the uplink, and write the name of the channel into the
line from the channel that they have not found (`lazy_request_not_forwarded`).

No other request uses a channel that is not there (`mTopic_fault_iff`, `mMode_fault_iff`).
-/

namespace Ircd

/-- A channel with its topic. -/
structure TalkChannel extends Channel where
  topic : Option Topic
  topicTime : Int
  deriving DecidableEq

/-- What `m_topic` and `m_mode` read of a server; `hashFindChannel` is asked with the name in
upper case. -/
structure RequestServer where
  me : Cid
  dir : Directory
  lim : TopicLimits
  hub : Bool
  hideServers : Bool
  uplink : Option Cid
  caps : Cid → Nat
  isFloodDone : Cid → Bool
  channels : CStr → Option TalkChannel

/-- The numerics that the handlers reply with, and their arguments. -/
inductive RequestReply where
  | needMoreParams (command : CStr)
  | noSuchChannel (name : CStr)
  | badChanName (name : CStr)
  | notOnChannel (name : CStr)
  | chanOpPrivsNeeded (chname : CStr)
  | noTopic (chname : CStr)
  | topic (chname topic : CStr)
  | topicWhoTime (chname who : CStr) (topicTime : Int)
  | channelModeIs (chname modebuf parabuf : CStr)
  | creationTime (chname : CStr) (channelts : Int)
  deriving DecidableEq

/-- What the handlers do, in order. -/
inductive RequestAct where
  | sendtoOne (sender dest : CStr) (reply : RequestReply)
  | sendtoUplink (line : CStr)
  | sendtoServer (one : Cid) (caps nocaps : Nat) (line : CStr)
  | sendtoChannelLocal (line : CStr)
  | floodEndgrace
  | setChannelTopic (chptr : TalkChannel)
  | setUserMode (parv : List CStr)
  | setChannelMode (chptr : TalkChannel) (member : Option Membership) (parv : List CStr)
  deriving DecidableEq

/-- The use of a channel that is not there. -/
inductive Fault where
  | nullChannel
  deriving DecidableEq

/-- A field of `chptr` is about to be read. -/
def deref (chptr : Option TalkChannel) : Except Fault TalkChannel :=
  chptr.elim (.error .nullChannel) .ok

/-- `":%s TOPIC %s %s"` and `":%s MODE %s %s"`. -/
def requestLine (sender command chname text : CStr) : CStr :=
  ':' :: sender ++ ' ' :: command ++ ' ' :: (chname ++ ' ' :: text)

/-- `":%s TOPIC %s :%s"`. -/
def topicLine (sender chname topic : CStr) : CStr :=
  requestLine sender "TOPIC".toList chname (':' :: topic)

/-- `"%s!%s@%s"`. -/
def Client.fullMask (x : Client) : CStr := x.name ++ '!' :: x.username ++ '@' :: x.host

/-- The part of a parameter in front of a comma. -/
def cutAtComma (s : CStr) : CStr := s.takeWhile (· != ',')

/-- `chptr->topic == NULL ? "" : chptr->topic`. -/
def TalkChannel.topicText (chptr : TalkChannel) : CStr :=
  chptr.topic.elim [] Topic.topic

/-- `set_channel_topic` on a channel with its members. -/
def TalkChannel.setTopic (lim : TopicLimits) (chptr : TalkChannel) (topic topicInfo : CStr)
    (topicts : Int) : TalkChannel :=
  let set := Ircd.setChannelTopic lim ⟨chptr.chname, chptr.topic, chptr.topicTime⟩ topic topicInfo
    topicts
  { chptr with topic := set.topic, topicTime := set.topicTime }

namespace RequestServer

variable (s : RequestServer) (client source : Cid) (now : Int)

/-- `hash_find_channel`. -/
def hashFindChannel (name : CStr) : Option TalkChannel := s.channels (name.map toUpper)

/-- `ID_or_name`. -/
def idOrName (who link : Cid) : CStr :=
  if s.caps link &&& CAP_TS6 ≠ 0 && (s.dir.clients who).hasID then (s.dir.clients who).id
  else (s.dir.clients who).name

/-- `from` and `to` of `m_topic`. -/
def topicNames : CStr × CStr :=
  if !(s.dir.clients source).myClient &&
      (s.caps (s.dir.clients source).from &&& CAP_TS6 ≠ 0 && (s.dir.clients source).hasID) then
    ((s.dir.clients s.me).id, (s.dir.clients source).id)
  else ((s.dir.clients s.me).name, (s.dir.clients source).name)

/-- The uplink, if `!ServerInfo.hub && uplink && IsCapable(uplink, CAP_LL)`. -/
def lazyUplink : Option Cid :=
  if s.hub then none else s.uplink.filter fun link => s.caps link &&& CAP_LL ≠ 0

/-- The request to the uplink, with the name in `chptr`. -/
def sendRequest (uplink : Cid) (command : CStr) (chptr : Option TalkChannel) (text : CStr) :
    Except Fault (List RequestAct) :=
  (deref chptr).map fun chptr =>
    [.sendtoUplink (sendFormat (requestLine (s.idOrName source uplink) command chptr.chname text))]

/-- `flood_endgrace` of a local client whose grace period has not ended. -/
def endGrace : List RequestAct :=
  if (s.dir.clients source).myClient && !s.isFloodDone source then [.floodEndgrace] else []

/-! ### TOPIC -/

/-- The part of `m_topic` that sets a topic. -/
def setTopic (chptr : TalkChannel) (name topic : CStr) : List RequestAct :=
  match findChannelLink s.dir.clients source chptr.toChannel with
  | none => [.sendtoOne (s.topicNames source).1 (s.topicNames source).2 (.notOnChannel name)]
  | some ms =>
    if .topiclimit ∉ chptr.mode.mode ∨ .chanop ∈ ms.flags ∨ .halfop ∈ ms.flags then
      let who := s.dir.clients source
      let chptr' := chptr.setTopic s.lim topic (who.fullMask) now
      [.setChannelTopic chptr',
        .sendtoServer client CAP_TS6 0 (topicLine who.ID chptr.chname chptr'.topicText),
        .sendtoServer client 0 CAP_TS6 (topicLine who.name chptr.chname chptr'.topicText),
        .sendtoChannelLocal (topicLine who.fullMask chptr.chname chptr'.topicText)]
    else
      [.sendtoOne (s.topicNames source).1 (s.topicNames source).2 (.chanOpPrivsNeeded chptr.chname)]

/-- The part of `m_topic` that shows a topic. -/
def showTopic (chptr : TalkChannel) : List RequestAct :=
  let reply := RequestAct.sendtoOne (s.topicNames source).1 (s.topicNames source).2
  if .secret ∉ chptr.mode.mode ∨
      (findChannelLink s.dir.clients source chptr.toChannel).isSome then
    match chptr.topic with
    | none => [reply (.noTopic chptr.chname)]
    | some topic =>
      [reply (.topic chptr.chname topic.topic),
        -- a lazy leaf has set the topic itself, for all that its clients are to know
        reply (.topicWhoTime chptr.chname
          (if s.hideServers && !(s.dir.clients source).myClient &&
              (s.caps client &&& CAP_LL ≠ 0 && s.hub) then (s.dir.clients client).name
            else topic.topicInfo)
          chptr.topicTime)]
  else [reply (.notOnChannel chptr.chname)]

/-- `m_topic` behind the grace period; `more` is `parv + 2`. -/
def topicRequest (name : CStr) (more : List CStr) : Except Fault (List RequestAct) :=
  let noSuchChannel :=
    [.sendtoOne (s.topicNames source).1 (s.topicNames source).2 (.noSuchChannel name)]
  if isChanPrefix name then
    match s.hashFindChannel name with
    | none =>
      match s.lazyUplink with
      | some uplink => s.sendRequest source uplink "TOPIC".toList none (more.headD [])
      | none => .ok noSuchChannel
    | some chptr =>
      .ok (match more with
        | topic :: _ => s.setTopic client source now chptr name topic
        | [] => s.showTopic client source chptr)
  else .ok noSuchChannel

/-- `m_topic`. -/
def mTopic (parv1 : CStr) (more : List CStr) : Except Fault (List RequestAct) :=
  if cutAtComma parv1 = [] then
    .ok [.sendtoOne (s.topicNames source).1 (s.topicNames source).2
      (.needMoreParams "TOPIC".toList)]
  else
    (s.topicRequest client source now (cutAtComma parv1) more).map (s.endGrace source ++ ·)

/-! ### MODE -/

/-- The part of `m_mode` behind `hash_find_channel`, for a channel that is there. -/
def channelMode (chptr : TalkChannel) (more : List CStr) : List RequestAct :=
  let reply :=
    RequestAct.sendtoOne (s.dir.clients s.me).name (s.dir.clients source).name
  if more = [] then
    let modes := channelModes s.dir chptr.toChannel source
    [reply (.channelModeIs chptr.chname modes.1 modes.2),
      reply (.creationTime chptr.chname chptr.channelts)]
  else if (s.dir.clients source).isServer then [.setChannelMode chptr none more]
  else
    let member := findChannelLink s.dir.clients source chptr.toChannel
    if member.any fun ms => .deopped ∈ ms.flags then []
    else
      -- a look at the ban list does not end the grace period
      (if more = [['b']] then [] else s.endGrace source) ++ [.setChannelMode chptr member more]

/-- `m_mode`; `more` is `parv + 2`. -/
def mMode (parv1 : CStr) (more : List CStr) : Except Fault (List RequestAct) :=
  let reply := RequestAct.sendtoOne (s.dir.clients s.me).name (s.dir.clients source).name
  if parv1 = [] then .ok [reply (.needMoreParams "MODE".toList)]
  else if !isChanPrefix parv1 then .ok [.setUserMode (parv1 :: more)]
  else if !checkChannelName parv1 then .ok [reply (.badChanName parv1)]
  else
    match s.hashFindChannel parv1 with
    | none =>
      match if (s.dir.clients source).myClient then s.lazyUplink else none with
      | some uplink => s.sendRequest source uplink "MODE".toList none (more.headD [])
      | none =>
        .ok [.sendtoOne (s.idOrName s.me (s.dir.clients source).from)
          (s.idOrName source (s.dir.clients source).from) (.noSuchChannel parv1)]
    | some chptr => .ok (s.channelMode source chptr more)

/-! ### Which requests use a channel that is not there -/

variable {s client source now} {name parv1 : CStr} {more : List CStr}

theorem topicRequest_fault_iff :
    s.topicRequest client source now name more = .error .nullChannel ↔
      s.lazyUplink.isSome = true ∧ isChanPrefix name = true ∧ s.hashFindChannel name = none := by
  unfold topicRequest
  by_cases hchan : isChanPrefix name = true
  · rw [if_pos hchan]
    cases hfind : s.hashFindChannel name with
    | some chptr => exact iff_of_false (fun h => by cases h) fun h => by cases h.2.2
    | none =>
      cases hup : s.lazyUplink with
      | none => exact iff_of_false (fun h => by cases h) fun h => by cases h.1
      | some uplink => exact iff_of_true rfl ⟨rfl, hchan, rfl⟩
  · rw [if_neg hchan]
    exact iff_of_false (fun h => by cases h) fun h => hchan h.2.1

theorem mTopic_fault_iff : s.mTopic client source now parv1 more = .error .nullChannel ↔
    s.lazyUplink.isSome = true ∧ isChanPrefix (cutAtComma parv1) = true ∧
      s.hashFindChannel (cutAtComma parv1) = none := by
  rw [← @topicRequest_fault_iff s client source now (cutAtComma parv1) more]
  unfold mTopic
  by_cases hempty : cutAtComma parv1 = []
  · rw [if_pos hempty, hempty]
    exact iff_of_false (fun h => by cases h) fun h => by cases h
  · rw [if_neg hempty]
    cases s.topicRequest client source now (cutAtComma parv1) more with
    | ok acts => exact iff_of_false (fun h => by cases h) fun h => by cases h
    | error fault => simp [Except.map]

theorem mMode_fault_iff : s.mMode source parv1 more = .error .nullChannel ↔
    s.lazyUplink.isSome = true ∧ (s.dir.clients source).myClient = true ∧
      isChanPrefix parv1 = true ∧ checkChannelName parv1 = true ∧
      s.hashFindChannel parv1 = none := by
  unfold mMode
  by_cases hempty : parv1 = []
  · rw [if_pos hempty, hempty]
    exact iff_of_false (fun h => by cases h) fun h => by cases h.2.2.1
  by_cases hchan : isChanPrefix parv1 = true
  swap
  · rw [if_neg hempty, if_pos (by simpa using hchan)]
    exact iff_of_false (fun h => by cases h) fun h => hchan h.2.2.1
  by_cases hlegal : checkChannelName parv1 = true
  swap
  · rw [if_neg hempty, if_neg (by simpa using hchan), if_pos (by simpa using hlegal)]
    exact iff_of_false (fun h => by cases h) fun h => hlegal h.2.2.2.1
  rw [if_neg hempty, if_neg (by simpa using hchan), if_neg (by simpa using hlegal)]
  cases hfind : s.hashFindChannel parv1 with
  | some chptr => exact iff_of_false (fun h => by cases h) fun h => by cases h.2.2.2.2
  | none =>
    by_cases hlocal : (s.dir.clients source).myClient = true
    · rw [if_pos hlocal]
      cases hup : s.lazyUplink with
      | none => exact iff_of_false (fun h => by cases h) fun h => by cases h.1
      | some uplink => exact iff_of_true rfl ⟨rfl, hlocal, hchan, hlegal, rfl⟩
    · rw [if_neg hlocal]
      exact iff_of_false (fun h => by cases h) fun h => hlocal h.2.1

end RequestServer

/-! ### The requests of the clients of a lazy leaf -/

/-- A lazy leaf: no hub, and with an uplink that can do lazy links. -/
structure LeafServer extends RequestServer where
  link : Cid
  leaf : hub = false
  linked : uplink = some link
  lazy : caps link &&& CAP_LL ≠ 0

theorem LeafServer.lazyUplink_eq (s : LeafServer) : s.lazyUplink = some s.link := by
  rw [RequestServer.lazyUplink, s.leaf, s.linked]
  simpa using s.lazy

/-- The two commands. -/
inductive RequestCommand where
  | topic
  | mode
  deriving DecidableEq

def RequestCommand.text : RequestCommand → CStr
  | .topic => "TOPIC".toList
  | .mode => "MODE".toList

/-- The name of the channel in the first parameter. -/
def RequestCommand.chname : RequestCommand → CStr → CStr
  | .topic, parv1 => cutAtComma parv1
  | .mode, parv1 => parv1

/-- A line of a client of the server that names a channel which the server does not know. -/
structure UnknownRequest (s : RequestServer) where
  source : Cid
  command : RequestCommand
  parv1 : CStr
  more : List CStr
  here : (s.dir.clients source).myClient = true
  named : isChanPrefix (command.chname parv1) = true
  legal : command = .mode → checkChannelName parv1 = true
  unknown : s.hashFindChannel (command.chname parv1) = none

namespace UnknownRequest

variable {s : RequestServer}

def run (r : UnknownRequest s) (now : Int) : Except Fault (List RequestAct) :=
  match r.command with
  | .topic => s.mTopic r.source r.source now r.parv1 r.more
  | .mode => s.mMode r.source r.parv1 r.more

/-- No field of a missing channel is used, and the uplink gets a line with the same name and the
same parameters. -/
def Forwarded (r : UnknownRequest s) (now : Int) : Prop :=
  ∃ acts, r.run now = .ok acts ∧ ∃ line, .sendtoUplink line ∈ acts ∧ ∃ msg,
    parseLine line = some msg ∧ msg.command = r.command.text ∧
      msg.parv = r.command.chname r.parv1 :: r.more

theorem run_fault (r : UnknownRequest s) (now : Int) (hup : s.lazyUplink.isSome = true) :
    r.run now = .error .nullChannel := by
  obtain ⟨source, command, parv1, more, hhere, hnamed, hlegal, hunknown⟩ := r
  cases command with
  | topic => exact RequestServer.mTopic_fault_iff.mpr ⟨hup, hnamed, hunknown⟩
  | mode => exact RequestServer.mMode_fault_iff.mpr ⟨hup, hhere, hnamed, hlegal rfl, hunknown⟩

end UnknownRequest

/-- No request about an unknown channel is forwarded by a lazy leaf. -/
theorem lazy_request_not_forwarded (s : LeafServer) (r : UnknownRequest s.toRequestServer)
    (now : Int) : ¬r.Forwarded now := by
  rintro ⟨acts, hrun, -⟩
  rw [r.run_fault now (by rw [s.lazyUplink_eq]; rfl)] at hrun
  cases hrun

/-- A lazy leaf without channels, with one client and its uplink. -/
def emptyLeaf : LeafServer where
  me := 0
  dir :=
    { clients := fun x =>
        { (default : Client) with
          status := if x = 0 then .me else if x = 1 then .client else .server
          name := if x = 0 then "leaf.example".toList else if x = 1 then "nick".toList
            else "hub.example".toList
          localClient := some ⟨0, 0⟩ }
      hashFindId := fun _ => none
      findClient := fun _ => none
      findServer := fun _ => none
      getHistory := fun _ => none }
  lim := ⟨160, 9⟩
  hub := false
  hideServers := false
  uplink := some 2
  caps := fun _ => CAP_LL
  isFloodDone := fun _ => true
  channels := fun _ => none
  link := 2
  leaf := rfl
  linked := rfl
  lazy := by decide

/-- `TOPIC #lazy`, from its client. -/
def askTopic : UnknownRequest emptyLeaf.toRequestServer where
  source := 1
  command := .topic
  parv1 := "#lazy".toList
  more := []
  here := rfl
  named := rfl
  legal := fun h => by cases h
  unknown := rfl

theorem topic_of_unknown_faults :
    askTopic.run 0 = .error .nullChannel ∧ ¬askTopic.Forwarded 0 := by
  refine ⟨rfl, ?_⟩
  rintro ⟨acts, hrun, -⟩
  cases hrun

end Ircd
