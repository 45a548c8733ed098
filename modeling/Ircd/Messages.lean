import Ircd.AcceptLists
import Ircd.ChannelSend
import Ircd.Lib.Separate

/-!
PRIVMSG and NOTICE: `m_message` with `build_target_list`, `msg_channel`, `msg_channel_flags` and
`msg_client`.

`build_target_list` makes a table of the targets, and the text goes to all in the table after
that. What it does with one entry of the list does not depend on the others, but for an entry
such as `@#channel` of a channel where the source has no status: there it returns what it
returns for lists that a lazy leaf hands to its uplink, so no target gets the text, and the
line goes to the uplink if there is one (`served_apart_iff`).

A target is what an entry points to, as `duplicate_ptr` has it. `handle_special` is left out but
for its calls, as are the callbacks of modules.
-/

namespace Ircd

open Function List
open Separate

/-! ### Targets -/

/-- What a pointer in the table points to. -/
inductive Entity where
  | channel (ch : Nat)
  | client (c : Cid)
  deriving DecidableEq

/-- `struct entity`, of the three types that are used. -/
inductive MsgTarget where
  | channel (ch : Nat)
  | chanopsOnChannel (ch : Nat) (flags : Finset ChFlag)
  | client (c : Cid)
  deriving DecidableEq

/-- `targets[i].ptr`. -/
def MsgTarget.ptr : MsgTarget → Entity
  | .channel ch => .channel ch
  | .chanopsOnChannel ch _ => .channel ch
  | .client c => .client c

/-- `PRIVMSG` and `NOTICE`. -/
inductive MsgCommand where
  | privmsg
  | notice
  deriving DecidableEq

/-- `command`. -/
def MsgCommand.text : MsgCommand → CStr
  | .privmsg => "PRIVMSG".toList
  | .notice => "NOTICE".toList

/-- The numerics that the source gets, and their arguments. -/
inductive MsgReply where
  | noRecipient (command : CStr)
  | noTextToSend
  | noSuchNick (nick : CStr)
  | tooManyTargets (nick : CStr) (maxTargets : Int)
  | chanOpPrivsNeeded (name : CStr)
  | cannotSendToChan (chname : CStr)
  | away (name away : CStr)
  | targUmodeG (name : CStr)
  | targNotify (name : CStr)
  deriving DecidableEq

/-- The calls that send the text to a target: `sendto_channel_butone`; the two calls of
`msg_channel_flags` for members here and those behind other servers; `sendto_one` with the line;
and `sendto_anywhere`, which puts the source in front. -/
inductive Outgoing where
  | channelButone (one : Cid) (chname command text : CStr)
  | channelFlags (butone : Bool) (type : Finset ChFlag) (line : CStr) (remote : List (Cid × CStr))
  | one (line : CStr)
  | anywhere (line : CStr)
  deriving DecidableEq

/-- What the commands do, in order. `text` is the text on its way to a target, `special` a call
of `handle_special`, and `idle` sets the time of the last message of the source. -/
inductive MsgAct where
  | reply (sender dest : CStr) (reply : MsgReply)
  | text (ptr : Entity) (sending : Outgoing)
  | sendtoUplink (line : CStr)
  | special (nick : CStr)
  | floodEndgrace
  | idle
  | floodNotice (target : CStr)
  | throttled (target : CStr)
  | umodeGMsg (target : Cid)
  deriving DecidableEq

def MsgAct.textTo (e : Entity) : MsgAct → Bool
  | .text ptr _ => ptr == e
  | _ => false

def MsgAct.silent : MsgAct → Bool
  | .text _ _ | .sendtoUplink _ => false
  | _ => true

/-! ### State -/

/-- The flood counters of a channel or of a local client. -/
structure FloodMeter where
  firstReceivedMessageTime : Int
  receivedNumberOfPrivmsgs : Int
  floodNoticed : Bool
  deriving DecidableEq

/-- A channel with its counters. -/
structure MsgChannel where
  chptr : Channel
  meter : FloodMeter
  deriving DecidableEq

/-- The counters of a local client, and `last_caller_id_time`. -/
structure MsgUser where
  meter : FloodMeter
  lastCallerIdTime : Int
  deriving DecidableEq

/-- What the commands read and write: the channels and clients by their pointers. -/
structure MsgState where
  chans : Nat → MsgChannel
  users : Cid → MsgUser

/-- What they read: the clients, the settings, `HALFOPS`, `CurrentTime`, and what is known of
each client. -/
structure MsgServer where
  me : Cid
  dir : Directory
  cf : Config
  accepts : AcceptState
  caps : Cid → Nat
  hub : Bool
  uplink : Option Cid
  halfops : Bool
  maxTargets : Int
  floodcount : Int
  opersBypassCallerid : Bool
  callerIdWait : Int
  now : Int
  canFlood : Cid → Bool
  isFloodDone : Cid → Bool
  away : Cid → Option CStr
  hashFindChannel : CStr → Option Nat

/-- A command, the client that it is from, and the connection that it came over. -/
structure MsgSource where
  command : MsgCommand
  client : Cid
  source : Cid

def MsgState.cell (e : Entity) (t : MsgState) : MsgChannel ⊕ MsgUser :=
  match e with
  | .channel ch => .inl (t.chans ch)
  | .client c => .inr (t.users c)

/-- The counters after the time since the last message that was counted. -/
def FloodMeter.settle (now : Int) (m : FloodMeter) : FloodMeter :=
  if m.firstReceivedMessageTime + 1 < now then
    let received := m.receivedNumberOfPrivmsgs - (now - m.firstReceivedMessageTime)
    if received ≤ 0 then ⟨now, 0, false⟩ else ⟨now, received, m.floodNoticed⟩
  else m

def FloodMeter.full (floodcount : Int) (m : FloodMeter) : Bool :=
  floodcount ≤ m.receivedNumberOfPrivmsgs || m.floodNoticed

def FloodMeter.count (floodcount : Int) (m : FloodMeter) : FloodMeter :=
  if m.full floodcount then
    if m.floodNoticed then m
    else { m with receivedNumberOfPrivmsgs := m.receivedNumberOfPrivmsgs + 2, floodNoticed := true }
  else { m with receivedNumberOfPrivmsgs := m.receivedNumberOfPrivmsgs + 1 }

namespace MsgServer

variable (net : MsgServer) (src : MsgSource) (t : MsgState) (text : CStr)

def who : Client := net.dir.clients src.source

/-- `ID_or_name`. -/
def idOrName (x link : Cid) : CStr :=
  if net.caps link &&& CAP_TS6 ≠ 0 && (net.dir.clients x).hasID then (net.dir.clients x).id
  else (net.dir.clients x).name

/-- `sendto_one(source_p, ...)` with the names for a link. -/
def replyOver (link : Cid) (reply : MsgReply) : MsgAct :=
  .reply (net.idOrName net.me link) (net.idOrName src.source link) reply

/-- `!ServerInfo.hub && (uplink != NULL) && IsCapable(uplink, CAP_LL)`. -/
def lazyLeaf : Bool := !net.hub && net.uplink.any fun link => net.caps link &&& CAP_LL ≠ 0

/-! ### Serving a target -/

/-- What `flood_attack_client` and `flood_attack_channel` say when the counters are full. -/
def floodActs (m : FloodMeter) (name : CStr) : List MsgAct :=
  (if m.floodNoticed then [] else [.floodNotice name]) ++
    if (net.who src).myClient && src.command != .notice then [.throttled name] else []

/-- `flood_attack_channel` or `flood_attack_client`, behind its test: the answer, the counters,
and what is said. -/
def floodAttack (counts : Bool) (m : FloodMeter) (name : CStr) :
    Bool × FloodMeter × List MsgAct :=
  if counts then
    let settled := m.settle net.now
    (settled.full net.floodcount, settled.count net.floodcount,
      if settled.full net.floodcount then net.floodActs src settled name else [])
  else (false, m, [])

/-- `flood_attack_channel`. -/
def floodAttackChannel (chan : MsgChannel) : Bool × FloodMeter × List MsgAct :=
  net.floodAttack src (net.floodcount ≠ 0 && !net.canFlood src.source) chan.meter chan.chptr.chname

/-- `flood_attack_client`. -/
def floodAttackClient (target : Cid) (user : MsgUser) : Bool × FloodMeter × List MsgAct :=
  net.floodAttack src
    (net.floodcount ≠ 0 && (net.dir.clients target).myConnect && (net.who src).isClient &&
      !net.canFlood src.source)
    user.meter (net.dir.clients target).name

/-- The time of the last message of a local client is set, but not for a notice. -/
def idleActs : List MsgAct :=
  if (net.who src).myClient && src.command != .notice then [.idle] else []

/-- `":%s!%s@%s %s %s :%s"`. -/
def userLine (command target text : CStr) : CStr :=
  ':' :: (net.who src).name ++ '!' :: (net.who src).username ++ '@' :: (net.who src).host ++
    ' ' :: command ++ ' ' :: target ++ ' ' :: ':' :: text

/-- `msg_channel`. -/
def msgChannel (ch : Nat) : MsgState × List MsgAct :=
  let chan := t.chans ch
  let (result, chptr) := canSend net.cf net.dir.clients chan.chptr src.source
  let send := MsgAct.text (.channel ch)
    (.channelButone src.client chptr.chname src.command.text (':' :: text))
  match result with
  | .opv =>
    ({ t with chans := update t.chans ch { chan with chptr } },
      net.idleActs src ++ [send])
  | .nonop =>
    let (attacked, meter, acts) := net.floodAttackChannel src chan
    ({ t with chans := update t.chans ch ⟨chptr, meter⟩ },
      net.idleActs src ++ acts ++ if attacked then [] else [send])
  | .no =>
    ({ t with chans := update t.chans ch { chan with chptr } },
      net.idleActs src ++
        if src.command = .notice then []
        else [net.replyOver src src.client (.cannotSendToChan chptr.chname)])

/-- `msg_channel_flags`. -/
def msgChannelFlags (ch : Nat) (flags : Finset ChFlag) : MsgState × List MsgAct :=
  let chptr := (t.chans ch).chptr
  let (type, c) := Links.messageType flags
  (t, net.idleActs src ++
    [.text (.channel ch)
      (.channelFlags (net.who src).myClient type
        (net.userLine src src.command.text (c :: chptr.chname) text)
        (Links.msgChannelFlags ⟨net.dir.clients, net.caps⟩ src.source flags src.command.text chptr
          text))])

/-- `IsSetCallerId`. -/
def isSetCallerId (x : Client) : Bool := .callerid ∈ x.umodes || .softcallerid ∈ x.umodes

/-- The target takes messages only from some, and the source is not a server. -/
def asksAccept (target : Cid) : Bool :=
  (net.dir.clients target).myClient && !(net.who src).isServer &&
    isSetCallerId (net.dir.clients target)

def accepted (target : Cid) : Bool :=
  src.source == target || net.accepts.acceptMessage src.source target ||
    ((net.who src).isOper && net.opersBypassCallerid)

/-- The part of `msg_client` for a source that the target has not accepted. -/
def notAccepted (target : Cid) (user : MsgUser) : MsgUser × List MsgAct :=
  let say (reply : MsgReply) : List MsgAct :=
    if src.command = .notice then [] else [net.replyOver src (net.who src).from reply]
  let name := (net.dir.clients target).name
  let notify := decide (user.lastCallerIdTime + net.callerIdWait < net.now)
  let (_, meter, acts) := net.floodAttackClient src target user
  (⟨meter, if notify then net.now else user.lastCallerIdTime⟩,
    say (.targUmodeG name) ++
      (if notify then say (.targNotify name) ++ [.umodeGMsg target] else []) ++ acts)

/-- The source is under no check: it is remote, or an operator. -/
def unchecked : Bool := !(net.who src).myClient || (net.who src).isOper

/-- What `msg_client` does first: the time of the last message, and that the target is away. -/
def firstActs (target : Cid) : List MsgAct :=
  (if src.source = target then [] else net.idleActs src) ++
    if (net.who src).myConnect && src.command != .notice then
      ((net.away target).map fun away =>
        MsgAct.reply (net.dir.clients net.me).name (net.who src).name
          (.away (net.dir.clients target).name away)).toList
    else []

/-- `msg_client`. -/
def msgClient (target : Cid) : MsgState × List MsgAct :=
  let name := (net.dir.clients target).name
  if net.asksAccept src target then
    if net.accepted src target then
      (t, net.firstActs src target ++
        [.text (.client target) (.one (net.userLine src src.command.text name text))])
    else
      let (user, acts) := net.notAccepted src target (t.users target)
      ({ t with users := update t.users target user }, net.firstActs src target ++ acts)
  else
    let send :=
      MsgAct.text (.client target)
        (.anywhere (src.command.text ++ ' ' :: name ++ ' ' :: ':' :: text))
    if net.unchecked src then (t, net.firstActs src target ++ [send])
    else
      let (attacked, meter, acts) := net.floodAttackClient src target (t.users target)
      ({ t with users := update t.users target { t.users target with meter } },
        net.firstActs src target ++ acts ++ if attacked then [] else [send])

/-- The switch of `m_message`. -/
def serve : MsgTarget → MsgState → MsgState × List MsgAct
  | .channel ch, t => net.msgChannel src t text ch
  | .chanopsOnChannel ch flags, t => net.msgChannelFlags src t text ch flags
  | .client c, t => net.msgClient src t text c

/-! ### The table of targets -/

/-- What an entry of the list turns out to be. -/
inductive Entry where
  | skipped
  | unknown (reply : List MsgAct)
  | target (nick : CStr) (target : MsgTarget)
  | noRecipient
  | forbidden (withPrefix : CStr)
  | special (nick : CStr)
  deriving DecidableEq

/-- The status flags that a letter in front of a channel asks for. -/
def prefixFlags (c : Char) : Option (Finset ChFlag) :=
  if c = '@' then some {.chanop}
  else if c = '%' && net.halfops then some {.chanop, .halfop}
  else if c = '+' then some {.chanop, .halfop, .voice}
  else none

/-- The loop over the letters: the flags and the rest. -/
def readPrefixes : CStr → Finset ChFlag × CStr
  | [] => (∅, [])
  | c :: nick =>
    match net.prefixFlags c with
    | some flags => (flags ∪ (readPrefixes nick).1, (readPrefixes nick).2)
    | none => (∅, c :: nick)

/-- `ERR_NOSUCHNICK`, which a notice does not bring. -/
def noSuchNick (nick : CStr) : List MsgAct :=
  if src.command = .notice then [] else [net.replyOver src src.client (.noSuchNick nick)]

/-- An entry without letters in front, which is neither a channel nor a client. -/
def otherEntry (nick : CStr) : Entry :=
  if nick.head? = some '$' ∨ '@' ∈ nick then .special nick
  else .unknown (if startsWithDigit nick then [] else net.noSuchNick src nick)

def prefixedEntry (withPrefix : CStr) (type : Finset ChFlag) (nick : CStr) : Entry :=
  if nick = [] then .noRecipient
  else
    match net.hashFindChannel nick with
    | none => .unknown (net.noSuchNick src nick)
    | some ch =>
      if (findChannelLink net.dir.clients src.source (t.chans ch).chptr).any fun ms =>
          .chanop ∈ ms.flags || .halfop ∈ ms.flags || .voice ∈ ms.flags then
        .target nick (.chanopsOnChannel ch type)
      else .forbidden withPrefix

/-- What the body of the loop of `build_target_list` looks up. -/
def entryOf (nick : CStr) : Entry :=
  if isChanPrefix nick then
    if nick.head? = some '&' ∧ (net.dir.clients src.client).isServer then .skipped
    else
      match net.hashFindChannel nick with
      | some ch => .target nick (.channel ch)
      | none => .unknown (net.noSuchNick src nick)
  else
    match findPerson net.dir (net.dir.clients src.client) nick with
    | some c => .target nick (.client c)
    | none =>
      if (net.readPrefixes nick).1 ≠ ∅ then
        net.prefixedEntry src t nick (net.readPrefixes nick).1 (net.readPrefixes nick).2
      else net.otherEntry src nick

/-- What `build_target_list` leaves: the table, what it has said, and if it returns -1. -/
structure Built where
  targets : List MsgTarget
  acts : List MsgAct
  relay : Bool
  deriving DecidableEq

def Built.say (acts : List MsgAct) (b : Built) : Built := { b with acts := acts ++ b.acts }

/-- The loop of `build_target_list`, with the table so far. -/
def buildFrom (targets : List MsgTarget) : List Entry → Built
  | [] => ⟨targets, [], false⟩
  | .skipped :: rest => buildFrom targets rest
  | .unknown reply :: rest =>
    if net.lazyLeaf then ⟨targets, [], true⟩ else (buildFrom targets rest).say reply
  | .target nick target :: rest =>
    if target.ptr ∈ targets.map MsgTarget.ptr then buildFrom targets rest
    else if net.maxTargets ≤ targets.length then
      ⟨targets, [net.replyOver src src.client (.tooManyTargets nick net.maxTargets)], false⟩
    else buildFrom (targets ++ [target]) rest
  | .noRecipient :: rest =>
    (buildFrom targets rest).say [net.replyOver src src.client (.noRecipient src.command.text)]
  | .forbidden withPrefix :: _ =>
    ⟨targets, [net.replyOver src src.client (.chanOpPrivsNeeded withPrefix)], true⟩
  | .special nick :: rest => (buildFrom targets rest).say [.special nick]

def entries (list : CStr) : List Entry := (commaTokens list).map (net.entryOf src t)

/-- `build_target_list`. -/
def buildTargetList (list : CStr) : Built := net.buildFrom src [] (net.entries src t list)

/-- `parv[1]` behind `build_target_list`: only a lazy leaf has it as it was, as the first comma
behind an entry has been overwritten. -/
def listLeft (list : CStr) : CStr :=
  if net.lazyLeaf then list
  else list.takeWhile (· == ',') ++ (list.dropWhile (· == ',')).takeWhile (· != ',')

/-- `flood_endgrace` of a local client whose grace period has not ended. -/
def graceActs : List MsgAct :=
  if (net.who src).myClient && !net.isFloodDone src.source then [.floodEndgrace] else []

def relayActs (list : CStr) : List MsgAct :=
  if net.hub then []
  else
    (net.uplink.map fun _ =>
      MsgAct.sendtoUplink (sendFormat (':' :: (net.who src).name ++ ' ' :: src.command.text ++
        ' ' :: net.listLeft list ++ ' ' :: ':' :: text))).toList

/-- `m_message` with a list and a text: the state, and what is done. -/
def mMessageWith (list : CStr) : MsgState × List MsgAct :=
  let built := net.buildTargetList src t list
  if built.relay then (t, net.graceActs src ++ built.acts ++ net.relayActs src text list)
  else
    ((doAll (net.serve src text) built.targets t).1,
      net.graceActs src ++ built.acts ++ (doAll (net.serve src text) built.targets t).2)

/-- `m_message`; `parv` is `parv + 1`. -/
def mMessage (parv : List CStr) : MsgState × List MsgAct :=
  let reply (r : MsgReply) : MsgState × List MsgAct :=
    (t, if src.command = .notice then [] else [net.replyOver src src.client r])
  match parv with
  | [] | [] :: _ => reply (.noRecipient src.command.text)
  | [_] | _ :: [] :: _ => reply .noTextToSend
  | list :: text :: _ => net.mMessageWith src t text list

/-! ### What a target gets -/

def maySend : MsgTarget → Bool
  | .channel ch =>
    match (canSend net.cf net.dir.clients (t.chans ch).chptr src.source).1 with
    | .opv => true
    | .nonop => !(net.floodAttackChannel src (t.chans ch)).1
    | .no => false
  | .chanopsOnChannel _ _ => true
  | .client c =>
    if net.asksAccept src c then net.accepted src c
    else net.unchecked src || !(net.floodAttackClient src c (t.users c)).1

/-- The text is neither sent to a target nor handed to the uplink. -/
def Silent (acts : List MsgAct) : Prop := ∀ a ∈ acts, a.silent = true

variable {net src t text} {a b acts : List MsgAct} {reply : MsgAct}

theorem silent_nil : Silent [] := fun _ ha => by cases ha

theorem Silent.append (ha : Silent a) (hb : Silent b) : Silent (a ++ b) := by
  intro x hx
  rcases List.mem_append.mp hx with hx | hx
  · exact ha x hx
  · exact hb x hx

theorem silent_singleton (h : reply.silent = true) : Silent [reply] := by
  intro x hx
  rwa [List.mem_singleton.mp hx]

theorem Silent.ite {p : Prop} [Decidable p] (ha : Silent a) (hb : Silent b) :
    Silent (if p then a else b) := by
  split
  · exact ha
  · exact hb

theorem silent_idleActs : Silent (net.idleActs src) :=
  .ite (silent_singleton rfl) silent_nil

theorem silent_floodAttack (counts : Bool) (m : FloodMeter) (name : CStr) :
    Silent (net.floodAttack src counts m name).2.2 := by
  have hacts : ∀ settled, Silent (net.floodActs src settled name) := fun settled =>
    .append (.ite silent_nil (silent_singleton rfl))
      (.ite (silent_singleton rfl) silent_nil)
  unfold floodAttack
  split
  · exact .ite (hacts _) silent_nil
  · exact silent_nil

theorem silent_notAccepted (target : Cid) (user : MsgUser) :
    Silent (net.notAccepted src target user).2 := by
  have hsay : ∀ r : MsgReply, Silent (if src.command = .notice then []
      else [net.replyOver src (net.who src).from r]) := fun r =>
    .ite silent_nil (silent_singleton rfl)
  unfold notAccepted
  exact .append
    (.append (hsay _) (.ite (.append (hsay _) (silent_singleton rfl)) silent_nil))
    (silent_floodAttack _ _ _)

theorem silent_firstActs (target : Cid) : Silent (net.firstActs src target) := by
  refine .append (.ite silent_nil silent_idleActs) (.ite ?_ silent_nil)
  cases net.away target with
  | none => exact silent_nil
  | some away => exact silent_singleton rfl

theorem unless_eq (attacked : Bool) (a : List MsgAct) :
    (if attacked then [] else a) = if !attacked then a else [] := by
  cases attacked <;> rfl

variable (net src t text) in
theorem serve_acts (target : MsgTarget) : ∃ said sending, Silent said ∧
    (net.serve src text target t).2 =
      said ++ if net.maySend src t target then [.text target.ptr sending] else [] := by
  cases target with
  | channel ch =>
    cases hsend : canSend net.cf net.dir.clients (t.chans ch).chptr src.source with
    | mk result chptr =>
      simp only [serve, msgChannel, hsend]
      cases result with
      | opv =>
        have hmay : net.maySend src t (.channel ch) = true := by rw [maySend, hsend]
        rw [hmay]
        exact ⟨_, _, silent_idleActs, rfl⟩
      | nonop =>
        have hmay : net.maySend src t (.channel ch) =
            !(net.floodAttackChannel src (t.chans ch)).1 := by rw [maySend, hsend]
        rw [hmay]
        exact ⟨_, _, silent_idleActs.append (silent_floodAttack _ _ _),
          congrArg _ (unless_eq _ _)⟩
      | no =>
        have hmay : net.maySend src t (.channel ch) = false := by rw [maySend, hsend]
        rw [hmay]
        exact ⟨_, .one [],
          silent_idleActs.append (.ite silent_nil (silent_singleton rfl)),
          (append_nil _).symm⟩
  | chanopsOnChannel ch flags => exact ⟨_, _, silent_idleActs, rfl⟩
  | client c =>
    simp only [serve, msgClient]
    by_cases hasks : net.asksAccept src c = true
    · have hmay : net.maySend src t (.client c) = net.accepted src c := by
        rw [maySend, if_pos hasks]
      rw [hmay, if_pos hasks]
      cases haccepted : net.accepted src c with
      | true => exact ⟨_, _, silent_firstActs c, rfl⟩
      | false =>
        exact ⟨_, .one [], (silent_firstActs c).append (silent_notAccepted c _),
          (append_nil _).symm⟩
    · have hmay : net.maySend src t (.client c) =
          (net.unchecked src || !(net.floodAttackClient src c (t.users c)).1) := by
        rw [maySend, if_neg hasks]
      rw [hmay, if_neg hasks]
      cases hfree : net.unchecked src with
      | true => exact ⟨_, _, silent_firstActs c, rfl⟩
      | false =>
        exact ⟨_, _, (silent_firstActs c).append (silent_floodAttack _ _ _),
          congrArg _ (unless_eq _ _)⟩

theorem textTo_of_silent (h : reply.silent = true) (e : Entity) : reply.textTo e = false := by
  cases reply with
  | text ptr sending => cases h
  | _ => rfl

theorem Silent.countP (h : Silent acts) (e : Entity) : acts.countP (MsgAct.textTo e) = 0 := by
  refine List.countP_eq_zero.mpr fun a ha htext => ?_
  rw [textTo_of_silent (h a ha)] at htext
  cases htext

theorem Silent.home (h : Silent acts) (line : CStr) : .sendtoUplink line ∉ acts := by
  intro hmem
  have hsilent := h _ hmem
  cases hsilent

theorem countP_serve (target : MsgTarget) :
    (net.serve src text target t).2.countP (MsgAct.textTo target.ptr) =
      if net.maySend src t target then 1 else 0 := by
  obtain ⟨said, sending, hsaid, hacts⟩ := serve_acts net src t text target
  rw [hacts, countP_append, hsaid.countP, Nat.zero_add]
  split
  · exact List.countP_singleton.trans (if_pos (beq_self_eq_true _))
  · rfl

theorem serve_own (target : MsgTarget) {act : MsgAct} (hact : act ∈ (net.serve src text target t).2)
    (e : Entity) (htext : act.textTo e = true) : e = target.ptr := by
  obtain ⟨said, sending, hsaid, hacts⟩ := serve_acts net src t text target
  rw [hacts] at hact
  rcases List.mem_append.mp hact with hact | hact
  · rw [textTo_of_silent (hsaid act hact)] at htext
    cases htext
  · split at hact
    · obtain rfl := List.mem_singleton.mp hact
      exact (beq_iff_eq.mp htext).symm
    · cases hact

theorem cell_update_chans {ch : Nat} {e : Entity} (h : e ≠ .channel ch) (chan : MsgChannel) :
    MsgState.cell e { t with chans := update t.chans ch chan } = MsgState.cell e t := by
  cases e with
  | channel ch' =>
    have hne : ch' ≠ ch := fun heq => h (heq ▸ rfl)
    exact congrArg Sum.inl (update_of_ne hne _ _)
  | client c => rfl

theorem cell_update_users {c : Cid} {e : Entity} (h : e ≠ .client c) (user : MsgUser) :
    MsgState.cell e { t with users := update t.users c user } = MsgState.cell e t := by
  cases e with
  | channel ch => rfl
  | client c' =>
    have hne : c' ≠ c := fun heq => h (heq ▸ rfl)
    exact congrArg Sum.inr (update_of_ne hne _ _)

theorem apart_serve (net : MsgServer) (src : MsgSource) (text : CStr) :
    Apart (net.serve src text) MsgTarget.ptr MsgState.cell where
  reads target t t' h := by
    cases target with
    | channel ch =>
      have hchan : t.chans ch = t'.chans ch := Sum.inl.inj h
      simp only [serve, msgChannel, hchan]
      cases (canSend net.cf net.dir.clients (t'.chans ch).chptr src.source).1 <;> rfl
    | chanopsOnChannel ch flags =>
      have hchan : t.chans ch = t'.chans ch := Sum.inl.inj h
      simp only [serve, msgChannelFlags, hchan]
    | client c =>
      have huser : t.users c = t'.users c := Sum.inr.inj h
      simp only [serve, msgClient, huser]
      split_ifs <;> rfl
  frame target e t hne := by
    cases target with
    | channel ch =>
      simp only [serve, msgChannel]
      cases (canSend net.cf net.dir.clients (t.chans ch).chptr src.source).1 <;>
        exact cell_update_chans hne _
    | chanopsOnChannel ch flags => rfl
    | client c =>
      simp only [serve, msgClient]
      split_ifs
      · rfl
      · exact cell_update_users hne _
      · rfl
      · exact cell_update_users hne _
      · exact cell_update_users hne _

/-! ### What the table holds -/

def Entry.target? : Entry → Option MsgTarget
  | .target _ x => some x
  | _ => none

def entryActs (net : MsgServer) (src : MsgSource) : Entry → List MsgAct
  | .skipped => []
  | .unknown reply => reply
  | .target nick _ => [net.replyOver src src.client (.tooManyTargets nick net.maxTargets)]
  | .noRecipient => [net.replyOver src src.client (.noRecipient src.command.text)]
  | .forbidden withPrefix => [net.replyOver src src.client (.chanOpPrivsNeeded withPrefix)]
  | .special nick => [.special nick]

/-- The targets of entries, each where it comes first. -/
def distinct (entries : List Entry) : List MsgTarget :=
  firstsBy MsgTarget.ptr ∅ (entries.filterMap Entry.target?)

/-- Those within `max_targets`. -/
def within (net : MsgServer) (src : MsgSource) (t : MsgState) (list : CStr) : List MsgTarget :=
  (distinct (net.entries src t list)).take net.maxTargets.toNat

theorem acts_buildFrom (targets : List MsgTarget) (es : List Entry) :
    (net.buildFrom src targets es).acts.Sublist (es.flatMap (net.entryActs src)) := by
  induction es generalizing targets with
  | nil => exact List.Sublist.slnil
  | cons entry rest ih =>
    rw [flatMap_cons]
    have hlater : ∀ targets, (net.buildFrom src targets rest).acts.Sublist
        (net.entryActs src entry ++ rest.flatMap (net.entryActs src)) := fun targets =>
      (ih targets).trans (sublist_append_right _ _)
    have hsay : ∀ targets,
        ((net.buildFrom src targets rest).say (net.entryActs src entry)).acts.Sublist
          (net.entryActs src entry ++ rest.flatMap (net.entryActs src)) := fun targets =>
      (ih targets).append_left _
    cases entry with
    | skipped => exact hlater targets
    | unknown reply =>
      unfold buildFrom
      split
      · exact nil_sublist _
      · exact hsay targets
    | target nick target =>
      unfold buildFrom
      split
      · exact hlater targets
      · split
        · exact sublist_append_left _ _
        · exact hlater _
    | noRecipient => exact hsay targets
    | forbidden withPrefix => exact sublist_append_left _ _
    | special nick => exact hsay targets

/-- An entry that is forbidden stands behind no more targets than there is room for. -/
def Reached (room : Nat) (seen : Finset Entity) (es : List Entry) : Prop :=
  ∃ before withPrefix after, es = before ++ .forbidden withPrefix :: after ∧
    (firstsBy MsgTarget.ptr seen (before.filterMap Entry.target?)).length ≤ room

theorem reached_cons {room : Nat} {seen : Finset Entity} {entry : Entry} {rest : List Entry}
    (h : ∀ withPrefix, entry ≠ .forbidden withPrefix) :
    Reached room seen (entry :: rest) ↔ ∃ before withPrefix after,
      rest = before ++ .forbidden withPrefix :: after ∧
      (firstsBy MsgTarget.ptr seen ((entry :: before).filterMap Entry.target?)).length ≤ room := by
  constructor
  · rintro ⟨before, withPrefix, after, hsplit, hroom⟩
    cases before with
    | nil => exact absurd (List.cons.inj hsplit).1 (h withPrefix)
    | cons e before =>
      obtain ⟨rfl, hrest⟩ := List.cons.inj hsplit
      exact ⟨before, withPrefix, after, hrest, hroom⟩
  · rintro ⟨before, withPrefix, after, hsplit, hroom⟩
    exact ⟨entry :: before, withPrefix, after, by rw [hsplit, cons_append], hroom⟩

theorem reached_cons_of_none {room : Nat} {seen : Finset Entity} {entry : Entry}
    {rest : List Entry} (h : ∀ withPrefix, entry ≠ .forbidden withPrefix)
    (hnone : entry.target? = none) :
    Reached room seen (entry :: rest) ↔ Reached room seen rest := by
  rw [reached_cons h]
  simp only [filterMap_cons_none hnone]
  rfl

variable {targets : List MsgTarget} {es : List Entry}

def ptrs (targets : List MsgTarget) : Finset Entity := (targets.map MsgTarget.ptr).toFinset

theorem ptrs_append (targets : List MsgTarget) (target : MsgTarget) :
    ptrs (targets ++ [target]) = insert target.ptr (ptrs targets) := by
  ext e
  simp [ptrs]

/-- `build_target_list` of a server that is no lazy leaf returns -1 just when it comes to an
entry that is forbidden, and else its table holds the first distinct targets. -/
theorem buildFrom_spec (hleaf : net.lazyLeaf = false)
    (hroom : targets.length ≤ net.maxTargets.toNat) :
    ((net.buildFrom src targets es).relay = true ↔
        Reached (net.maxTargets.toNat - targets.length) (ptrs targets) es) ∧
      ((net.buildFrom src targets es).relay = false →
        (net.buildFrom src targets es).targets = targets ++
          (firstsBy MsgTarget.ptr (ptrs targets) (es.filterMap Entry.target?)).take
            (net.maxTargets.toNat - targets.length)) := by
  induction es generalizing targets with
  | nil =>
    refine ⟨iff_of_false (fun h => by cases h) ?_, fun _ => by simp [buildFrom]⟩
    rintro ⟨before, withPrefix, after, hsplit, -⟩
    cases before <;> cases hsplit
  | cons entry rest ih =>
    -- an entry that says something and goes on, or not even that
    have hgoes : ∀ said, (∀ withPrefix, entry ≠ .forbidden withPrefix) →
        entry.target? = none → net.buildFrom src targets (entry :: rest) =
          (net.buildFrom src targets rest).say said →
        ((net.buildFrom src targets (entry :: rest)).relay = true ↔
            Reached (net.maxTargets.toNat - targets.length) (ptrs targets) (entry :: rest)) ∧
          ((net.buildFrom src targets (entry :: rest)).relay = false →
            (net.buildFrom src targets (entry :: rest)).targets = targets ++
              (firstsBy MsgTarget.ptr (ptrs targets)
                ((entry :: rest).filterMap Entry.target?)).take
                  (net.maxTargets.toNat - targets.length)) := by
      intro said hnot hnone heq
      rw [reached_cons_of_none hnot hnone, filterMap_cons_none hnone, heq]
      exact ih hroom
    cases entry with
    | skipped => exact hgoes [] (fun _ h => by cases h) rfl rfl
    | unknown reply =>
      refine hgoes reply (fun _ h => by cases h) rfl ?_
      rw [buildFrom, hleaf]
      rfl
    | noRecipient => exact hgoes _ (fun _ h => by cases h) rfl rfl
    | special nick => exact hgoes _ (fun _ h => by cases h) rfl rfl
    | forbidden withPrefix =>
      refine ⟨iff_of_true rfl ⟨[], withPrefix, rest, rfl, Nat.zero_le _⟩, fun h => by cases h⟩
    | target nick target =>
      have hnot : ∀ withPrefix, Entry.target nick target ≠ .forbidden withPrefix :=
        fun _ h => by cases h
      have hcons : ∀ l : List Entry, (Entry.target nick target :: l).filterMap Entry.target? =
          target :: l.filterMap Entry.target? := fun _ => rfl
      rw [reached_cons hnot]
      simp only [hcons]
      by_cases hseen : target.ptr ∈ targets.map MsgTarget.ptr
      · have hmem : target.ptr ∈ ptrs targets := List.mem_toFinset.mpr hseen
        have hskip : net.buildFrom src targets (.target nick target :: rest) =
            net.buildFrom src targets rest := by rw [buildFrom, if_pos hseen]
        simp only [firstsBy_cons_of_mem hmem]
        rw [hskip]
        exact ih hroom
      have hmem : target.ptr ∉ ptrs targets := fun h => hseen (List.mem_toFinset.mp h)
      simp only [firstsBy_cons_of_notMem hmem, length_cons]
      by_cases hfull : net.maxTargets ≤ targets.length
      · have hzero : net.maxTargets.toNat - targets.length = 0 := by omega
        have hstop : net.buildFrom src targets (.target nick target :: rest) =
            ⟨targets, [net.replyOver src src.client (.tooManyTargets nick net.maxTargets)],
              false⟩ := by rw [buildFrom, if_neg hseen, if_pos hfull]
        rw [hstop, hzero]
        refine ⟨iff_of_false (fun h => by cases h) ?_, fun _ => (append_nil _).symm⟩
        rintro ⟨before, withPrefix, after, -, hlen⟩
        exact Nat.not_succ_le_zero _ hlen
      · have hpush : net.buildFrom src targets (.target nick target :: rest) =
            net.buildFrom src (targets ++ [target]) rest := by
          rw [buildFrom, if_neg hseen, if_neg hfull]
        have hlen : (targets ++ [target]).length = targets.length + 1 := by simp
        obtain ⟨room, hleft⟩ : ∃ room, net.maxTargets.toNat - targets.length = room + 1 :=
          ⟨net.maxTargets.toNat - targets.length - 1, by omega⟩
        have hnext : net.maxTargets.toNat - (targets ++ [target]).length = room := by omega
        obtain ⟨hrelay, htable⟩ := @ih (targets ++ [target]) (by omega)
        rw [hnext, ptrs_append] at hrelay htable
        rw [hpush, hleft]
        constructor
        · rw [hrelay]
          simp only [Reached, Nat.add_le_add_iff_right]
        · intro hnone
          rw [htable hnone, take_succ_cons, append_assoc, singleton_append]

/-! ### Each target on its own -/

/-- Each distinct target within the limit to which the source may send gets the text once, and
the others do not; nothing goes to the uplink; and an entry is answered with one reply at most. -/
structure ServedApart (net : MsgServer) (src : MsgSource) (t : MsgState) (list text : CStr)
    (more : List CStr) : Prop where
  once : ∀ target ∈ net.within src t list, net.maySend src t target = true →
    (net.mMessage src t (list :: text :: more)).2.countP (MsgAct.textTo target.ptr) = 1
  others : ∀ e, (∀ target ∈ net.within src t list, target.ptr = e →
      net.maySend src t target = false) →
    (net.mMessage src t (list :: text :: more)).2.countP (MsgAct.textTo e) = 0
  home : ∀ line, .sendtoUplink line ∉ (net.mMessage src t (list :: text :: more)).2
  replies : (net.buildTargetList src t list).acts.Sublist
    ((net.entries src t list).flatMap (net.entryActs src))

/-- The source has a status on every channel that is named with letters in front, as far as the
list is read; or the server has nobody to pass the line to, and nobody would get the text. -/
def StatusHeld (net : MsgServer) (src : MsgSource) (t : MsgState) (list : CStr) : Prop :=
  (∀ before withPrefix after,
      net.entries src t list = before ++ .forbidden withPrefix :: after →
      net.maxTargets.toNat < (distinct before).length) ∨
    (net.hub = true ∨ net.uplink = none) ∧
      ∀ target ∈ net.within src t list, net.maySend src t target = false

theorem silent_graceActs : Silent (net.graceActs src) :=
  .ite (silent_singleton rfl) silent_nil

theorem silent_noSuchNick (nick : CStr) : Silent (net.noSuchNick src nick) :=
  .ite silent_nil (silent_singleton rfl)

theorem silent_entryActs (nick : CStr) : Silent (net.entryActs src (net.entryOf src t nick)) := by
  unfold entryOf
  split
  · split
    · exact silent_nil
    · split
      · exact silent_singleton rfl
      · exact silent_noSuchNick nick
  · split
    · exact silent_singleton rfl
    · split
      · unfold prefixedEntry
        split
        · exact silent_singleton rfl
        · split
          · exact silent_noSuchNick _
          · split
            · exact silent_singleton rfl
            · exact silent_singleton rfl
      · unfold otherEntry
        split
        · exact silent_singleton rfl
        · exact .ite silent_nil (silent_noSuchNick nick)

theorem silent_buildTargetList (list : CStr) : Silent (net.buildTargetList src t list).acts := by
  intro act hact
  obtain ⟨entry, hentry, hact⟩ := List.mem_flatMap.mp ((acts_buildFrom [] _).subset hact)
  obtain ⟨nick, -, rfl⟩ := List.mem_map.mp hentry
  exact silent_entryActs nick act hact

theorem relayActs_iff (list : CStr) : (∀ line, .sendtoUplink line ∉ net.relayActs src text list) ↔
    net.hub = true ∨ net.uplink = none := by
  unfold relayActs
  cases net.hub with
  | true => exact iff_of_true (fun line h => by cases h) (.inl rfl)
  | false =>
    cases net.uplink with
    | none => exact iff_of_true (fun line h => by cases h) (.inr rfl)
    | some link =>
      refine iff_of_false (fun h => h _ (List.mem_singleton.mpr rfl)) ?_
      rintro (h | h) <;> cases h

theorem countP_relayActs (list : CStr) (e : Entity) :
    (net.relayActs src text list).countP (MsgAct.textTo e) = 0 := by
  unfold relayActs
  cases net.hub with
  | true => rfl
  | false =>
    cases net.uplink with
    | none => rfl
    | some link => rfl

theorem served_acts {list : CStr} (htargets : (net.buildTargetList src t list).targets =
    net.within src t list) :
    (doAll (net.serve src text) (net.buildTargetList src t list).targets t).2 =
        (net.within src t list).flatMap fun target => (net.serve src text target t).2 := by
  rw [htargets]
  refine doAll_acts (apart_serve net src text) ?_ t
  exact (nodup_map_firstsBy _ _ _).sublist ((take_sublist _ _).map _)

end MsgServer

/-- A server that is no lazy leaf. -/
structure FullServer extends MsgServer where
  full : toMsgServer.lazyLeaf = false

namespace MsgServer

variable {net : MsgServer} {src : MsgSource} {t : MsgState} {list text : CStr} {more : List CStr}

theorem mMessage_eq (hlist : list ≠ []) (htext : text ≠ []) (more : List CStr) :
    net.mMessage src t (list :: text :: more) = net.mMessageWith src t text list := by
  obtain ⟨c, list, rfl⟩ := exists_cons_of_ne_nil hlist
  obtain ⟨d, text, rfl⟩ := exists_cons_of_ne_nil htext
  rfl

theorem servedApart_of_built (hlist : list ≠ []) (htext : text ≠ [])
    (hrelay : (net.buildTargetList src t list).relay = false)
    (htargets : (net.buildTargetList src t list).targets = net.within src t list) :
    net.ServedApart src t list text more := by
  have hsaid : Silent (net.graceActs src ++ (net.buildTargetList src t list).acts) :=
    silent_graceActs.append (silent_buildTargetList list)
  have hacts : (net.mMessage src t (list :: text :: more)).2 =
      net.graceActs src ++ (net.buildTargetList src t list).acts ++
        (net.within src t list).flatMap fun target => (net.serve src text target t).2 := by
    rw [mMessage_eq hlist htext, mMessageWith, hrelay, ← served_acts htargets]
    rfl
  have hnodup : ((net.within src t list).map MsgTarget.ptr).Nodup :=
    (nodup_map_firstsBy _ _ _).sublist ((take_sublist _ _).map _)
  have hcount : ∀ e, (net.mMessage src t (list :: text :: more)).2.countP (MsgAct.textTo e) =
      ((net.within src t list).flatMap fun target => (net.serve src text target t).2).countP
        (MsgAct.textTo e) := by
    intro e
    rw [hacts, countP_append, hsaid.countP, Nat.zero_add]
  have hown : ∀ target, ∀ act ∈ (net.serve src text target t).2, ∀ e, act.textTo e = true →
      e = target.ptr := fun target act hact e => serve_own target hact e
  refine ⟨fun target hmem hmay => ?_, fun e hnone => ?_, fun line hline => ?_,
    acts_buildFrom [] _⟩
  · rw [hcount, countP_flatMap_of_mem hown hnodup hmem, countP_serve, if_pos hmay]
  · rw [hcount]
    by_cases hmem : e ∈ (net.within src t list).map MsgTarget.ptr
    · obtain ⟨target, htarget, rfl⟩ := List.mem_map.mp hmem
      rw [countP_flatMap_of_mem hown hnodup htarget, countP_serve,
        if_neg (by rw [hnone target htarget rfl]; exact Bool.false_ne_true)]
    · exact countP_flatMap_of_notMem hown hmem
  · rw [hacts] at hline
    rcases List.mem_append.mp hline with hline | hline
    · exact hsaid.home line hline
    · obtain ⟨target, -, hline⟩ := List.mem_flatMap.mp hline
      obtain ⟨said, sending, hserved, heq⟩ := serve_acts net src t text target
      rw [heq] at hline
      rcases List.mem_append.mp hline with hline | hline
      · exact hserved.home line hline
      · split at hline
        · cases List.mem_singleton.mp hline
        · cases hline

theorem servedApart_iff_of_relay (hlist : list ≠ []) (htext : text ≠ [])
    (hrelay : (net.buildTargetList src t list).relay = true) :
    net.ServedApart src t list text more ↔ (net.hub = true ∨ net.uplink = none) ∧
      ∀ target ∈ net.within src t list, net.maySend src t target = false := by
  have hsaid : Silent (net.graceActs src ++ (net.buildTargetList src t list).acts) :=
    silent_graceActs.append (silent_buildTargetList list)
  have hacts : (net.mMessage src t (list :: text :: more)).2 =
      net.graceActs src ++ (net.buildTargetList src t list).acts ++
        net.relayActs src text list := by
    rw [mMessage_eq hlist htext, mMessageWith, hrelay]
    rfl
  have hcount : ∀ e,
      (net.mMessage src t (list :: text :: more)).2.countP (MsgAct.textTo e) = 0 := by
    intro e
    rw [hacts, countP_append, hsaid.countP, countP_relayActs]
  rw [← @relayActs_iff net src text list]
  constructor
  · intro h
    refine ⟨fun line hline => h.home line ?_, fun target hmem => ?_⟩
    · rw [hacts]
      exact mem_append_right _ hline
    · by_contra hmay
      have hone := h.once target hmem (by simpa using hmay)
      rw [hcount] at hone
      cases hone
  · rintro ⟨hhome, hnone⟩
    refine ⟨fun target hmem hmay => ?_, fun e _ => hcount e, fun line hline => ?_,
      acts_buildFrom [] _⟩
    · rw [hnone target hmem] at hmay
      cases hmay
    · rw [hacts] at hline
      rcases List.mem_append.mp hline with hline | hline
      · exact hsaid.home line hline
      · exact hhome line hline

theorem servedApart_nil (text : CStr) (more : List CStr) : net.ServedApart src t [] text more := by
  have hsaid : Silent (net.mMessage src t ([] :: text :: more)).2 :=
    .ite silent_nil (silent_singleton rfl)
  refine ⟨fun target hmem _ => ?_, fun e _ => hsaid.countP e, hsaid.home, acts_buildFrom [] _⟩
  exact absurd (mem_of_mem_take hmem) not_mem_nil

end MsgServer

/-- Each target of a message is served on its own just when no entry is reached that asks for
a status on a channel where the source has none, or nobody would be sent the text anyway. -/
theorem served_apart_iff (net : FullServer) (src : MsgSource) (t : MsgState) (list : CStr)
    (c : Char) (text : CStr) (more : List CStr) :
    net.ServedApart src t list (c :: text) more ↔ net.StatusHeld src t list := by
  rcases eq_or_ne list [] with rfl | hlist
  · refine iff_of_true (MsgServer.servedApart_nil _ more) (.inl fun before withPrefix after h => ?_)
    exact absurd h.symm (append_ne_nil_of_right_ne_nil _ (cons_ne_nil _ _))
  have htext : c :: text ≠ [] := cons_ne_nil _ _
  obtain ⟨hrelay, htable⟩ := @MsgServer.buildFrom_spec net.toMsgServer src []
    (net.entries src t list) net.full (Nat.zero_le _)
  cases hbuilt : (net.buildTargetList src t list).relay with
  | true =>
    have hreached := hrelay.mp hbuilt
    rw [MsgServer.servedApart_iff_of_relay hlist htext hbuilt]
    refine (or_iff_right fun hheld => ?_).symm
    obtain ⟨before, withPrefix, after, hsplit, hroom⟩ := hreached
    exact absurd (hheld before withPrefix after hsplit) (not_lt.mpr hroom)
  | false =>
    refine iff_of_true (MsgServer.servedApart_of_built hlist htext hbuilt (htable hbuilt)) ?_
    refine .inl fun before withPrefix after hsplit => ?_
    by_contra hroom
    have hreached := hrelay.mpr ⟨before, withPrefix, after, hsplit, not_lt.mp hroom⟩
    rw [MsgServer.buildTargetList] at hbuilt
    rw [hbuilt] at hreached
    cases hreached

/-- Two clients of a server with an uplink that does no lazy links. -/
def twoTalkers : FullServer where
  me := 0
  dir :=
    { clients := fun x =>
        { (default : Client) with
          status := if x = 0 then .me else if x = 3 then .server else .client
          name := if x = 0 then "leaf.example".toList else if x = 1 then "nick".toList
            else "other".toList
          localClient := some ⟨0, 0⟩ }
      hashFindId := fun _ => none
      findClient := fun _ => none
      findServer := fun _ => none
      getHistory := fun _ => none }
  cf := default
  accepts := { cf := default, ircdRandomKey := 0, clients := fun _ => default, maxAccept := 20 }
  caps := fun _ => 0
  hub := false
  uplink := some 3
  halfops := true
  maxTargets := 4
  floodcount := 0
  opersBypassCallerid := false
  callerIdWait := 60
  now := 0
  canFlood := fun _ => false
  isFloodDone := fun _ => true
  away := fun _ => none
  hashFindChannel := fun name =>
    if name = "#mine".toList then some 0 else if name = "#theirs".toList then some 1 else none
  full := rfl

/-- The first is on `#mine`, and the second on both channels. -/
def twoChannels : MsgState where
  chans := fun ch =>
    { chptr :=
        { (default : Channel) with
          chname := if ch = 0 then "#mine".toList else "#theirs".toList
          members := if ch = 0 then [⟨1, ∅, true⟩, ⟨2, ∅, true⟩] else [⟨2, ∅, true⟩] }
      meter := ⟨0, 0, false⟩ }
  users := fun _ => ⟨⟨0, 0, false⟩, 0⟩

/-- `PRIVMSG #mine,@#theirs :text` is not sent to `#mine`, but to the uplink. -/
theorem forbidden_target_stops_all :
    ¬twoTalkers.ServedApart ⟨.privmsg, 1, 1⟩ twoChannels "#mine,@#theirs".toList "text".toList [] ∧
      (twoTalkers.mMessage ⟨.privmsg, 1, 1⟩ twoChannels
          ["#mine,@#theirs".toList, "text".toList]).2 =
        [.reply "leaf.example".toList "nick".toList (.chanOpPrivsNeeded "@#theirs".toList),
          .sendtoUplink ":nick PRIVMSG #mine :text".toList] := by
  have hacts : (twoTalkers.mMessage ⟨.privmsg, 1, 1⟩ twoChannels
      ["#mine,@#theirs".toList, "text".toList]).2 =
        [.reply "leaf.example".toList "nick".toList (.chanOpPrivsNeeded "@#theirs".toList),
          .sendtoUplink ":nick PRIVMSG #mine :text".toList] := by decide +kernel
  refine ⟨fun h => h.home ":nick PRIVMSG #mine :text".toList ?_, hacts⟩
  rw [hacts]
  exact mem_cons_of_mem _ (List.mem_singleton.mpr rfl)

end Ircd
