import Ircd.NickMessages
import Ircd.Lib.Run

/-!
Two servers joined by one link, with KILL (`m_kill.c`), NICK (`m_nick.c`) and QUIT on
their way in both directions, and the nick history of `whowas.c` that a KILL falls back on.

Operators of the server `a` send KILLs, users of the server `b` change their nicks, and
users of both leave. Lines are delivered in the order they were sent. The link carries
identifiers (`CAP_TS6`) or nicks; a client has the same pointer on both sides.
-/

namespace Ircd

/-- `struct Whowas`. -/
structure Whowas where
  name : CStr
  logoff : Int
  online : Option Cid
  deriving DecidableEq

/-- The configuration with `kill_chase_time_limit` and `NICKNAMEHISTORYLENGTH`. -/
structure KillConfig extends ServerConfig where
  killChaseTimeLimit : Int
  nickHistoryLength : Nat

/-- The lines on the link. A KILL without a sender comes from the server itself. -/
inductive LinkLine where
  | nick (sender nick : CStr) (ts : Int)
  | quit (sender : CStr)
  | kill (sender : Option CStr) (user : CStr)
  | squit (name : CStr)
  deriving DecidableEq

/-- A line on its way. `about` is the client that it was sent for, the sender of a NICK or a
QUIT and the victim of a KILL; it is not on the wire and nothing that receives a line reads it. -/
structure Sent where
  line : LinkLine
  about : Cid
  deriving DecidableEq

/-- One of the two servers: the users it knows, the newest in the tables first, and its nick
history, the newest entry first. -/
structure Party where
  clients : Clients
  hash : List Cid
  whowas : List Whowas
  currentTime : Int

def peer : Client := { (default : Client) with status := .server }

namespace Party

variable (cf : KillConfig) (ts6 : Bool) (p : Party)

def onClient (c : Cid) (f : Client → Client) : Party :=
  { p with clients := Function.update p.clients c (f (p.clients c)) }

/-! ### Looking clients up -/

/-- `find_client`. -/
def findClient (name : CStr) : Option Cid := p.hash.find? fun c => ircEq name (p.clients c).name

/-- `hash_find_id`. -/
def hashFindId (name : CStr) : Option Cid :=
  p.hash.find? fun c => (p.clients c).hasID && ircEq name (p.clients c).id

/-- `get_history`: the newest entry for the nick that is young enough, whether or not the
client is still there. -/
def getHistory (nick : CStr) : Option Cid :=
  (p.whowas.find? fun w =>
    ircEq nick w.name && decide (p.currentTime - cf.killChaseTimeLimit ≤ w.logoff)).bind
      Whowas.online

/-- What the server looks clients up in. No user is found as a server. -/
def directory : Directory where
  clients := p.clients
  hashFindId := p.hashFindId
  findClient := p.findClient
  findServer := fun _ => none
  getHistory := p.getHistory cf

/-- `ID_or_name`, and the choice between the two halves of a `sendto_server` pair. -/
def idOrName (c : Cid) : CStr :=
  if ts6 && (p.clients c).hasID then (p.clients c).id else (p.clients c).name

/-! ### The nick history -/

/-- `add_history`. The oldest entry gives its place up. -/
def addHistory (c : Cid) (online : Bool) : Party :=
  { p with
    whowas := (⟨strlcpy (p.clients c).name cf.nicklen, p.currentTime,
      if online then some c else none⟩ :: p.whowas).take cf.nickHistoryLength }

/-- `off_history`. -/
def offHistory (c : Cid) : Party :=
  { p with
    whowas := p.whowas.map fun w => if w.online = some c then { w with online := none } else w }

/-! ### Clients that leave -/

/-- `exit_one_client`. -/
def exitOneClient (c : Cid) : Party :=
  let p := (p.addHistory cf c false).offHistory c
  ({ p with hash := p.hash.erase c }).onClient c fun x => x.setFlag .deadsocket

/-- `exit_client` for a user: unless it was killed, a QUIT goes out on the link, also when
the user is behind it. -/
def exitClient (c : Cid) : Party × List Sent :=
  (p.exitOneClient cf c,
    if (p.clients c).isKilled then [] else [⟨.quit (p.idOrName ts6 c), c⟩])

/-- `SetKilled` and `exit_client`. -/
def killClient (c : Cid) : Party × List Sent :=
  (p.onClient c fun x => x.setFlag .killed).exitClient cf ts6 c

/-- What `kill_client_ll_serv_butone` sends on the link. -/
def serverKill (c : Cid) : Sent := ⟨.kill none (p.idOrName ts6 c), c⟩

/-! ### KILL -/

/-- What `relay_kill` sends on the link. -/
def relayKill (source target : Cid) : Sent :=
  ⟨.kill (some (p.idOrName ts6 source)) (p.idOrName ts6 target), target⟩

/-- `mo_kill` of an operator that may kill users everywhere. -/
def moKill (source : Cid) (user : CStr) : Party × List Sent :=
  if user = [] ∨ startsWithDigit user then (p, [])
  else
    match (p.findClient user).or (p.getHistory cf user) with
    | none => (p, [])
    | some target =>
      if (p.clients target).myConnect then p.exitClient cf ts6 target
      else
        let out := p.killClient cf ts6 target
        (out.1, p.relayKill ts6 source target :: out.2)

/-- `ms_kill`. There is no link but the one the KILL came from to relay it to. -/
def msKill (user : CStr) : Party × List Sent :=
  match findChasing (p.directory cf) peer user with
  | none => (p, [])
  | some target => p.killClient cf ts6 target

/-! ### NICK -/

/-- The end of `nick_from_server` and `change_local_nick`. -/
def rename (c : Cid) (nick : CStr) : Party :=
  ({ p with hash := c :: p.hash.erase c }).onClient c fun x => { x with name := nick }

/-- `nick_from_server` for a user. -/
def nickFromServer (source : Cid) (nick : CStr) (newts : Int) : Party :=
  let p := p.onClient source fun x =>
    { x with
      tsinfo := if ircEq x.name nick then x.tsinfo else if newts ≠ 0 then newts else p.currentTime }
  (p.addHistory cf source true).rename source nick

/-- `perform_nick_collides` for a user that changes its nick. -/
def performNickCollides (source target : Cid) (nick : CStr) (newts : Int) : Party × List Sent :=
  match collision newts (p.clients target) (p.clients source).username (p.clients source).host with
  | .killBoth =>
    let lines := [p.serverKill ts6 source, p.serverKill ts6 target]
    let out := p.killClient cf ts6 target
    let out' := out.1.killClient cf ts6 source
    (out'.1, lines ++ out.2 ++ out'.2)
  | .keepTarget => p.killClient cf ts6 source
  | .keepNew =>
    let out := p.killClient cf ts6 target
    (out.1.nickFromServer cf source nick newts, out.2)

/-- `ms_nick` with a nick and a timestamp, from a user. -/
def msNick (source : Cid) (newnick : CStr) (newts : Int) : Party × List Sent :=
  let nick := strlcpy newnick cf.nicklen
  if newnick = [] then (p, [])
  else if !cleanNickName nick false || nick != newnick then
    let out := p.killClient cf ts6 source
    (out.1, ⟨.kill none newnick, source⟩ :: out.2)
  else
    match p.findClient nick with
    | none => (p.nickFromServer cf source nick newts, [])
    | some target =>
      if target = source then
        if (p.clients target).name ≠ nick then (p.nickFromServer cf source nick newts, [])
        else (p, [])
      else p.performNickCollides cf ts6 source target nick newts

/-- `change_local_nick`. -/
def changeLocalNick (source : Cid) (nick : CStr) : Party × List Sent :=
  let x := p.clients source
  let after := changeLocalNickFields cf.toConfig p.currentTime x nick
  let changes := (after.localClient.map LocalUser.numberOfNickChanges).getD 0
  if nickChangeAllowed cf.toConfig x changes then
    let p' := p.onClient source fun x =>
      { x with localClient := after.localClient, tsinfo := after.tsinfo }
    ((p'.addHistory cf source true).rename source nick,
      [⟨.nick (p.idOrName ts6 source) nick after.tsinfo, source⟩])
  else (p.onClient source fun x => { x with localClient := after.localClient }, [])

/-- `m_nick`. -/
def mNick (source : Cid) (newnick : CStr) : Party × List Sent :=
  let x := p.clients source
  let nick := strlcpy newnick cf.nicklen
  if !cleanNickName nick true then (p, [])
  else if cf.nickResv nick && !x.isExemptResv && !(x.isOper && cf.file.operPassResv) then (p, [])
  else
    match p.findClient nick with
    | none => p.changeLocalNick cf ts6 source nick
    | some target =>
      if target = source then
        if x.name = nick then (p, []) else p.changeLocalNick cf ts6 source nick
      else (p, [])

/-! ### Lines from the link -/

/-- `remove_unknown`. -/
def removeUnknown (sender : CStr) (about : Cid) : Sent :=
  if (startsWithDigit sender && decide (sender.length ≤ IRC_MAXSID)) || decide ('.' ∈ sender) then
    ⟨.squit sender, about⟩
  else ⟨.kill none sender, about⟩

/-- The sender of a line, as `parse` looks it up: a sender that is not known is answered by
`remove_unknown`, and the line of one that is not behind the link is dropped
(`cancel_clients`). -/
def fromUser (sender : CStr) (about : Cid) (handler : Cid → Party × List Sent) :
    Party × List Sent :=
  match findPerson (p.directory cf) peer sender with
  | none => (p, [removeUnknown sender about])
  | some source => if (p.clients source).myConnect then (p, []) else handler source

/-- A line arrives. The server that a SQUIT names is not known. -/
def receive (m : Sent) : Party × List Sent :=
  match m.line with
  | .nick sender nick ts => p.fromUser cf sender m.about fun source =>
    p.msNick cf ts6 source nick ts
  | .quit sender => p.fromUser cf sender m.about fun source => p.exitClient cf ts6 source
  | .kill none user => p.msKill cf ts6 user
  | .kill (some sender) user => p.fromUser cf sender m.about fun _ => p.msKill cf ts6 user
  | .squit _ => (p, [])

end Party

/-! ### The two servers -/

/-- The two servers and the lines on their way, the oldest first. -/
structure KillLink where
  a : Party
  b : Party
  toA : List Sent
  toB : List Sent

/-- What happens: an operator of `a` uses KILL, a user of `b` uses NICK, a user leaves, the
oldest line arrives, a clock moves. -/
inductive KillOp where
  | kill (source : Cid) (user : CStr)
  | nick (source : Cid) (nick : CStr)
  | quitA (source : Cid)
  | quitB (source : Cid)
  | deliverA
  | deliverB
  | timeA (now : Int)
  | timeB (now : Int)

namespace KillLink

/-- `source` is a user of the server. -/
def isUserOf (p : Party) (source : Cid) : Bool :=
  decide (source ∈ p.hash) && (p.clients source).myConnect

def onA (s : KillLink) (out : Party × List Sent) : KillLink :=
  { s with a := out.1, toB := s.toB ++ out.2 }

def onB (s : KillLink) (out : Party × List Sent) : KillLink :=
  { s with b := out.1, toA := s.toA ++ out.2 }

def step (cf : KillConfig) (ts6 : Bool) (s : KillLink) : KillOp → KillLink
  | .kill source user =>
    if isUserOf s.a source then s.onA (s.a.moKill cf ts6 source user) else s
  | .nick source nick => if isUserOf s.b source then s.onB (s.b.mNick cf ts6 source nick) else s
  | .quitA source => if isUserOf s.a source then s.onA (s.a.exitClient cf ts6 source) else s
  | .quitB source => if isUserOf s.b source then s.onB (s.b.exitClient cf ts6 source) else s
  | .deliverA =>
    match s.toA with
    | [] => s
    | m :: rest => { s with toA := rest }.onA (s.a.receive cf ts6 m)
  | .deliverB =>
    match s.toB with
    | [] => s
    | m :: rest => { s with toB := rest }.onB (s.b.receive cf ts6 m)
  | .timeA now => { s with a := { s.a with currentTime := now } }
  | .timeB now => { s with b := { s.b with currentTime := now } }

end KillLink

end Ircd
