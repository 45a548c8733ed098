import Ircd.ServerMessages
import Ircd.Lib.Run

/-!
Runs of a server: what can happen to its clients, one step at a time.

A step is what `parse` and `handle_command` make of one line, or an exit for any
other reason. A connection becomes a server before it has sent a NICK.
-/

namespace Ircd

/-- The commands that only servers send. -/
inductive ServerCommand where
  | nick
  | uid
  | server
  | sid
  deriving DecidableEq, Repr

/-- The parameters that `handle_command` asks for. -/
def ServerCommand.parameters : ServerCommand → Nat
  | .nick => 1
  | .uid => 10
  | .server => 4
  | .sid => 5

/-- What can happen to the clients of a server. -/
inductive Op where
  | tick (now : Int)
  /-- A connection comes in. -/
  | connect (sockhost : CStr)
  /-- A connection is accepted as a server. -/
  | link (client : Cid) (name id : CStr)
  /-- NICK from a connection or a local user. -/
  | nick (source : Cid) (newnick : CStr)
  /-- NICK and USER have both come in. -/
  | register (source : Cid) (ad : Admission)
  /-- A line of a linked server. -/
  | message (client : Cid) (sender : CStr) (cmd : ServerCommand) (params : List CStr)
  /-- MODE of a user for itself. -/
  | userMode (source : Cid) (privs : OperPrivs) (modes : CStr)
  /-- OPER or CHALLENGE with the right answer. -/
  | oper (source : Cid) (privs : OperPrivs)
  /-- KILL, from an operator or from a server. -/
  | kill (target : Cid)
  /-- QUIT, SQUIT, an error, a ban, a timeout. -/
  | exit (target : Cid)

/-- The name and the identifier of this server. -/
structure Identity where
  name : CStr
  id : CStr
  named : name ≠ []

namespace World

def start (ircdRandomKey : Nat) (self : Identity) : World :=
  let blank : Client := { (default : Client) with flags := {.deadsocket} }
  let x : Client :=
    { (default : Client) with
      status := .me, name := self.name, id := self.id, localClient := some ⟨0, 0⟩ }
  let w : World :=
    { ircdRandomKey := ircdRandomKey, currentTime := 1
      clients := Function.update (fun _ => blank) me x
      serv := fun _ => { users := [], servers := [], depServers := 1, depUsers := 0 }
      next := 1
      clientTable := fun _ => [], idTable := fun _ => []
      globalServList := [me], servList := [], unknownList := [], localClientList := []
      operList := [], deadList := []
      count := { total := 0, invisi := 0, oper := 0, «local» := 0 }
      assertsHold := true }
  let w := w.hashAddClient me
  if self.id ≠ [] then w.hashAddId me else w

/-- The sender of a line, unless it comes from another direction. -/
def lineSource (w : World) (client : Cid) (sender : CStr) : Option Cid :=
  (if sender = [] then some client else findSender w.directory client sender).filter fun source =>
    (w.clients source).from == client

/-- `handle_command` for a line of a server. -/
def handleCommand (cf : ServerConfig) (w : World) (client source : Cid) (cmd : ServerCommand)
    (parv : List CStr) : World :=
  if parv.length < cmd.parameters then w.exitClient client
  else
    match cmd with
    | .nick => w.msNick cf client source parv
    | .uid => w.msUid cf client source parv
    | .server => w.msServer cf client source parv
    | .sid => w.msSid cf client source parv

/-- The checks of `register_local_user` can end so: an identifier that `uid_get`
gives is not taken. -/
def admissible (w : World) : Admission → Bool
  | .wait | .reject => true
  | .broken id | .allow _ _ id => (w.hashFindId (strlcpy id (IDLEN + 1))).isNone && !id.isEmpty

def step (cf : ServerConfig) (w : World) : Op → World
  | .tick now => { w with currentTime := now }
  | .connect sockhost => w.makeLocalClient sockhost
  | .link client name id =>
    let x := w.clients client
    if !x.isDefunct && x.myConnect && x.isUnknown && x.name.isEmpty && x.id.isEmpty then
      w.mrServer client name id
    else w
  | .nick source newnick =>
    let x := w.clients source
    if x.isDefunct || !x.myConnect then w
    else if x.isUnknown then w.mrNick cf source newnick
    else if x.isClient then w.mNick cf source newnick
    else w
  | .register source ad =>
    let x := w.clients source
    if !x.isDefunct && x.myConnect && x.isUnknown && !x.name.isEmpty && w.admissible ad then
      w.registerLocalUser cf source ad
    else w
  | .message client sender cmd params =>
    let x := w.clients client
    if x.isDefunct || !x.myConnect || !x.isServer then w
    else
      match w.lineSource client sender with
      | none => w
      | some source => w.handleCommand cf client source cmd ((w.clients source).name :: params)
  | .userMode source privs modes =>
    let x := w.clients source
    if !x.isDefunct && x.isClient then w.setUserMode cf source privs modes else w
  | .oper source privs =>
    let x := w.clients source
    if !x.isDefunct && x.myConnect && x.isClient && !x.isOper then w.operUp cf source privs else w
  | .kill target =>
    let x := w.clients target
    if !x.isDefunct && !x.isServer && !x.isMe then w.killClient target else w
  | .exit target =>
    let x := w.clients target
    if !x.isDead && !x.isMe then w.exitClient target else w

end World

end Ircd
