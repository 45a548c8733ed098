import Ircd.World
import Mathlib.Data.Finset.SDiff

/-!
Users become known, change their modes and become operators (`s_user.c`).

The counters of users are raised here and lowered in `exit_client` and
`exit_one_client`, each under conditions of its own.
-/

namespace Ircd

/-- `HOSTIPLEN`. -/
def HOSTIPLEN : Nat := 53

/-- `user_modes`: the mode of a letter. -/
def userModes : Char → Option UMode
  | 'D' => some .deaf
  | 'G' => some .softcallerid
  | 'a' => some .admin
  | 'b' => some .bots
  | 'c' => some .cconn
  | 'd' => some .debug
  | 'f' => some .full
  | 'g' => some .callerid
  | 'i' => some .invisible
  | 'k' => some .skill
  | 'l' => some .locops
  | 'n' => some .nchange
  | 'o' => some .oper
  | 'r' => some .rej
  | 's' => some .servnotice
  | 'u' => some .unauth
  | 'w' => some .wallop
  | 'x' => some .external
  | 'y' => some .spy
  | 'z' => some .operwall
  | _ => none

/-- `SEND_UMODES`: the modes that servers tell each other. -/
def SEND_UMODES : Finset UMode := {.invisible, .oper, .wallop, .admin}

/-- What `oper_up` sets when the configuration names no modes. -/
def defaultOperUmodes : Finset UMode := {.servnotice, .operwall, .wallop, .locops}

/-- How the checks of `register_local_user` end: the cookie, the access rules,
the password, the number of clients, the names. -/
inductive Admission where
  /-- The client has to answer first, or a check has exited it already. -/
  | wait
  /-- `exit_client`. -/
  | reject
  /-- The connection breaks while the operators are told of the client. -/
  | broken (id : CStr)
  | allow (username host id : CStr)

/-- The privileges of an operator that `set_user_mode` and `oper_up` test. -/
structure OperPrivs where
  isOperN : Bool
  isOperAdmin : Bool

namespace World

/-! ### Registration -/

/-- The client gets the first identifier that `uid_get` makes and that is not
taken. -/
def giveId (w : World) (source : Cid) (id : CStr) : World :=
  if (w.clients source).id = [] ∧ (w.clients me).id ≠ [] then
    (w.onClient source fun x => { x with id := strlcpy id (IDLEN + 1) }).hashAddId source
  else w

/-- The end of `register_local_user`, where nothing can go wrong any more. -/
def admitLocalUser (cf : ServerConfig) (w : World) (source : Cid) : World :=
  let w := if cf.invisibleOnConnect then
      w.onClient source fun x => { x with umodes := insert .invisible x.umodes }
    else w
  let w := w.onCount fun n => { n with invisi := n.invisi + 1 }
  let w := w.onCount fun n => { n with «local» := n.local + 1 }
  let w := w.onClient source fun x => { x with status := .client, servptr := me }
  let w := w.onServ me (Serv.addUser source)
  let w := w.onCount fun n => { n with total := n.total + 1 }
  { w with
    unknownList := w.unknownList.erase source
    localClientList := source :: w.localClientList }

/-- `register_local_user`. -/
def registerLocalUser (cf : ServerConfig) (w : World) (source : Cid) : Admission → World
  | .wait => w
  | .reject => w.exitClient source
  | .broken id => w.giveId source id
  | .allow username host id =>
    let w := w.onClient source fun x => { x with username := username, host := host }
    (w.giveId source id).admitLocalUser cf source

/-- The start of `register_remote_user`, up to the search for the server. -/
def beforeLookup (w : World) (source : Cid) (username host : CStr) : World :=
  let w := w.onClient source fun x =>
    { x with host := strlcpy host (HOSTLEN + 1), username := strlcpy username (USERLEN + 1) }
  let w := w.onCount fun n => { n with total := n.total + 1 }
  w.onServ (w.clients source).from (Serv.addDepUsers 1)

/-- `register_remote_user`. -/
def registerRemoteUser (w : World) (source : Cid) (username host server : CStr) : World :=
  let w := w.beforeLookup source username host
  match w.findServer server with
  | none => w.killClient source
  | some target =>
    let w := w.onClient source fun x => { x with servptr := target }
    if (w.clients target).from ≠ (w.clients source).from then w.killClient source
    else
      let w := w.onClient source fun x => { x with status := .client }
      w.onServ target (Serv.addUser source)

/-! ### Modes of users -/

/-- One letter of `set_user_mode`. The flag says whether letters are set or
cleared. -/
def userModeChar (cf : ServerConfig) (source : Cid) (st : Bool × World) (m : Char) : Bool × World :=
  let (what, w) := st
  let x := w.clients source
  if m = '+' then (true, w)
  else if m = '-' then (false, w)
  else if m = 'o' then
    if what then
      -- only a server may set it, so a local user cannot
      if !x.myConnect && !x.isOper then
        (what, (w.onCount fun n => { n with oper := n.oper + 1 }).onClient source fun x =>
          { x with umodes := insert .oper x.umodes })
      else (what, w)
    else if !x.isOper then (what, w)
    else
      let w := w.onClient source fun x =>
        { x with umodes := (x.umodes \ {.oper, .admin}) \ cf.operOnlyUmodes }
      let w := w.onCount fun n => { n with oper := n.oper - 1 }
      (what, if x.myConnect then { w with operList := w.operList.erase source } else w)
  else if m = ' ' ∨ m = '\n' ∨ m = '\r' ∨ m = '\t' then (what, w)
  else
    match userModes m with
    | none => (what, w)
    | some flag =>
      if x.myConnect && !x.isOper && decide (flag ∈ cf.operOnlyUmodes) then (what, w)
      else
        (what, w.onClient source fun x =>
          { x with umodes := if what then insert flag x.umodes else x.umodes.erase flag })

/-- `set_user_mode`, for a client that changes its own modes. -/
def setUserMode (cf : ServerConfig) (w : World) (source : Cid) (privs : OperPrivs) (modes : CStr) :
    World :=
  let setflags := (w.clients source).umodes
  let w := (modes.foldl (userModeChar cf source) (true, w)).2
  let w :=
    if (w.clients source).myConnect && privs.isOperN then w
    else w.onClient source fun x => { x with umodes := x.umodes.erase .nchange }
  let w :=
    if (w.clients source).myConnect && !privs.isOperAdmin then
      w.onClient source fun x => { x with umodes := x.umodes.erase .admin }
    else w
  let w := if .invisible ∉ setflags ∧ (w.clients source).isInvisible then
      w.onCount fun n => { n with invisi := n.invisi + 1 }
    else w
  if .invisible ∈ setflags ∧ !(w.clients source).isInvisible then
    w.onCount fun n => { n with invisi := n.invisi - 1 }
  else w

/-- `oper_up`. -/
def operUp (cf : ServerConfig) (w : World) (source : Cid) (privs : OperPrivs) : World :=
  let w := w.onClient source fun x => { x with umodes := insert .oper x.umodes }
  let w := w.onClient source fun x =>
    { x with
      umodes := x.umodes ∪ (if cf.operUmodes = ∅ then defaultOperUmodes else cf.operUmodes) }
  let w := w.onCount fun n => { n with oper := n.oper + 1 }
  let w := { w with operList := source :: w.operList }
  let w := if privs.isOperAdmin then
      w.onClient source fun x => { x with umodes := insert .admin x.umodes }
    else w
  if privs.isOperN then w
  else w.onClient source fun x => { x with umodes := x.umodes.erase .nchange }

end World

end Ircd
