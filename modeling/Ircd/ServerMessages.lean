import Ircd.NickMessages

/-!
Servers are linked and introduced (`server_estab` and `m_server.c`).

Lazy links, masked links and connections in progress are left out.
-/

namespace Ircd

/-- `IsServChar`. -/
def isServChar (c : Char) : Bool := isNickChar c || c == '*' || c == '.'

/-- `bogus_host`. -/
def bogusHost (host : CStr) : Bool := !host.all isServChar || !host.contains '.'

/-- A hub or leaf item covers a server behind a link. -/
def itemCovers (items : List (CStr × CStr)) (link name : CStr) : Bool :=
  items.any fun item => matchMask item.1 link && matchMask item.2 name

namespace World

/-- `server_exists`. -/
def serverExists (w : World) (servername : CStr) : Option Cid :=
  w.globalServList.find? fun c =>
    matchMask (w.clients c).name servername || matchMask servername (w.clients c).name

/-- `server_estab`, for a link that is configured. -/
def serverEstab (w : World) (client : Cid) : World :=
  let w := if (w.clients client).hasID then w.hashAddId client else w
  let w := w.onClient client fun x => { x with servptr := me }
  let w := w.onClient client fun x => { x with status := .server }
  let w := w.onServ me (Serv.addServer client)
  let w := { w with
    unknownList := w.unknownList.erase client
    servList := client :: w.servList
    globalServList := client :: w.globalServList }
  (w.hashAddClient client).makeServer client

/-- `mr_server`, for a connection that `check_server` accepts, that has sent PASS
with the identifier `id`, if any, and that has sent no NICK. -/
def mrServer (w : World) (client : Cid) (name id : CStr) : World :=
  if bogusHost name || decide (HOSTLEN < name.length) then w.exitClient client
  else
    let w := w.onClient client fun x => { x with id := strlcpy id (IDLEN + 1) }
    if ((w.clients me).hasID && (w.clients client).hasID &&
        (w.hashFindId (w.clients client).id).isSome) || (w.serverExists name).isSome then
      w.exitClient client
    else (w.onClient client fun x => { x with name := strlcpy name (HOSTLEN + 1) }).serverEstab
      client

/-- The end of `ms_server` and `ms_sid`: the server `w.next` behind `source`. -/
def addServer (w : World) (client source : Cid) (name id : CStr) : World :=
  let c := w.next
  let w := (w.makeClient client).makeServer c
  let w := w.onClient c fun x =>
    { x with
      name := strlcpy name (HOSTLEN + 1), id := strlcpy id (IDLEN + 1)
      servptr := source, status := .server }
  let w := { w with globalServList := c :: w.globalServList }
  let w := w.hashAddClient c
  let w := if id ≠ [] then w.hashAddId c else w
  let w := w.onServ source (Serv.addServer c)
  w.onServ client (Serv.addDepServers 1)

/-- The checks on a new server that `ms_server` and `ms_sid` share. -/
def introduceServer (cf : ServerConfig) (w : World) (client source : Cid) (name id info : CStr) :
    World :=
  if !name.contains '.' || decide (HOSTLEN < name.length) then w.exitClient client
  else if info = [] then w
  else if !itemCovers cf.hubItems (w.clients client).name name then w.exitClient source
  else if itemCovers cf.leafItems (w.clients client).name name then w.exitClient client
  else w.addServer client source name id

/-- `ms_server`. -/
def msServer (cf : ServerConfig) (w : World) (client source : Cid) (parv : List CStr) : World :=
  let name := param parv 1
  if !(w.clients source).isServer then w
  else
    match w.serverExists name with
    | some target =>
      if !ircEq (w.clients target).name name ∧ (w.clients target).from = client then w
      else w.exitClient client
    | none => w.introduceServer cf client source name [] (param parv 3)

/-- `ms_sid`. -/
def msSid (cf : ServerConfig) (w : World) (client source : Cid) (parv : List CStr) : World :=
  if !(w.clients source).isServer then w
  else if (w.hashFindId (param parv 3)).isSome then w.exitClient client
  else if (w.serverExists (param parv 1)).isSome then w.exitClient client
  else w.introduceServer cf client source (param parv 1) (param parv 3) (param parv 4)

end World

end Ircd
