import Ircd.Client
import Ircd.Line
import Ircd.Cidr
import Ircd.Match
import Ircd.Lib.Buckets

/-!
The clients of a server, the tables they are found in, and how a client exits.

A client is filed in `clientTable` under its name, in `idTable` under its
identifier, and in the list of users or of servers of the server it is behind
(its `servptr`). `exit_client` takes it out of all of them, first taking out
everything that depends on it when it is a server.

The state keeps what these functions read and write. A pointer that was not
handed out yet stands for a dead client. Moving a client found to the front of
its chain changes no later search and is left out, as are the notices to
operators and the lines sent to other servers. The memberships of a client are
part of the channel model and do not occur here.
-/

namespace Ircd

open Function

/-! ### Names -/

/-- `FNV1_32_INIT`. -/
def FNV1_32_INIT : Nat := 0x811c9dc5

/-- `strhash`, with the key that the process drew at its start. -/
def strhash (ircdRandomKey : Nat) (name : CStr) : Nat :=
  if name.isEmpty then 0
  else
    let hval := name.foldl (fun hval c =>
      (hval + ((hval <<< 1) + (hval <<< 4) + (hval <<< 7) + (hval <<< 8) + (hval <<< 24))) %
        4294967296 ^^^ ((toLower c).toNat ^^^ ircdRandomKey)) FNV1_32_INIT
    (hval >>> 16) ^^^ (hval &&& 0xffff)

theorem strhash_eq_of_ircEq {key : Nat} {a b : CStr} (h : ircEq a b = true) :
    strhash key a = strhash key b := by
  have hlen : a.isEmpty = b.isEmpty := by
    have := congrArg List.length (ircEq_iff.mp h)
    simp only [List.length_map] at this
    cases a <;> cases b <;> simp_all
  have hfold : ∀ s : CStr, ∀ n : Nat, s.foldl (fun hval c =>
      (hval + ((hval <<< 1) + (hval <<< 4) + (hval <<< 7) + (hval <<< 8) + (hval <<< 24))) %
        4294967296 ^^^ ((toLower c).toNat ^^^ key)) n =
      (s.map toLower).foldl (fun hval c =>
        (hval + ((hval <<< 1) + (hval <<< 4) + (hval <<< 7) + (hval <<< 8) + (hval <<< 24))) %
          4294967296 ^^^ (c.toNat ^^^ key)) n := fun s n => by
    rw [List.foldl_map]
  simp only [strhash, hlen, hfold, map_toLower_of_ircEq h]

/-- `IRC_MAXSID`. -/
def IRC_MAXSID : Nat := 3

/-- `IsNickChar`: `-`, the digits, and `A` to `}`. -/
def isNickChar (c : Char) : Bool := c == '-' || isDigit c || (decide ('A' ≤ c) && decide (c ≤ '}'))

/-- `clean_nick_name`. -/
def cleanNickName (nick : CStr) (isLocal : Bool) : Bool :=
  match nick with
  | [] => false
  | c :: _ => c != '-' && !(isDigit c && isLocal) && nick.all isNickChar

/-! ### The state -/

/-- `struct Server`. -/
structure Serv where
  users : List Cid
  servers : List Cid
  depServers : Int
  depUsers : Int

namespace Serv

/-- `dlinkAdd` to the users of a server. -/
def addUser (c : Cid) (s : Serv) : Serv := { s with users := c :: s.users }

/-- `dlinkDelete` from the users of a server. -/
def delUser (c : Cid) (s : Serv) : Serv := { s with users := s.users.erase c }

/-- `dlinkAdd` to the servers of a server. -/
def addServer (c : Cid) (s : Serv) : Serv := { s with servers := c :: s.servers }

/-- `dlinkDelete` from the servers of a server. -/
def delServer (c : Cid) (s : Serv) : Serv := { s with servers := s.servers.erase c }

/-- `dep_users` grows by `n`. -/
def addDepUsers (n : Int) (s : Serv) : Serv := { s with depUsers := s.depUsers + n }

/-- `dep_servers` grows by `n`. -/
def addDepServers (n : Int) (s : Serv) : Serv := { s with depServers := s.depServers + n }

end Serv

/-- `struct Counter`, the counters of users. -/
structure Count where
  total : Int
  invisi : Int
  oper : Int
  «local» : Int
  deriving DecidableEq

/-- The settings that registration and the introduction of servers read. -/
structure ServerConfig extends Config where
  invisibleOnConnect : Bool
  operUmodes : Finset UMode
  operOnlyUmodes : Finset UMode
  /-- `hub_items`: the name of a link and the mask of the servers behind it. -/
  hubItems : List (CStr × CStr)
  /-- `leaf_items`. -/
  leafItems : List (CStr × CStr)
  /-- `find_matching_name_conf(NRESV_TYPE, nick, ..)` finds a reservation. -/
  nickResv : CStr → Bool

/-- The state of a server. -/
structure World where
  ircdRandomKey : Nat
  currentTime : Int
  clients : Clients
  /-- `client->serv`, made by `make_server`. -/
  serv : Cid → Serv
  /-- The next pointer that `make_client` hands out. -/
  next : Cid
  clientTable : Nat → List Cid
  idTable : Nat → List Cid
  globalServList : List Cid
  servList : List Cid
  unknownList : List Cid
  localClientList : List Cid
  operList : List Cid
  deadList : List Cid
  count : Count
  /-- No assertion about the dependency counters has failed. -/
  assertsHold : Bool

/-- `&me`. -/
def me : Cid := 0

namespace World

def onClient (w : World) (c : Cid) (f : Client → Client) : World :=
  { w with clients := update w.clients c (f (w.clients c)) }

def onServ (w : World) (c : Cid) (f : Serv → Serv) : World :=
  { w with serv := update w.serv c (f (w.serv c)) }

def onCount (w : World) (f : Count → Count) : World := { w with count := f w.count }

/-- `assert`. -/
def assert (w : World) (p : Prop) [Decidable p] : World :=
  { w with assertsHold := w.assertsHold && decide p }

/-! ### The hash tables -/

/-- `hash_add_client`. -/
def hashAddClient (w : World) (c : Cid) : World :=
  { w with
    clientTable := Buckets.add w.clientTable (strhash w.ircdRandomKey (w.clients c).name) c }

/-- `hash_del_client`. -/
def hashDelClient (w : World) (c : Cid) : World :=
  { w with
    clientTable := Buckets.del w.clientTable (strhash w.ircdRandomKey (w.clients c).name) c }

/-- `hash_add_id`. -/
def hashAddId (w : World) (c : Cid) : World :=
  { w with idTable := Buckets.add w.idTable (strhash w.ircdRandomKey (w.clients c).id) c }

/-- `hash_del_id`. -/
def hashDelId (w : World) (c : Cid) : World :=
  { w with idTable := Buckets.del w.idTable (strhash w.ircdRandomKey (w.clients c).id) c }

/-- `find_client`. -/
def findClient (w : World) (name : CStr) : Option Cid :=
  (w.clientTable (strhash w.ircdRandomKey name)).find? fun c => ircEq name (w.clients c).name

/-- `hash_find_id`. -/
def hashFindId (w : World) (name : CStr) : Option Cid :=
  (w.idTable (strhash w.ircdRandomKey name)).find? fun c => ircEq name (w.clients c).id

/-- The masks `*.rest` that `hash_find_masked_server` tries, one for each dot. -/
def maskedNames : CStr → List CStr
  | [] => []
  | c :: s => if c = '.' then ('*' :: '.' :: s) :: maskedNames s else maskedNames s

/-- `hash_find_masked_server`. -/
def hashFindMaskedServer (w : World) (name : CStr) : Option Cid :=
  if name.head?.any fun c => c == '*' || c == '.' then none
  else (maskedNames (strlcpy name (HOSTLEN + 1))).findSome? w.findClient

/-- The search of `find_server` in its chain. -/
def findServerName (w : World) (name : CStr) : Option Cid :=
  (w.clientTable (strhash w.ircdRandomKey name)).find? fun c =>
    ((w.clients c).isServer || (w.clients c).isMe) && ircEq name (w.clients c).name

/-- `find_server`. -/
def findServer (w : World) (name : CStr) : Option Cid :=
  let byId := if startsWithDigit name && name.length == IRC_MAXSID then w.hashFindId name else none
  (byId.or (w.findServerName name)).or (w.hashFindMaskedServer name)

/-- What this server looks clients up in. -/
def directory (w : World) : Directory where
  clients := w.clients
  hashFindId := w.hashFindId
  findClient := w.findClient
  findServer := w.findServer
  getHistory := fun _ => none

/-! ### Making and unmaking clients -/

/-- `make_client(NULL)`: a connection from `sockhost`. -/
def makeLocalClient (w : World) (sockhost : CStr) : World :=
  { w with
    clients := update w.clients w.next
      { (default : Client) with
        username := "unknown".toList, host := sockhost, sockhost := sockhost,
        «from» := w.next, localClient := some ⟨0, 0⟩ }
    next := w.next + 1
    unknownList := w.next :: w.unknownList }

/-- `make_client(from)`: the client `w.next`. -/
def makeClient (w : World) («from» : Cid) : World :=
  { w with
    clients := update w.clients w.next
      { (default : Client) with username := "unknown".toList, «from» := «from» }
    next := w.next + 1 }

/-- The name of a client changes along with its place in the table: the end of
`nick_from_server`, `set_initial_nick` and `change_local_nick`. -/
def rename (w : World) (c : Cid) (nick : CStr) : World :=
  let w := if (w.clients c).name ≠ [] then w.hashDelClient c else w
  let w := w.onClient c fun x => { x with name := nick }
  w.hashAddClient c

/-- `make_server`. -/
def makeServer (w : World) (c : Cid) : World :=
  w.onServ c fun _ => { users := [], servers := [], depServers := 1, depUsers := 0 }

/-- `update_client_exit_stats`. -/
def updateClientExitStats (w : World) (c : Cid) : World :=
  let x := w.clients c
  if x.isServer then w
  else if x.isClient then
    w.onCount fun n =>
      { n with
        total := n.total - 1
        oper := if x.isOper then n.oper - 1 else n.oper
        invisi := if x.isInvisible then n.invisi - 1 else n.invisi }
  else w

/-- The branch of `exit_one_client` for a server. -/
def unlinkServer (w : World) (c : Cid) : World :=
  let x := w.clients c
  let w := w.onServ x.servptr (Serv.delServer c)
  let w := { w with globalServList := w.globalServList.erase c }
  if x.myConnect then w
  else
    let w := w.onServ x.from (Serv.addDepServers (-1))
    w.assert (0 < (w.serv x.from).depServers)

/-- The branch of `exit_one_client` for a user. -/
def unlinkUser (w : World) (c : Cid) : World :=
  let x := w.clients c
  let w := w.onServ x.servptr (Serv.delUser c)
  if x.myConnect then w
  else
    let w := w.onServ x.from (Serv.addDepUsers (-1))
    w.assert (0 ≤ (w.serv x.from).depUsers)

/-- The first half of `exit_one_client`: the client leaves its server. -/
def leaveServer (w : World) (c : Cid) : World :=
  let x := w.clients c
  if x.isServer then w.unlinkServer c
  else if x.isClient then w.unlinkUser c
  else w

/-- `exit_one_client`. -/
def exitOneClient (w : World) (c : Cid) : World :=
  let w := w.leaveServer c
  let w := if (w.clients c).hasID then w.hashDelId c else w
  let w := if (w.clients c).name ≠ [] then w.hashDelClient c else w
  let w := w.updateClientExitStats c
  let w := w.onClient c fun x => x.setFlag .deadsocket
  { w with deadList := c :: w.deadList }

/-- `recurse_remove_clients`. A server is never behind one that was made later,
so `fuel` above the number of clients made is enough. An exit takes a client out
of the list that is walked and leaves the rest of it alone, so the walk is one
over the list as it was. -/
def recurseRemoveClients : Nat → World → Cid → World
  | 0, w, _ => w
  | fuel + 1, w, source =>
    let w := (w.serv source).users.foldl exitOneClient w
    let w := (w.serv source).servers.foldl
      (fun w c => (recurseRemoveClients fuel w c).exitOneClient c) w
    w.assert ((w.serv source).depServers = 1 ∧ (w.serv source).depUsers = 0)

/-- The first half of `exit_client`, for a client with a connection. -/
def closeLocal (w : World) (c : Cid) : World :=
  let x := w.clients c
  let w := w.onClient c fun x => x.setFlag .closing
  let w :=
    if !(x.isServer || x.isClient) then { w with unknownList := w.unknownList.erase c }
    else if x.isClient then
      { w.onCount fun n => { n with «local» := n.local - 1 } with
        operList := if x.isOper then w.operList.erase c else w.operList
        localClientList := w.localClientList.erase c }
    else w
  if x.isServer then { w with servList := w.servList.erase c } else w

/-- `exit_client`. -/
def exitClient (w : World) (c : Cid) : World :=
  let x := w.clients c
  if x.myConnect && x.isClosing then w
  else
    let w := if x.myConnect then w.closeLocal c else w
    let w := if x.isServer then recurseRemoveClients (w.next + 1) w c else w
    w.exitOneClient c

/-- `SetKilled`, then `exit_client`. -/
def killClient (w : World) (c : Cid) : World :=
  (w.onClient c fun x => x.setFlag .killed).exitClient c

end World

end Ircd
