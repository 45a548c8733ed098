import Ircd.NetSplit
import Ircd.Sjoin
import Ircd.World
import Ircd.Lib.Reading
import Ircd.Lib.Run

/-!
The burst of a new link: `server_estab` introduces the servers, `burst_all` the
users channel by channel and then the rest.

A line is kept as what it is about; the rest of it is what the record of that
client says. The mask lists and the topic of a channel name no client and are left
out, as are lazy links and the handshake before the burst. The states are those of
any run in which servers and users come and go (`Network.step`). The tests of names
and stamps before an introduction play no role here: without them there are only
more runs.
-/

namespace Ircd

/-! ### The state -/

/-- `struct Client`, with the away message and `FLAGS_BURSTED`. -/
structure NetClient extends Client where
  away : CStr
  bursted : Bool
  deriving DecidableEq

/-- What the burst reads and what its order depends on. -/
structure Network where
  clients : Cid → NetClient
  /-- The next pointer that `make_client` hands out. -/
  next : Cid
  globalServList : List Cid
  globalClientList : List Cid
  globalChannelList : List Channel

/-- A link with the flag `CONF_FLAGS_BURST_AWAY` of its connect block. -/
structure BurstLink extends NetLink where
  burstAway : Bool
  deriving DecidableEq, Repr

/-- A line of the burst, with whom it is about. -/
inductive BurstLine where
  /-- SID or SERVER. -/
  | server (target : Cid)
  /-- UID or NICK. -/
  | user (target : Cid)
  | away (target : Cid)
  /-- One of the SJOINs for a channel. -/
  | sjoin (chname : CStr) (members : List Membership)
  deriving DecidableEq

namespace Network

variable (s : Network)

def onClient (c : Cid) (f : NetClient → NetClient) : Network :=
  { s with clients := Function.update s.clients c (f (s.clients c)) }

/-! ### The burst -/

/-- The name of this server on the link hides a server. -/
def masked (link : BurstLink) (c : Cid) : Bool :=
  matchMask (myNameForLink (s.clients me).name link.toNetLink) (s.clients c).name

/-- The loop of `server_estab` over `global_serv_list`, for one server. -/
def serverLine (link : BurstLink) (target : Cid) : Option BurstLine :=
  if (s.clients target).from = link.ptr then none
  else if s.masked link target then none
  else some (.server target)

/-- The servers that `server_estab` introduces, from the tail of the list. -/
def burstServers (link : BurstLink) : List BurstLine :=
  s.globalServList.reverse.filterMap (s.serverLine link)

/-- `sendnick_TS`. -/
def sendnickTS (link : BurstLink) (target : Cid) : List BurstLine :=
  if !(s.clients target).isClient then []
  else
    .user target ::
      (if link.burstAway && !(s.clients target).away.isEmpty then [.away target] else [])

/-- `burst_members`, for one member. -/
def burstMember (link : BurstLink) (st : Network × List BurstLine) (ms : Membership) :
    Network × List BurstLine :=
  if (st.1.clients ms.client).bursted then st
  else
    let s := st.1.onClient ms.client fun x => { x with bursted := true }
    if (s.clients ms.client).from = link.ptr then (s, st.2)
    else (s, st.2 ++ s.sendnickTS link ms.client)

/-- `ID_or_name` for this server. -/
def myIdOrName (link : BurstLink) : CStr :=
  if link.ts6 && (s.clients me).hasID then (s.clients me).id else (s.clients me).name

/-- How `send_members` shows a member. -/
def memberWord (link : BurstLink) (ms : Membership) : CStr :=
  statusPrefix ms.flags ++
    (if link.ts6 then (s.clients ms.client).ID else (s.clients ms.client).name)

/-- What `channel_modes` looks at the link for: a server is shown the parameters. -/
def linkDirectory : Directory where
  clients := fun _ => { (default : Client) with status := .server }
  hashFindId := fun _ => none
  findClient := fun _ => none
  findServer := fun _ => none
  getHistory := fun _ => none

/-- The start of every SJOIN for a channel. -/
def burstHeader (link : BurstLink) (chptr : Channel) : CStr :=
  let (modebuf, parabuf) := channelModes linkDirectory chptr link.ptr
  sjoinHeader (s.myIdOrName link) chptr.channelts chptr.chname modebuf parabuf

/-- The loop of `send_members`: the lines that are full, the members of the open
line, and its length. -/
structure MembersLoop where
  lines : List (List Membership)
  line : List Membership
  length : Nat

/-- One turn of the loop of `send_members`. A blank follows each word. -/
def sendMember (link : BurstLink) (header : CStr) (st : MembersLoop) (ms : Membership) :
    MembersLoop :=
  let tlen := (s.memberWord link ms).length + 1
  if IRCD_BUFSIZE - 1 < st.length + tlen then
    { lines := st.lines ++ [st.line], line := [ms], length := header.length + tlen }
  else { st with line := st.line ++ [ms], length := st.length + tlen }

/-- `send_members`. -/
def sendMembers (link : BurstLink) (chptr : Channel) : List BurstLine :=
  let header := s.burstHeader link chptr
  let st := chptr.members.foldl (s.sendMember link header) ⟨[], [], header.length⟩
  (st.lines ++ [st.line]).map (.sjoin chptr.chname)

/-- `send_channel_modes`, without the mask lists. -/
def sendChannelModes (link : BurstLink) (chptr : Channel) : List BurstLine :=
  if chptr.chname.head? ≠ some '#' then [] else s.sendMembers link chptr

/-- The first loop of `burst_all`, for one channel. -/
def burstChannel (link : BurstLink) (st : Network × List BurstLine) (chptr : Channel) :
    Network × List BurstLine :=
  if chptr.members.isEmpty then st
  else
    let st := chptr.members.foldl (burstMember link) st
    (st.1, st.2 ++ st.1.sendChannelModes link chptr)

/-- The second loop of `burst_all`, for one client. -/
def burstRest (link : BurstLink) (st : Network × List BurstLine) (target : Cid) :
    Network × List BurstLine :=
  let x := st.1.clients target
  let out := if !x.bursted && x.from ≠ link.ptr then st.2 ++ st.1.sendnickTS link target else st.2
  (st.1.onClient target fun x => { x with bursted := false }, out)

/-- `burst_all`. -/
def burstAll (link : BurstLink) : Network × List BurstLine :=
  s.globalClientList.foldl (burstRest link) (s.globalChannelList.foldl (burstChannel link) (s, []))

/-- `server_estab`, up to the burst: the connection becomes a server. -/
def linkServer (c : Cid) (name id : CStr) : Network :=
  let s := s.onClient c fun x => { x with name := name, id := id, servptr := me, status := .server }
  { s with globalServList := c :: s.globalServList }

/-- `server_estab`: the state and the lines that go to the new link. -/
def serverEstab (link : BurstLink) (name id : CStr) : Network × List BurstLine :=
  let s := s.linkServer link.ptr name id
  let (s', out) := s.burstAll link
  (s', s.burstServers link ++ out)

/-! ### What else can happen -/

/-- `remove_user_from_channel`, for the channels `which`. A channel without members is
destroyed. -/
def removeFromChannels (c : Cid) (which : Channel → Bool) (chans : List Channel) : List Channel :=
  (chans.map fun ch => if which ch then removeUserFromChannel ch c else ch).filter fun ch =>
    !ch.members.isEmpty

/-- `exit_one_client`. -/
def exitOneClient (c : Cid) : Network :=
  let s := s.onClient c fun x => { x with toClient := x.toClient.setFlag .deadsocket }
  { s with
    globalServList := s.globalServList.filter (· ≠ c)
    globalClientList := s.globalClientList.filter (· ≠ c)
    globalChannelList := removeFromChannels c (fun _ => true) s.globalChannelList }

/-- `serv->users`. -/
def usersOf (c : Cid) : List Cid :=
  s.globalClientList.filter fun d => (s.clients d).isClient && (s.clients d).servptr == c

/-- `serv->servers`. -/
def serversOf (c : Cid) : List Cid :=
  s.globalServList.filter fun d => (s.clients d).isServer && (s.clients d).servptr == c

/-- `recurse_remove_clients`; `fuel` above the number of clients made is enough. -/
def recurseRemoveClients : Nat → Network → Cid → Network
  | 0, s, _ => s
  | fuel + 1, s, source =>
    let s := (s.usersOf source).foldl exitOneClient s
    (s.serversOf source).foldl (fun s c => (recurseRemoveClients fuel s c).exitOneClient c) s

/-- `exit_client`. -/
def exitClient (c : Cid) : Network :=
  if (s.clients c).isServer then (recurseRemoveClients (s.next + 1) s c).exitOneClient c
  else s.exitOneClient c

/-- `add_user_to_channel`, after `get_or_create_channel`. -/
def join (c : Cid) (chname : CStr) (channelts : Int) (flags : Finset ChFlag) : Network :=
  let ms : Membership := ⟨c, flags, (s.clients c).myConnect⟩
  if s.globalChannelList.any fun ch => ircEq ch.chname chname then
    { s with
      globalChannelList := s.globalChannelList.map fun ch =>
        if ircEq ch.chname chname && !ch.members.any (·.client == c) then
          { ch with members := ms :: ch.members }
        else ch }
  else
    { s with
      globalChannelList := { (default : Channel) with
        chname := chname, channelts := channelts, members := [ms] } :: s.globalChannelList }

/-- A client is made, with a record of which the part that the network depends on is
given. -/
def makeClient (x : NetClient) («from» servptr : Cid) (status : Status) (isLocal : Bool) :
    Network :=
  let x := { x with
    «from» := «from», servptr := servptr, status := status, flags := ∅, bursted := false
    localClient := if isLocal then some ⟨0, 0⟩ else none }
  { s with
    clients := Function.update s.clients s.next x
    next := s.next + 1
    globalClientList := s.next :: s.globalClientList
    globalServList := if status = .server then s.next :: s.globalServList else s.globalServList }

end Network

/-- What can happen in the network. The record of a client is arbitrary but for what
its place depends on. -/
inductive NetOp where
  /-- A connection comes in. -/
  | connect (x : NetClient)
  /-- NICK and USER of a connection. -/
  | register (c : Cid) (x : NetClient)
  /-- A connection becomes a server, and gets the burst. -/
  | link (link : BurstLink) (name id : CStr)
  /-- SERVER or SID of a server. -/
  | server (source : Cid) (x : NetClient)
  /-- NICK or UID for a user of a server. -/
  | user (server : Cid) (x : NetClient)
  /-- A user changes its name, its modes or its away message. -/
  | change (c : Cid) (x : NetClient)
  | join (c : Cid) (chname : CStr) (channelts : Int) (flags : Finset ChFlag)
  | part (c : Cid) (chname : CStr)
  /-- A member is opped, voiced or the reverse. -/
  | status (c : Cid) (chname : CStr) (flags : Finset ChFlag)
  /-- The stamp, the modes and the masks of a channel change. -/
  | channel (new : Channel)
  | exit (c : Cid)

namespace Network

variable (s : Network)

def isConnection (c : Cid) : Bool :=
  !(s.clients c).isDead && (s.clients c).isUnknown && (s.clients c).myConnect

/-- The record of a client, changed but for its place. -/
def changed (old new : NetClient) : NetClient :=
  { new with
    «from» := old.from, servptr := old.servptr, status := old.status, flags := old.flags
    bursted := old.bursted, localClient := old.localClient }

def step : NetOp → Network
  | .connect x => s.makeClient x s.next me .unknown true
  | .register c x =>
    if s.isConnection c then
      s.onClient c fun old => { changed old x with status := .client, servptr := me }
    else s
  | .link link name id =>
    if s.isConnection link.ptr && !name.isEmpty then (s.serverEstab link name id).1 else s
  | .server source x =>
    if !(s.clients source).isDead && (s.clients source).isServer && !x.name.isEmpty then
      s.makeClient x (s.clients source).from source .server false
    else s
  | .user server x =>
    if !(s.clients server).isDead && (s.clients server).isServer then
      s.makeClient x (s.clients server).from server .client false
    else s
  | .change c x =>
    if !(s.clients c).isDead && ((s.clients c).isClient || (s.clients c).isUnknown) then
      s.onClient c fun old => changed old x
    else s
  | .join c chname channelts flags =>
    if !(s.clients c).isDead && (s.clients c).isClient then s.join c chname channelts flags else s
  | .part c chname =>
    { s with
      globalChannelList :=
        removeFromChannels c (fun ch => ircEq ch.chname chname) s.globalChannelList }
  | .status c chname flags =>
    { s with
      globalChannelList := s.globalChannelList.map fun ch =>
        if ircEq ch.chname chname then
          { ch with
            members := ch.members.map fun ms => if ms.client = c then { ms with flags := flags }
              else ms }
        else ch }
  | .channel new =>
    { s with
      globalChannelList := s.globalChannelList.map fun ch =>
        if ircEq ch.chname new.chname then { new with chname := ch.chname, members := ch.members }
        else ch }
  | .exit c => if !(s.clients c).isDead && !(s.clients c).isMe then s.exitClient c else s

/-- The network after the start of this server. -/
def start (self : NetClient) : Network where
  clients := Function.update
    (fun _ => { (default : Client) with flags := {.deadsocket}, away := [], bursted := false }) me
    { self with
      status := .me, «from» := me, servptr := me, flags := ∅, bursted := false
      localClient := some ⟨0, 0⟩ }
  next := 1
  globalServList := [me]
  globalClientList := [me]
  globalChannelList := []

end Network

/-! ### A usable burst -/

namespace Network

def introduces : BurstLine → Option Cid
  | .server target => some target
  | .user target => some target
  | _ => none

/-- Whom a line names besides: the server of a server or a user, the clients of an
SJOIN that are not behind the link. -/
def names (s : Network) (link : BurstLink) : BurstLine → Cid → Prop
  | .server target, c => c = (s.clients target).servptr
  | .user target, c => c = (s.clients target).servptr
  | .away target, c => c = target
  | .sjoin _ members, c => (∃ ms ∈ members, ms.client = c) ∧ (s.clients c).from ≠ link.ptr

/-- The prefix of a line, or the server in a NICK. -/
def via (s : Network) (link : BurstLink) : BurstLine → Option CStr
  | .server target =>
    let source := s.clients (s.clients target).servptr
    some (if link.ts6 then source.ID else source.name)
  | .user target =>
    let source := s.clients (s.clients target).servptr
    some (if (s.clients target).hasID && link.ts6 then source.id else source.name)
  | _ => none

/-- The burst `out` to `link`, for a peer that knows the servers `known`. -/
structure UsableBurst (s : Network) (link : BurstLink) (known : Cid → Prop) (out : List BurstLine) :
    Prop where
  servers : ∀ c ∈ s.globalServList, (s.clients c).from ≠ link.ptr → s.masked link c = false →
    (out.filterMap introduces).count c = 1
  users : ∀ c, (s.clients c).isDead = false → (s.clients c).isClient = true →
    (s.clients c).from ≠ link.ptr → (out.filterMap introduces).count c = 1
  inOrder : Reading.InOrder (s.names link) introduces known out

/-- The burst that `server_estab` sends in the state `s` introduces everything once and
in order, and leaves no mark. The text that names the server of a server or of a user
is empty only in a UID, for a server without identifier. -/
structure BurstOk (known : Network → BurstLink → Cid → Prop) (s : Network) (link : BurstLink)
    (name id : CStr) : Prop where
  before : ∀ c, ((s.linkServer link.ptr name id).clients c).bursted = false
  usable : UsableBurst (s.linkServer link.ptr name id) link
    (known (s.linkServer link.ptr name id) link)
    (s.serverEstab link name id).2
  named : ∀ l ∈ (s.serverEstab link name id).2,
    (s.linkServer link.ptr name id).via link l = some [] →
      ∃ c, l = .user c ∧ ((s.linkServer link.ptr name id).clients c).hasID = true ∧
        ((s.linkServer link.ptr name id).clients
          ((s.linkServer link.ptr name id).clients c).servptr).hasID = false
  after : ∀ c, ((s.serverEstab link name id).1.clients c).bursted = false

/-- The servers that a peer takes for this one: this server, and those that its name
on the link hides (`hash_find_masked_server`, and the masked SIDs of `parse`). -/
def OursFor (u : Network) (link : BurstLink) (c : Cid) : Prop :=
  c = me ∨ (u.clients c).isServer = true ∧ u.masked link c = true

end Network

end Ircd
