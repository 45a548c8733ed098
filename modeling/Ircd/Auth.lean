import Ircd.Address
import Ircd.Cidr
import Ircd.Lib.DList
import Ircd.Lib.Run
import Mathlib.Data.List.Perm.Subperm

/-!
The authorisation of a connection before it registers: `s_auth.c`.

Each accepted connection gets an `AuthRequest`, which waits for a DNS answer and for
an ident reply, on one list for each; whoever finds that neither is pending any more
releases the client and frees the request. The resolver and the descriptors are
modelled by what they would call back: the queries that were not deleted, and the
ident sockets that are open.

- `AuthState.step`: one event.
- `AuthState.Sound`: what is asked of the requests in every state.
- `AuthState.Keeps`: the events after which that stays so. `release_auth_client`
  reads what the client has sent, and with it other clients may exit
  (`ClientEvent`).

Notices, the log and the counters of `ServerStats` are left out.
-/

namespace Ircd

open Function

/-! ### The ident reply -/

/-- `GetValidIdent`. -/
def getValidIdent (buf : CStr) : Option CStr :=
  match strchr ':' buf with
  | none => none
  | some (remotePortString, colon1Ptr) =>
    match strchr ':' colon1Ptr with
    | none => none
    | some (kind, colon2Ptr) =>
      match strchr ',' remotePortString with
      | none => none
      | some (remote, commaPtr) =>
        if atoi remote = 0 then none
        else if atoi commaPtr = 0 then none
        else if ¬"USERID".toList <:+: kind then none
        else (strchr ':' colon2Ptr).map Prod.snd

/-- The user name that `read_auth_reply` takes from a valid reply. -/
def identUsername (s : CStr) : CStr :=
  ((((s.dropWhile fun c => c == '~' || c == '^').takeWhile (· != '@')).filter fun c =>
    !isSpace c && c != ':' && c != '[').take USERLEN)

/-! ### The state -/

/-- `struct AuthRequest`; `flags` in its three bits. -/
structure AuthRequest where
  client : Nat
  timeout : Nat
  doingAuth : Bool
  dnsPending : Bool
  crit : Bool
  deriving DecidableEq

/-- What a connection has to do with its authorisation. `dnsQuery` is the request that
the query calls back with, `unknown` is `IsUnknown`, `released` counts the calls of
`release_auth_client`. -/
structure AuthClient where
  ip : Address
  host : CStr
  username : CStr := []
  gotId : Bool := false
  unknown : Bool := true
  dnsQuery : Option Nat := none
  released : Nat := 0
  exited : Bool := false
  deriving DecidableEq

/-- The ident socket of a request: whether it is open, and what is called next. -/
inductive IdentFd where
  | closed
  | connecting
  | called
  | reading
  deriving DecidableEq

/-- A request in memory has the number of its connection as its address. `queries` are
those that the resolver has still to answer. `fault` says that a freed request was
used, or something freed or closed twice; `wrong` that a client was released while a
query of its was pending, or a second time, or after it had exited. -/
structure AuthState where
  clients : Nat → Option AuthClient
  requests : Nat → Option AuthRequest
  dnsList : DList Nat
  identList : DList Nat
  queries : List Nat
  fds : Nat → IdentFd
  nextPtr : Nat
  fault : Bool
  wrong : Bool

/-- `struct DNSReply`. -/
structure DNSReply where
  addr : Address
  hName : CStr
  deriving DecidableEq

/-- What the ident server sent: nothing yet, an error, or some text. -/
inductive Recv where
  | again
  | failed
  | text (buf : CStr)
  deriving DecidableEq

/-- How the connection to the ident server ended: with an error, also one of
`getsockname` or `send`, or with what can be read at once. -/
inductive Connected where
  | failed
  | sent (recv : Recv)
  deriving DecidableEq

/-- How `start_auth_query` goes: no socket, a connection in progress, or a call back
at once. -/
inductive IdentStart where
  | noSocket
  | inProgress
  | atOnce (result : Connected)
  deriving DecidableEq

/-- What the lines of clients do to connections: `exit_client`, or a registration. -/
inductive ClientEvent where
  | exit (c : Nat)
  | register (c : Nat)
  deriving DecidableEq

/-- The events. `lines` is what happens while a released client is read. -/
inductive AuthOp where
  | accept (ip : Address) (host : CStr) (now : Nat) (disableAuth : Bool) (ident : IdentStart)
      (dns : Option (Option DNSReply)) (lines : List ClientEvent)
  | dnsAnswer (p : Nat) (reply : Option DNSReply) (lines : List ClientEvent)
  | connected (p : Nat) (result : Connected) (lines : List ClientEvent)
  | readable (p : Nat) (recv : Recv) (lines : List ClientEvent)
  | timeoutQueries (now : Nat) (lines : Nat → List ClientEvent)
  | client (e : ClientEvent)

/-- `CONNECTTIMEOUT`. -/
def CONNECTTIMEOUT : Nat := 30

namespace AuthState

variable (s : AuthState)

def useFreed : AuthState := { s with fault := true }

/-- `MyFree(auth)`. -/
def freeRequest (p : Nat) : AuthState :=
  match s.requests p with
  | none => s.useFreed
  | some _ => { s with requests := update s.requests p none }

/-- `fd_close(&auth->fd)`. -/
def closeFd (p : Nat) : AuthState :=
  if s.fds p = .closed then s.useFreed else { s with fds := update s.fds p .closed }

/-- `delete_resolver_queries`. -/
def deleteResolverQueries (q : Nat) : AuthState := { s with queries := s.queries.filter (· ≠ q) }

def setRequest (p : Nat) (a : AuthRequest) : AuthState :=
  { s with requests := update s.requests p (some a) }

def onClient (c : Nat) (f : AuthClient → AuthClient) : AuthState :=
  { s with clients := update s.clients c ((s.clients c).map f) }

/-- The requests of `auth_doing_dns_list`. -/
def walkDns : List Nat := DList.walk s.dnsList.nodes s.nextPtr s.dnsList.head

/-- The requests of `auth_doing_ident_list`. -/
def walkIdent : List Nat := DList.walk s.identList.nodes s.nextPtr s.identList.head

/-! ### Exits -/

/-- The first loop of `delete_auth`, and whether it returned. -/
def deleteDns (c q : Nat) : List Nat → AuthState → AuthState × Bool
  | [], s => (s, false)
  | p :: ps, s =>
    match s.requests p with
    | none => (s.useFreed, true)
    | some auth =>
      if auth.client = c then
        let s := s.deleteResolverQueries q
        let s := { s with dnsList := s.dnsList.delete p }
        if auth.doingAuth then deleteDns c q ps s else (s.freeRequest p, true)
      else deleteDns c q ps s

/-- The second loop of `delete_auth`. -/
def deleteIdent (c : Nat) : List Nat → AuthState → AuthState
  | [], s => s
  | p :: ps, s =>
    match s.requests p with
    | none => s.useFreed
    | some auth =>
      if auth.client = c then
        let s := s.closeFd p
        let s := { s with identList := s.identList.delete p }
        deleteIdent c ps (s.freeRequest p)
      else deleteIdent c ps s

/-- `delete_auth`. -/
def deleteAuth (c : Nat) : AuthState :=
  match s.clients c with
  | none => s
  | some client =>
    if !client.unknown then s
    else
      match client.dnsQuery with
      | none => deleteIdent c s.walkIdent s
      | some q =>
        let (s, returned) := deleteDns c q s.walkDns s
        if returned then s else deleteIdent c s.walkIdent s

/-- `exit_client`, as far as the authorisation goes. -/
def exitClient (c : Nat) : AuthState :=
  match s.clients c with
  | none => s
  | some client =>
    if client.exited then s else (s.onClient c fun k => { k with exited := true }).deleteAuth c

/-- A client registers by a line of its, which is read after it was released. -/
def registerClient (c : Nat) : AuthState :=
  s.onClient c fun k => if k.released = 0 then k else { k with unknown := false }

def clientEvent : ClientEvent → AuthState
  | .exit c => s.exitClient c
  | .register c => s.registerClient c

/-! ### The callbacks -/

/-- `release_auth_client`, with what `read_packet` makes of the client's lines. -/
def releaseAuthClient (c : Nat) (lines : List ClientEvent) : AuthState :=
  let early := decide (c ∈ s.queries) || s.fds c != .closed ||
    (s.clients c).all fun k => k.exited || k.released != 0
  lines.foldl clientEvent
    { s.onClient c fun k => { k with released := k.released + 1 } with wrong := s.wrong || early }

/-- What the DNS reply makes of the host of the client. -/
def dnsHost (reply : Option DNSReply) (k : AuthClient) : AuthClient :=
  match reply with
  | none => k
  | some r => if r.addr = k.ip ∧ r.hName.length ≤ HOSTLEN then { k with host := r.hName } else k

/-- `auth_dns_callback`. -/
def authDnsCallback (p : Nat) (reply : Option DNSReply) (lines : List ClientEvent) : AuthState :=
  match s.requests p with
  | none => s.useFreed
  | some auth =>
    let s := { s with dnsList := s.dnsList.delete p }
    let s := s.setRequest p { auth with dnsPending := false }
    let s := s.onClient auth.client fun k => { dnsHost reply k with dnsQuery := none }
    if auth.doingAuth then s else (s.freeRequest p).releaseAuthClient auth.client lines

/-- `auth_error`. -/
def authError (p : Nat) (lines : List ClientEvent) : AuthState :=
  match s.requests p with
  | none => s.useFreed
  | some auth =>
    let s := s.closeFd p
    let s := { s with identList := s.identList.delete p }
    let s := s.setRequest p { auth with doingAuth := false }
    if !auth.dnsPending && !auth.crit then
      (s.releaseAuthClient auth.client lines).freeRequest p
    else s

/-- What the ident reply makes of the client. -/
def identReply (buf : CStr) (k : AuthClient) : AuthClient :=
  match getValidIdent buf with
  | none => k
  | some user => { k with username := identUsername user, gotId := true }

/-- `read_auth_reply`. -/
def readAuthReply (p : Nat) (recv : Recv) (lines : List ClientEvent) : AuthState :=
  match recv with
  | .again => { s with fds := update s.fds p .reading }
  | .failed => s.authError p lines
  | .text buf =>
    match s.requests p with
    | none => s.useFreed
    | some auth =>
      let s := s.onClient auth.client (identReply buf)
      let s := s.closeFd p
      let s := { s with identList := s.identList.delete p }
      let s := s.setRequest p { auth with doingAuth := false }
      if !auth.dnsPending && !auth.crit then
        (s.releaseAuthClient auth.client lines).freeRequest p
      else s

/-- `auth_connect_callback`. -/
def authConnectCallback (p : Nat) (result : Connected) (lines : List ClientEvent) : AuthState :=
  match result with
  | .failed => s.authError p lines
  | .sent recv => s.readAuthReply p recv lines

/-- `start_auth_query`. -/
def startAuthQuery (p : Nat) (auth : AuthRequest) (ident : IdentStart) : AuthState :=
  match ident with
  | .noSocket => s
  | .inProgress =>
    { s.setRequest p { auth with doingAuth := true } with
      identList := s.identList.add p
      fds := update s.fds p .connecting }
  | .atOnce result =>
    { s.setRequest p { auth with doingAuth := true } with
      identList := s.identList.add p
      fds := update s.fds p .called }.authConnectCallback p result []

/-- A connection is accepted and `start_auth` called. -/
def startAuth (ip : Address) (host : CStr) (now : Nat) (disableAuth : Bool) (ident : IdentStart)
    (dns : Option (Option DNSReply)) (lines : List ClientEvent) : AuthState :=
  let p := s.nextPtr
  let auth : AuthRequest := ⟨p, now + CONNECTTIMEOUT, false, false, true⟩
  let s := { s with
    clients := update s.clients p (some { ip := ip, host := host, dnsQuery := some p })
    requests := update s.requests p (some auth)
    nextPtr := p + 1 }
  let s := if disableAuth then s else s.startAuthQuery p auth ident
  match s.requests p with
  | none => s.useFreed
  | some auth =>
    let s := s.setRequest p { auth with dnsPending := true, crit := false }
    let s := { s with dnsList := s.dnsList.add p }
    match dns with
    | none => { s with queries := p :: s.queries }
    | some reply => s.authDnsCallback p reply lines

/-- The body of the loop of `timeout_auth_queries_event`. -/
def timeoutOne (now : Nat) (p : Nat) (auth : AuthRequest) (lines : List ClientEvent) : AuthState :=
  if auth.timeout ≤ now then
    let s := s.closeFd p
    let s :=
      if auth.dnsPending then
        let s := { s with dnsList := s.dnsList.delete p }
        let s :=
          match (s.clients auth.client).bind AuthClient.dnsQuery with
          | none => s
          | some q => s.deleteResolverQueries q
        s.onClient auth.client fun k => { k with dnsQuery := none }
      else s
    let s := { s with identList := s.identList.delete p }
    (s.releaseAuthClient auth.client lines).freeRequest p
  else s

/-- `timeout_auth_queries_event`: the list is walked with the next node read before
the body, and the node itself lies in the request. -/
def timeoutLoop (now : Nat) (lines : Nat → List ClientEvent) : Nat → Option Nat → AuthState →
    AuthState
  | 0, _, s => s
  | _ + 1, none, s => s
  | n + 1, some p, s =>
    match s.requests p with
    | none => s.useFreed
    | some auth =>
      timeoutLoop now lines n (s.identList.nodes p).next (s.timeoutOne now p auth (lines p))

/-- One event. The resolver answers a query once, unless it was deleted, and the
descriptors call back for an open socket; after a fault nothing is known any more. -/
def step (op : AuthOp) : AuthState :=
  if s.fault then s
  else
    match op with
    | .accept ip host now disableAuth ident dns lines =>
      s.startAuth ip host now disableAuth ident dns lines
    | .dnsAnswer p reply lines =>
      if p ∈ s.queries then
        { s with queries := s.queries.filter (· ≠ p) }.authDnsCallback p reply lines
      else s
    | .connected p result lines =>
      if s.fds p = .connecting then
        { s with fds := update s.fds p .called }.authConnectCallback p result lines
      else s
    | .readable p recv lines =>
      if s.fds p = .reading then
        { s with fds := update s.fds p .called }.readAuthReply p recv lines
      else s
    | .timeoutQueries now lines => timeoutLoop now lines (s.nextPtr + 1) s.identList.head s
    | .client e => s.clientEvent e

end AuthState

def AuthState.start : AuthState where
  clients := fun _ => none
  requests := fun _ => none
  dnsList := ⟨fun _ => ⟨none, none⟩, none, none⟩
  identList := ⟨fun _ => ⟨none, none⟩, none, none⟩
  queries := []
  fds := fun _ => .closed
  nextPtr := 0
  fault := false
  wrong := false

/-! ### What is asked of the authorisation -/

namespace AuthState

/-- The client waits: its request is in memory, a query of its is pending, and it was
neither released nor has it exited. -/
def Waits (s : AuthState) (c : Nat) (k : AuthClient) : Prop :=
  (s.requests c).isSome = true ∧ (c ∈ s.queries ∨ s.fds c ≠ .closed) ∧ k.released = 0 ∧
    k.exited = false

/-- The client is through: its request was freed, no query of its is pending, and it
was released once, or exited without being released. -/
def IsDone (s : AuthState) (c : Nat) (k : AuthClient) : Prop :=
  s.requests c = none ∧ c ∉ s.queries ∧ s.fds c = .closed ∧
    (k.released = 1 ∨ k.released = 0 ∧ k.exited = true)

/-- Nothing that was freed has been used; no client was released at the wrong time;
the lists hold the requests in memory whose DNS or ident query is pending, and every
client waits or is through. -/
structure Sound (s : AuthState) : Prop where
  noFault : s.fault = false
  noWrong : s.wrong = false
  dns : ∃ xs, s.dnsList.IsList xs ∧ ∀ p, p ∈ xs ↔ p ∈ s.queries
  ident : ∃ ys, s.identList.IsList ys ∧ ∀ p, p ∈ ys ↔ s.fds p ≠ .closed
  alive : ∀ p, p ∈ s.queries ∨ s.fds p ≠ .closed → (s.requests p).isSome = true
  clients : ∀ c k, s.clients c = some k → s.Waits c k ∨ s.IsDone c k

def timedOut (s : AuthState) (now p : Nat) : Bool :=
  (s.requests p).any fun a => decide (a.timeout ≤ now)

/-- No client of the list exits while the client in front of it is released; `gone`
is what the lines of the clients before have done. -/
def TimeoutsKeep (s : AuthState) (now : Nat) (lines : Nat → List ClientEvent) :
    List ClientEvent → List Nat → Prop
  | _, [] => True
  | gone, p :: ps =>
    if .exit p ∈ gone ∨ s.timedOut now p = false then s.TimeoutsKeep now lines gone ps
    else
      (∀ q, (ps.filter fun q => decide (.exit q ∉ gone)).head? = some q → .exit q ∉ lines p) ∧
        s.TimeoutsKeep now lines (gone ++ lines p) ps

/-- The event keeps the authorisation sound: in a run of `timeout_auth_queries_event`
no client whose request has timed out makes, by the lines that are read when it is
released, the client of the next request on `auth_doing_ident_list` exit. -/
def Keeps (s : AuthState) : AuthOp → Prop
  | .timeoutQueries now lines => s.TimeoutsKeep now lines [] s.walkIdent
  | _ => True

end AuthState

end Ircd
