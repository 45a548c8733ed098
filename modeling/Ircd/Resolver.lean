import Ircd.DnsAnswer

/-!
The list of requests of the resolver: queries are made, answered, timed out and deleted.

A callback is code of the caller. What it does to the resolver is given with the reply or the
timeout that calls it: queries it makes and queries it deletes. The log tells when a callback
was called and when a query was deleted.
-/

namespace Ircd

/-! ### The state -/

/-- `struct DNSReply`. -/
structure DnsReply where
  hName : Option CStr
  addr : ResAddr
  deriving DecidableEq, Repr

/-- The callback of a query is called, with a reply or with `NULL`, or the query is
deleted. -/
inductive DnsEvent
  | called (query : Nat) (reply : Option DnsReply)
  | deleted (query : Nat)
  deriving DecidableEq, Repr

def DnsEvent.query : DnsEvent → Nat
  | .called q _ => q
  | .deleted q => q

/-- `request_list` with the numbers of its requests, how many requests and queries there
were, what was called and deleted so far, whether a request was used after it was freed,
`irc_domain` and `CurrentTime`. -/
structure Resolver where
  requests : List (Nat × Reslist)
  made : Nat
  queries : Nat
  log : List DnsEvent
  freed : Bool
  domain : CStr
  now : Nat

namespace Resolver

def numbers (s : Resolver) : List Nat := s.requests.map Prod.fst

def find (s : Resolver) (n : Nat) : Option Reslist := (s.requests.find? (·.1 = n)).map Prod.snd

/-- `find_id`, with the number of the request. -/
def findId (s : Resolver) (id : Nat) : Option (Nat × Reslist) := s.requests.find? (·.2.id = id)

def set (s : Resolver) (n : Nat) (request : Reslist) : Resolver :=
  { s with requests := s.requests.map fun p => if p.1 = n then (n, request) else p }

/-- `rem_request`. -/
def remRequest (s : Resolver) (n : Nat) : Resolver :=
  if n ∈ s.numbers then { s with requests := s.requests.filter (·.1 ≠ n) }
  else { s with freed := true }

/-- `make_request`, with what its caller sets. -/
def makeRequest (s : Resolver) (query : Nat) (fill : Reslist → Reslist) : Resolver :=
  let request : Reslist :=
    { id := 0, sent := 0, state := .idle, ttl := 0, type := 0, retries := 3, sends := 0,
      resend := true, sentat := s.now, timeout := 4, addr := ⟨.unspec, []⟩, name := none,
      query := query }
  { s with requests := (s.made, { fill request with query := query }) :: s.requests
           made := s.made + 1 }

end Resolver

/-! ### Sending -/

/-- What sending a query comes to: `irc_res_mkquery` fails, or there is a new id and so many
messages are sent. -/
abbrev Sending := Option (Nat × Nat)

/-- `query_name`. -/
def queryName (request : Reslist) (sending : Sending) : Reslist :=
  match sending with
  | none => request
  | some (id, sent) =>
    { request with id := id, sends := request.sends + 1, sent := request.sent + sent }

/-- `add_local_domain`. -/
def addLocalDomain (domain hname : CStr) (size : Nat) : CStr :=
  if '.' ∉ hname ∧ domain ≠ [] ∧ domain.length + hname.length + 2 < size then
    hname ++ '.' :: domain
  else hname

/-- `do_query_name` for a request on the list. -/
def doQueryName (request : Reslist) (type : Nat) (sending : Sending) : Reslist :=
  queryName { request with type := type } sending

/-- `resend_query`; for an address of a name in the newer family the older one is tried. -/
def resendQuery (request : Reslist) (sending : Sending) : Reslist :=
  if !request.resend then request
  else if request.type = T_PTR then queryName request sending
  else if request.type = T_A then doQueryName request T_A sending
  else if request.type = T_AAAA ∧ request.state = .aaaa then doQueryName request T_A sending
  else request

/-! ### Calls -/

namespace Resolver

/-- `gethost_byname_type` for some query. -/
def queryByName (s : Resolver) (query : Nat) (name : CStr) (type : Nat) (sending : Sending) :
    Resolver :=
  let hostName := addLocalDomain s.domain (strlcpy name HOSTLEN) HOSTLEN
  s.makeRequest query fun request =>
    queryName { request with
      name := some hostName, type := type, state := if type = T_A then .a else .aaaa } sending

/-- `gethost_byaddr` for some query. -/
def queryByAddr (s : Resolver) (query : Nat) (addr : ResAddr) (sending : Sending) : Resolver :=
  s.makeRequest query fun request =>
    queryName { request with type := T_PTR, addr := addr, name := some [] } sending

/-- `delete_resolver_queries`. -/
def deleteQueries (s : Resolver) (query : Nat) : Resolver :=
  { s with requests := s.requests.filter (·.2.query ≠ query)
           log := if query < s.queries then s.log ++ [.deleted query] else s.log }

end Resolver

/-- What other code does to the resolver. -/
inductive ResolverCall
  | byName (name : CStr) (type : Nat) (sending : Sending)
  | byAddr (addr : ResAddr) (sending : Sending)
  | delete (query : Nat)

namespace Resolver

/-- It is done; a query that is made is a new one. -/
def call (s : Resolver) : ResolverCall → Resolver
  | .byName name type sending =>
    { s with queries := s.queries + 1 }.queryByName s.queries name type sending
  | .byAddr addr sending => { s with queries := s.queries + 1 }.queryByAddr s.queries addr sending
  | .delete query => s.deleteQueries query

def callback (s : Resolver) (query : Nat) (reply : Option DnsReply) (does : List ResolverCall) :
    Resolver :=
  does.foldl call { s with log := s.log ++ [.called query reply] }

end Resolver

/-! ### Replies -/

/-- `SERVFAIL`. -/
def SERVFAIL : Nat := 2

/-- A reply: the packet, what its header says, whether it comes from a server of ours, what
`proc_answer` comes to if it reads behind the packet, and what sending a query comes to. -/
structure DnsPacket where
  pkt : Packet
  id : Nat
  rcode : Nat
  qdcount : Nat
  ancount : Nat
  ours : Bool
  behind : Bool × ReqState × ResAddr × Option CStr
  sending : Sending

/-- `proc_answer` with the request it leaves. -/
def DnsPacket.answer (p : DnsPacket) (request : Reslist) : Bool × Reslist :=
  match procAnswer p.pkt p.qdcount p.ancount request with
  | some e => (e.result, e.request)
  | none =>
    let (result, state, addr, name) := p.behind
    (result, { request with state := state, addr := addr, name := name })

/-- What becomes of a request by a reply. -/
inductive ReplyTurn
  | keep (request : Reslist)
  | call (request : Reslist) (reply : Option DnsReply)
  | forward (request : Reslist) (name : CStr) (type : Nat)
  | drop (request : Reslist)

/-- The part of `res_readreply` for a reply with an error or without answers. -/
def errorTurn (p : DnsPacket) (request : Reslist) : ReplyTurn :=
  if p.rcode = SERVFAIL then .keep (resendQuery request p.sending)
  else if request.state = .aaaa ∧ request.type = T_AAAA then
    .keep (resendQuery { request with timeout := request.timeout + 4 } p.sending)
  else if request.type = T_PTR ∧ request.state ≠ .int ∧ request.addr.family = .inet6 then
    .keep (resendQuery { request with
      state := .int, timeout := request.timeout + 4, retries := request.retries - 1 } p.sending)
  else .call request none

/-- `make_dnsreply`. -/
def makeDnsReply (request : Reslist) : DnsReply := ⟨request.name, request.addr⟩

/-- The part of `res_readreply` behind `proc_answer`. -/
def answeredTurn (p : DnsPacket) (request : Reslist) : ReplyTurn :=
  let (answered, request) := p.answer request
  if answered then
    if request.type = T_PTR then
      match request.name with
      | none => .call request none
      | some name =>
        .forward request name (if request.addr.family = .inet6 then T_AAAA else T_A)
    else .call request (some (makeDnsReply request))
  else if request.sent = 0 then .drop request
  else .keep request

/-- The request that a reply is for: long enough, with its id, and from a server of ours. -/
def Resolver.repliedTo (s : Resolver) (p : DnsPacket) : Option (Nat × Reslist) :=
  if p.pkt.length ≤ HFIXEDSZ then none
  else
    match s.findId p.id with
    | none => none
    | some hit => if p.ours then some hit else none

def replyTurn (p : DnsPacket) (request : Reslist) : ReplyTurn :=
  if p.rcode ≠ 0 ∨ p.ancount = 0 then errorTurn p request else answeredTurn p request

/-- `res_readreply`, with what the callback does if it is called. -/
def Resolver.readReply (s : Resolver) (p : DnsPacket) (does : List ResolverCall) : Resolver :=
  match s.repliedTo p with
  | none => s
  | some (n, request) =>
    match replyTurn p request with
    | .keep request => s.set n request
    | .call request reply => ((s.set n request).callback request.query reply does).remRequest n
    | .forward request name type =>
      ((s.set n request).queryByName request.query name type p.sending).remRequest n
    | .drop request => (s.set n request).remRequest n

/-! ### Timeouts -/

def Reslist.timedOut (request : Reslist) (now : Nat) : Bool :=
  decide (request.sentat + request.timeout ≤ now)

def Reslist.givesUp (request : Reslist) (now : Nat) : Bool :=
  request.timedOut now && decide (request.retries - 1 ≤ 0)

/-- What the callbacks of requests do that a timeout calls, and what sending them again comes
to. -/
structure TimeoutEnv where
  does : Nat → List ResolverCall
  sending : Nat → Sending

/-- A turn of the loop of `timeout_query_list`; the time it returns is used nowhere. -/
def Resolver.timeoutTurn (s : Resolver) (env : TimeoutEnv) (n : Nat) (request : Reslist) :
    Resolver :=
  if request.givesUp s.now then
    ((s.set n { request with retries := request.retries - 1 }).callback request.query none
      (env.does n)).remRequest n
  else if request.timedOut s.now then
    s.set n (resendQuery { request with
      retries := request.retries - 1
      sentat := s.now
      timeout := request.timeout + request.timeout } (env.sending n))
  else s

/-- The loop over the requests behind, of which those that were deleted are no longer linked.
`next_ptr` is read before the turn. -/
def Resolver.timeoutLoop (env : TimeoutEnv) : List Nat → Resolver → Resolver
  | [], s => s
  | n :: behind, s =>
    match s.find n with
    | none => timeoutLoop env behind s
    | some request =>
      let next := behind.find? (· ∈ s.numbers)
      let s := s.timeoutTurn env n request
      if ∀ m, next = some m → m ∈ s.numbers then timeoutLoop env behind s
      else { s with freed := true }

/-- `timeout_query_list`. -/
def Resolver.timeoutQueries (s : Resolver) (env : TimeoutEnv) : Resolver :=
  s.timeoutLoop env s.numbers

/-! ### Runs -/

/-- What can happen. -/
inductive ResolverOp
  | call (c : ResolverCall)
  | reply (p : DnsPacket) (does : List ResolverCall)
  | timeout (env : TimeoutEnv)
  | clock (now : Nat)

def Resolver.step (s : Resolver) : ResolverOp → Resolver
  | .call c => s.call c
  | .reply p does => s.readReply p does
  | .timeout env => s.timeoutQueries env
  | .clock now => { s with now := now }

def Resolver.start (domain : CStr) (now : Nat) : Resolver := ⟨[], 0, 0, [], false, domain, now⟩

end Ircd
