import Ircd.Text
import Mathlib.Data.Finset.Basic

/-!
Clients and the configuration they are checked against.

A client is named by its place in the table of clients, as the source names it
by its pointer. The record holds the fields that the modelled functions read.
-/

namespace Ircd

abbrev Cid := Nat

/-- The status of a client, `STAT_CONNECTING` to `STAT_CLIENT`. -/
inductive Status where
  | connecting
  | handshake
  | me
  | unknown
  | server
  | client
  deriving DecidableEq, Repr

/-- The user modes, `UMODE_SERVNOTICE` to `UMODE_ADMIN`. -/
inductive UMode where
  | servnotice
  | cconn
  | rej
  | skill
  | full
  | spy
  | debug
  | nchange
  | wallop
  | operwall
  | invisible
  | bots
  | external
  | callerid
  | softcallerid
  | unauth
  | locops
  | deaf
  | oper
  | admin
  deriving DecidableEq, Repr

/-- The client flags that the modelled functions test or set. -/
inductive Flag where
  | deadsocket
  | killed
  | closing
  | exemptresv
  deriving DecidableEq, Repr

/-- `struct LocalUser`: what only a directly connected client has. -/
structure LocalUser where
  lastNickChange : Int
  numberOfNickChanges : Int
  deriving DecidableEq, Repr

/-- `struct Client`. -/
structure Client where
  status : Status
  name : CStr
  id : CStr
  username : CStr
  host : CStr
  sockhost : CStr
  tsinfo : Int
  umodes : Finset UMode
  flags : Finset Flag
  «from» : Cid
  servptr : Cid
  localClient : Option LocalUser
  deriving DecidableEq

instance : Inhabited Client where
  default :=
    { status := .unknown, name := [], id := [], username := [], host := [], sockhost := [],
      tsinfo := 0, umodes := ∅, flags := ∅, «from» := 0, servptr := 0, localClient := none }

namespace Client

/-- `IsServer`. -/
def isServer (x : Client) : Bool := x.status == .server

/-- `IsClient`. -/
def isClient (x : Client) : Bool := x.status == .client

/-- `IsUnknown`. -/
def isUnknown (x : Client) : Bool := x.status == .unknown

/-- `IsMe`. -/
def isMe (x : Client) : Bool := x.status == .me

/-- `IsDead`. -/
def isDead (x : Client) : Bool := decide (.deadsocket ∈ x.flags)

/-- `IsClosing`. -/
def isClosing (x : Client) : Bool := decide (.closing ∈ x.flags)

/-- `IsKilled`. -/
def isKilled (x : Client) : Bool := decide (.killed ∈ x.flags)

/-- `IsDefunct`. -/
def isDefunct (x : Client) : Bool := x.isDead || x.isClosing || x.isKilled

/-- `SetDead`, `SetClosing` and `SetKilled`. -/
def setFlag (x : Client) (flag : Flag) : Client := { x with flags := insert flag x.flags }

/-- `MyConnect`. -/
def myConnect (x : Client) : Bool := x.localClient.isSome

/-- `MyClient`. -/
def myClient (x : Client) : Bool := x.myConnect && x.isClient

/-- `IsInvisible`. -/
def isInvisible (x : Client) : Bool := decide (.invisible ∈ x.umodes)

/-- `IsOper`. -/
def isOper (x : Client) : Bool := decide (.oper ∈ x.umodes)

/-- `IsExemptResv`. -/
def isExemptResv (x : Client) : Bool := decide (.exemptresv ∈ x.flags)

/-- `HasID`. -/
def hasID (x : Client) : Bool := !x.id.isEmpty

/-- `ID`. -/
def ID (x : Client) : CStr := if x.hasID then x.id else x.name

end Client

abbrev Clients := Cid → Client

/-! ### Looking clients up -/

/-- What a server looks clients up in: the tables of `hash.c` and the nick
history of `whowas.c`. -/
structure Directory where
  clients : Clients
  hashFindId : CStr → Option Cid
  findClient : CStr → Option Cid
  findServer : CStr → Option Cid
  getHistory : CStr → Option Cid

/-- `IsDigit(*name)`. -/
def startsWithDigit (name : CStr) : Bool := name.head?.any isDigit

/-- `find_person`. Invisible users are not found by their identifier except by
servers. -/
def findPerson (dir : Directory) (client : Client) (name : CStr) : Option Cid :=
  (if startsWithDigit name then
    (dir.hashFindId name).filter fun c => !(dir.clients c).isInvisible || client.isServer
  else dir.findClient name).filter fun c => (dir.clients c).isClient

/-- `find_chasing`. -/
def findChasing (dir : Directory) (client : Client) (user : CStr) : Option Cid :=
  match findPerson dir client user with
  | some who => some who
  | none => if startsWithDigit user then none else dir.getHistory user

/-- The sender of a line, as `parse` looks it up. -/
def findSender (dir : Directory) (link : Cid) (sender : CStr) : Option Cid :=
  match findPerson dir (dir.clients link) sender with
  | some who => some who
  | none => dir.findServer sender

/-! ### Settings -/

/-- The settings of `ConfigChannel` that the modelled functions read. -/
structure ConfigChannel where
  useExcept : Bool
  useInvex : Bool
  quietOnBan : Bool
  restrictChannels : Bool
  maxBans : Nat
  deriving DecidableEq, Repr, Inhabited

/-- The settings of `ConfigFileEntry` that the modelled functions read. -/
structure ConfigFileEntry where
  operPassResv : Bool
  antiNickFlood : Bool
  maxNickTime : Int
  maxNickChanges : Int
  noOperFlood : Bool
  ignoreBogusTs : Bool
  deriving DecidableEq, Repr, Inhabited

/-- The configuration: `NICKLEN`, the configuration file, and the channel
reservations that `hash_find_resv` finds. -/
structure Config where
  nicklen : Nat
  channel : ConfigChannel
  file : ConfigFileEntry
  hashFindResv : CStr → Bool
  deriving Inhabited

/-- The condition of `change_local_nick`: no nick flood, or no check for one. -/
def nickChangeAllowed (cf : Config) (source : Client) (changes : Int) : Bool :=
  (cf.file.antiNickFlood && decide (changes ≤ cf.file.maxNickChanges)) || !cf.file.antiNickFlood ||
    (source.isOper && cf.file.noOperFlood)

/-- What `change_local_nick` does to the client itself at time `now`. -/
def changeLocalNickFields (cf : Config) (now : Int) (source : Client) (nick : CStr) : Client :=
  match source.localClient with
  | none => source
  | some lc =>
    let changes :=
      (if lc.lastNickChange + cf.file.maxNickTime < now then 0 else lc.numberOfNickChanges) + 1
    let source := { source with localClient := some ⟨now, changes⟩ }
    if nickChangeAllowed cf source changes then
      { source with name := nick, tsinfo := if ircEq source.name nick then source.tsinfo else now }
    else source

theorem myConnect_changeLocalNickFields (cf : Config) (now : Int) (source : Client) (nick : CStr) :
    (changeLocalNickFields cf now source nick).myConnect = source.myConnect := by
  unfold changeLocalNickFields
  split
  · rfl
  · rename_i lc hlc
    simp only [Client.myConnect, hlc]
    split_ifs <;> rfl

end Ircd
