import Ircd.Cidr
import Ircd.Client

/-!
Channels, their members and their ban lists: the state of `channel.h` and the
functions of `channel.c` that look at it.
-/

namespace Ircd

/-- The member flags, `CHFL_CHANOP` to `CHFL_DEOPPED`, and the two flags of the
ban cache. -/
inductive ChFlag where
  | chanop
  | halfop
  | voice
  | deopped
  | banChecked
  | banSilenced
  deriving DecidableEq, Repr

/-- `struct Membership`. A membership of a directly connected client is also on
the `locmembers` list of the channel, which `onLocmembers` records. -/
structure Membership where
  client : Cid
  flags : Finset ChFlag
  onLocmembers : Bool
  deriving DecidableEq

/-- The simple channel modes, `MODE_PRIVATE` to `MODE_NOPRIVMSGS`. -/
inductive SimpleMode where
  | priv
  | secret
  | moderated
  | topiclimit
  | inviteonly
  | noprivmsgs
  deriving DecidableEq, Repr

/-- The numbers of an `unsigned int` have a zero. -/
instance neZero_limit : NeZero 4294967296 := ⟨by decide⟩

/-- `struct Mode`. -/
structure Mode where
  mode : Finset SimpleMode
  limit : Fin 4294967296
  key : CStr
  deriving DecidableEq, Inhabited

/-- `struct Ban`. -/
structure Ban where
  len : Int
  name : CStr
  username : CStr
  host : CStr
  who : CStr
  setAt : Int
  deriving DecidableEq, Repr

/-- The three mask lists of a channel, `CHFL_BAN`, `CHFL_EXCEPTION` and
`CHFL_INVEX`. -/
inductive BanType where
  | ban
  | exception
  | invex
  deriving DecidableEq, Repr

/-- `struct Channel`. -/
structure Channel where
  chname : CStr
  channelts : Int
  mode : Mode
  members : List Membership
  banlist : List Ban
  exceptlist : List Ban
  invexlist : List Ban
  deriving DecidableEq, Inhabited

/-! ### Ban checks -/

/-- One mask of `find_bmask` against a client. -/
def Ban.covers (nicklen : Nat) (bp : Ban) (who : Client) : Bool :=
  matchMask bp.name who.name && matchMask bp.username who.username &&
    (matchMask bp.host who.host || matchMask bp.host who.sockhost ||
      matchCidr nicklen bp.host who.sockhost)

/-- `find_bmask`. -/
def findBmask (nicklen : Nat) (who : Client) (list : List Ban) : Bool :=
  list.any fun bp => bp.covers nicklen who

/-- `is_banned`. -/
def isBanned (cf : Config) (chptr : Channel) (who : Client) : Bool :=
  findBmask cf.nicklen who chptr.banlist &&
    (!cf.channel.useExcept || !findBmask cf.nicklen who chptr.exceptlist)

/-! ### Members -/

/-- `find_channel_link`. -/
def findChannelLink (cl : Clients) (client : Cid) (chptr : Channel) : Option Membership :=
  if (cl client).isClient then chptr.members.find? fun ms => ms.client == client else none

/-- `add_user_to_channel`, without the join flood counter. -/
def addUserToChannel (cl : Clients) (chptr : Channel) (who : Cid) (flags : Finset ChFlag) :
    Channel :=
  { chptr with members := ⟨who, flags, (cl who).myConnect⟩ :: chptr.members }

/-- The member list part of `remove_user_from_channel`. -/
def removeUserFromChannel (chptr : Channel) (who : Cid) : Channel :=
  { chptr with members := chptr.members.filter fun ms => ms.client != who }

/-- The body of the loop of `clear_ban_cache` over `locmembers`. -/
def Membership.clearBan (ms : Membership) : Membership :=
  if ms.onLocmembers then { ms with flags := ms.flags \ {.banSilenced, .banChecked} } else ms

@[simp] theorem clearBan_client (ms : Membership) : ms.clearBan.client = ms.client := by
  unfold Membership.clearBan
  split <;> rfl

/-- `clear_ban_cache`. -/
def clearBanCache (chptr : Channel) : Channel :=
  { chptr with members := chptr.members.map Membership.clearBan }

def setMemberFlags (chptr : Channel) (who : Cid) (flags : Finset ChFlag) : Channel :=
  { chptr with
    members := chptr.members.map fun ms =>
      if ms.client = who then { ms with flags := ms.flags ∪ flags } else ms }

/-- `CAN_SEND_NO`, `CAN_SEND_NONOP` and `CAN_SEND_OPV`. -/
inductive CanSend where
  | no
  | nonop
  | opv
  deriving DecidableEq, Repr

/-- The end of `can_send`: the moderated check. -/
def canSendModerated (chptr : Channel) : CanSend :=
  if .moderated ∈ chptr.mode.mode then .no else .nonop

/-- `can_send`: the answer, and the channel with what it caches. -/
def canSend (cf : Config) (cl : Clients) (chptr : Channel) (source : Cid) : CanSend × Channel :=
  let who := cl source
  if who.isServer then (.opv, chptr)
  else if who.myClient && !who.isExemptResv && !(who.isOper && cf.file.operPassResv) &&
      (!cf.hashFindResv chptr.chname) == cf.channel.restrictChannels then (.no, chptr)
  else
    match findChannelLink cl source chptr with
    | none => if .noprivmsgs ∈ chptr.mode.mode then (.no, chptr)
      else (canSendModerated chptr, chptr)
    | some ms =>
      if .chanop ∈ ms.flags ∨ .halfop ∈ ms.flags ∨ .voice ∈ ms.flags then (.opv, chptr)
      else if cf.channel.quietOnBan && who.myClient then
        if .banSilenced ∈ ms.flags then (.no, chptr)
        else if .banChecked ∈ ms.flags then (canSendModerated chptr, chptr)
        else if isBanned cf chptr who then
          (.no, setMemberFlags chptr source {.banChecked, .banSilenced})
        else (canSendModerated chptr, setMemberFlags chptr source {.banChecked})
      else (canSendModerated chptr, chptr)

end Ircd
