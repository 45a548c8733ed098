import Ircd.Sjoin
import Ircd.World

/-!
Who is on which channel: `channel.c`, and the commands that put a client on a
channel or take it off (`m_join.c`, `m_sjoin.c`, `m_part.c`, `m_kick.c`, and the
exit of a client).

A membership is a block of its own, which the channel lists among its members, and
among its local members when the client is connected here, and which the client
lists among its channels. A channel is in `channelTable` and in
`global_channel_list`.

What the clients are found under is left to the tables of clients: a lookup may
find any client that has not exited. The lines to the clients and to the servers,
the topic and the join flood counter are left out.
-/

namespace Ircd

open Function

/-! ### The state -/

/-- `struct Membership`. -/
structure Member where
  client : Cid
  chptr : Nat
  flags : Finset ChFlag

/-- What a `struct Channel` holds beside its lists of members. -/
structure ChannelData where
  chname : CStr
  channelts : Int
  mode : Mode := Mode.zero
  banlist : List Ban := []
  exceptlist : List Ban := []
  invexlist : List Ban := []

/-- `struct entity` of `m_join.c`. -/
structure Target where
  chptr : Option Nat
  key : Option CStr
  flags : Finset ChFlag

/-- The clients, the channels, the memberships between them and the lists of
memberships. `targets` and `join0` are what the last JOIN left in the static
variables of `m_join.c`, where `none` stands for -1. -/
structure MemberState where
  cf : Config
  ircdRandomKey : Nat
  clients : Clients
  alive : Cid → Bool := fun _ => false
  member : Nat → Option Member := fun _ => none
  chans : Nat → Option ChannelData := fun _ => none
  members : Nat → List Nat := fun _ => []
  locmembers : Nat → List Nat := fun _ => []
  channel : Cid → List Nat := fun _ => []
  channelTable : Nat → List Nat := fun _ => []
  globalChannelList : List Nat := []
  targets : List Target := []
  join0 : Option Nat := none
  nextClient : Cid := 0
  nextMember : Nat := 0
  nextChan : Nat := 0

/-- What a command finds: the clock, the tables of clients, the settings that JOIN
asks for, whether the server is split or has a lazy uplink, and the channels the
source is invited to. -/
structure MemberEnv where
  now : Int
  hashFindId : CStr → Option Cid
  findClient : CStr → Option Cid
  findServer : CStr → Option Cid
  getHistory : CStr → Option Cid
  invited : Nat → Bool
  splitmode : Bool
  noCreateOnSplit : Bool
  noJoinOnSplit : Bool
  disableLocalChannels : Bool
  maxChansPerUser : Nat
  lazyUplink : Bool

/-- The tokens of `strtoken` with a comma. -/
def commaTokens (s : CStr) : List CStr := (s.splitOnP (· == ',')).filter (· ≠ [])

/-- `IsChanPrefix`. -/
def isChanPrefix (chan : CStr) : Bool := chan.head? == some '#' || chan.head? == some '&'

/-- `IsMWildChar`. -/
def isMWildChar (c : Char) : Bool := c ∈ ['#', '*', '?']

namespace MemberState

variable (s : MemberState) (env : MemberEnv)

/-- The tables of clients. A client that has exited is in none of them. -/
def dir : Directory where
  clients := s.clients
  hashFindId name := (env.hashFindId name).filter s.alive
  findClient name := (env.findClient name).filter s.alive
  findServer name := (env.findServer name).filter s.alive
  getHistory name := (env.getHistory name).filter s.alive

/-! ### Channels -/

/-- `hash_find_channel`. -/
def hashFindChannel (name : CStr) : Option Nat :=
  (s.channelTable (strhash s.ircdRandomKey name)).find? fun ch =>
    (s.chans ch).any fun c => ircEq name c.chname

def setChannel (ch : Nat) (c : ChannelData) : MemberState :=
  { s with chans := update s.chans ch (some c) }

/-- The part of `get_or_create_channel` that makes a channel. -/
def createChannel (now : Int) (chname : CStr) : MemberState :=
  { s with
    chans := update s.chans s.nextChan (some ⟨chname, now, Mode.zero, [], [], []⟩)
    channelTable := Buckets.add s.channelTable (strhash s.ircdRandomKey chname) s.nextChan
    globalChannelList := s.nextChan :: s.globalChannelList
    nextChan := s.nextChan + 1 }

/-- `get_or_create_channel`: the channel, and whether it is new. -/
def getOrCreateChannel (now : Int) (chname : CStr) : Option (MemberState × Nat × Bool) :=
  if chname = [] ∨ CHANNELLEN < chname.length then none
  else
    match s.hashFindChannel chname with
    | some ch => some (s, ch, false)
    | none => some (s.createChannel now chname, s.nextChan, true)

/-- `destroy_channel`. -/
def destroyChannel (ch : Nat) : MemberState :=
  match s.chans ch with
  | none => s
  | some c =>
    { s with
      chans := update s.chans ch none
      channelTable := Buckets.del s.channelTable (strhash s.ircdRandomKey c.chname) ch
      globalChannelList := s.globalChannelList.erase ch }

/-- `find_channel_link`. -/
def findChannelLink (client : Cid) (ch : Nat) : Option Nat :=
  if (s.clients client).isClient then
    (s.channel client).find? fun m => (s.member m).any fun ms => ms.chptr == ch
  else none

/-- `add_user_to_channel`. -/
def addUserToChannel (ch : Nat) (who : Cid) (flags : Finset ChFlag) : MemberState :=
  { s with
    member := update s.member s.nextMember (some ⟨who, ch, flags⟩)
    members := Buckets.add s.members ch s.nextMember
    locmembers :=
      if (s.clients who).myConnect then Buckets.add s.locmembers ch s.nextMember else s.locmembers
    channel := Buckets.add s.channel who s.nextMember
    nextMember := s.nextMember + 1 }

/-- The part of `remove_user_from_channel` before the channel is looked at. -/
def unlinkMember (m : Nat) (ms : Member) : MemberState :=
  { s with
    member := update s.member m none
    members := Buckets.del s.members ms.chptr m
    locmembers :=
      if (s.clients ms.client).myConnect then Buckets.del s.locmembers ms.chptr m else s.locmembers
    channel := Buckets.del s.channel ms.client m }

/-- `remove_user_from_channel`: without members the channel is destroyed. -/
def removeUserFromChannel (m : Nat) : MemberState :=
  match s.member m with
  | none => s
  | some ms =>
    let s := s.unlinkMember m ms
    if s.members ms.chptr = [] then s.destroyChannel ms.chptr else s

/-- `remove_our_modes`. -/
def removeOurModes (ch : Nat) : MemberState :=
  { s with
    member := fun m => (s.member m).map fun ms =>
      if ms.chptr = ch then { ms with flags := ms.flags \ {.chanop, .halfop, .voice} } else ms }

/-- `can_join`: true when no numeric is sent. -/
def canJoin (source : Cid) (ch : Nat) (c : ChannelData) (key : Option CStr) : Bool :=
  let who := s.clients source
  let banned := findBmask s.cf.nicklen who c.banlist &&
    (!s.cf.channel.useExcept || !findBmask s.cf.nicklen who c.exceptlist)
  let uninvited := decide (.inviteonly ∈ c.mode.mode) && !env.invited ch &&
    (!s.cf.channel.useInvex || !findBmask s.cf.nicklen who c.invexlist)
  let badKey := !c.mode.key.isEmpty && !(key.any fun k => !k.isEmpty && ircEq c.mode.key k)
  let full := decide (c.mode.limit ≠ 0) && decide ((c.mode.limit : Nat) ≤ (s.members ch).length)
  !banned && !uninvited && !badKey && !full

/-! ### JOIN of a local client -/

/-- `is_target`: the last place of the channel among the targets, else 0. -/
def isTarget (ch : Nat) : Nat := go s.targets |>.getD 0
where
  go : List Target → Option Nat
    | [] => none
    | t :: ts =>
      match go ts with
      | some i => some (i + 1)
      | none => if t.chptr = some ch then some 0 else none

/-- The loop body of `do_join_0`: a channel is left that does not stand behind the
last 0 of the list. -/
def leaveIfBefore0 (m : Nat) : MemberState :=
  match s.member m with
  | none => s
  | some ms => if s.join0.any fun j => s.isTarget ms.chptr < j then s.removeUserFromChannel m else s

/-- `do_join_0`. -/
def doJoin0 (source : Cid) : MemberState := (s.channel source).foldl leaveIfBefore0 s

end MemberState

/-- What an entry of a channel list asks for. -/
inductive JoinEntry where
  | zero
  | chan (name : CStr)
  deriving DecidableEq

namespace MemberState

variable (s : MemberState) (env : MemberEnv)

/-- The checks of `build_target_list` on one entry, up to the search for the channel. -/
def readEntry (source : Cid) (chan : CStr) : Option JoinEntry :=
  let who := s.clients source
  if !checkChannelName chan then none
  else if chan.head? = some '0' ∧ atoi chan = 0 then some .zero
  else if !isChanPrefix chan then none
  else if env.disableLocalChannels && chan.head? == some '&' then none
  else if CHANNELLEN < chan.length then none
  else if !who.isExemptResv && !(who.isOper && s.cf.file.operPassResv) &&
      (!s.cf.hashFindResv chan) == s.cf.channel.restrictChannels then none
  else if env.maxChansPerUser ≤ (s.channel source).length ∧
      (!who.isOper ∨ env.maxChansPerUser * 3 ≤ (s.channel source).length) then none
  else some (.chan chan)

/-- A split keeps the source off this channel. -/
def splitBars (source : Cid) (chan : CStr) (rule : Bool) : Bool :=
  env.splitmode && !(s.clients source).isOper && chan.head? != some '&' && rule

/-- The channel of an entry, made if need be: `none` when the entry is dropped. -/
def entryChannel (source : Cid) (chan : CStr) : Option (MemberState × Nat × Finset ChFlag) :=
  match s.hashFindChannel chan with
  | some ch =>
    if s.splitBars env source chan env.noJoinOnSplit then none
    else some (s, ch, if (s.members ch).isEmpty then {.chanop} else ∅)
  | none =>
    if s.splitBars env source chan (env.noCreateOnSplit || env.noJoinOnSplit) then none
    else if chan.head? != some '&' && env.lazyUplink then none
    else (s.getOrCreateChannel env.now chan).map fun (s, ch, _) => (s, ch, {.chanop})

/-- The end of the loop of `build_target_list`. -/
def addTarget (source : Cid) (key : Option CStr) : JoinEntry → MemberState
  | .zero => { s with targets := s.targets ++ [⟨none, none, ∅⟩], join0 := some (s.targets.length + 1) }
  | .chan chan =>
    match s.entryChannel env source chan with
    | none => s
    | some (s, ch, flags) =>
      if s.isTarget ch ≠ 0 then s else { s with targets := s.targets ++ [⟨some ch, key, flags⟩] }

/-- The keys that the first entry and the later ones are given: `strtoken` starts
at the first key each time, and cuts the text behind it. -/
def joinKeys : Option CStr → Option CStr × Option CStr
  | none => (none, none)
  | some keys =>
    match commaTokens keys with
    | [] => (some keys, none)
    | key :: _ => (some (keys.takeWhile (· == ',') ++ key), some key)

/-- The entries of a channel list that pass the checks, with their keys. -/
def joinEntries (source : Cid) (channels : CStr) (keys : Option CStr) :
    List (JoinEntry × Option CStr) :=
  let chans := commaTokens channels
  (chans.zip ((joinKeys keys).1 :: List.replicate chans.length (joinKeys keys).2)).filterMap
    fun (chan, key) => (s.readEntry env source chan).map (·, key)

/-- `build_target_list`. -/
def buildTargetList (source : Cid) (channels : CStr) (keys : Option CStr) : MemberState :=
  (s.joinEntries env source channels keys).foldl (fun s e => s.addTarget env source e.2 e.1)
    { s with targets := [], join0 := none }

/-- One target of the loop of `m_join`. -/
def joinTarget (source : Cid) (t : Target) : MemberState :=
  match t.chptr with
  | none => s
  | some ch =>
    match s.chans ch with
    | none => s
    | some c =>
      if (s.findChannelLink source ch).isSome || !s.canJoin env source ch c t.key then s
      else
        let s := s.addUserToChannel ch source t.flags
        if .chanop ∈ t.flags then
          s.setChannel ch { c with
            channelts := env.now
            mode := { c.mode with mode := c.mode.mode ∪ {.topiclimit, .noprivmsgs} } }
        else s

/-- `m_join`. -/
def mJoin (source : Cid) (parv : List CStr) : MemberState :=
  match parv with
  | [] => s
  | channels :: keys =>
    if channels = [] then s
    else
      let s := s.buildTargetList env source channels keys.head?
      let a := s.join0.getD 0
      let s := if a ≠ 0 then s.doJoin0 source else s
      (s.targets.drop a).foldl (fun s t => s.joinTarget env source t) s

/-! ### JOIN and SJOIN of a server -/

/-- The loop over `parv[3]` of `ms_join`, with `parv[4 + args]` and those after it
in `rest`. -/
def readJoinModes : CStr → Mode → List CStr → Option Mode
  | [], mode, _ => some mode
  | 'k' :: modes, mode, rest =>
    match rest with
    | key :: rest => readJoinModes modes { mode with key := strlcpy key KEYLEN } rest
    | [] => none
  | 'l' :: modes, mode, rest =>
    match rest with
    | limit :: rest => readJoinModes modes { mode with limit := toLimit (atoi limit) } rest
    | [] => none
  | c :: modes, mode, rest =>
    readJoinModes modes { mode with mode := mode.mode ∪ (simpleModeOf c).toFinset } rest

/-- What `ms_join` and `ms_sjoin` do to the channel by the stamps. -/
def applyStamps (ch : Nat) (c : ChannelData) (rule : TsRule) (mode : Mode) : MemberState :=
  let s := s.setChannel ch { c with channelts := rule.channelts, mode := keptMode rule mode c.mode }
  if rule.keepOurModes then s else s.removeOurModes ch

/-- `ms_join`. -/
def msJoin (source : Cid) (parv : List CStr) : MemberState :=
  match parv with
  | [['0']] => s.doJoin0 source
  | ts :: chname :: modes :: rest =>
    if chname.head? = some '&' ∨ !checkChannelName chname then s
    else
      match readJoinModes modes Mode.zero rest with
      | none => s
      | some mode =>
        match s.getOrCreateChannel env.now chname with
        | none => s
        | some (s, ch, isnew) =>
          match s.chans ch with
          | none => s
          | some c =>
            let rule := tsRule isnew (effectiveTs s.cf (strtol ts) c.channelts) c.channelts
            let s := s.applyStamps ch c rule mode
            if (s.findChannelLink source ch).isSome then s else s.addUserToChannel ch source ∅
  | _ => s

/-- One word of the nick list of `ms_sjoin`. -/
def sjoinNick (client : Cid) (ch : Nat) (keepNewModes : Bool) (word : CStr) : MemberState :=
  match wordTarget (s.dir env) client word with
  | none => s
  | some target =>
    if (s.findChannelLink target ch).isSome then s
    else s.addUserToChannel ch target (keptFlags keepNewModes (readPrefix word).1)

/-- `remove_ban_list` for the three lists. -/
def clearBanLists (ch : Nat) : MemberState :=
  match s.chans ch with
  | none => s
  | some c => s.setChannel ch { c with banlist := [], exceptlist := [], invexlist := [] }

/-- `ms_sjoin`. -/
def msSjoin (client source : Cid) (parv : List CStr) : MemberState :=
  match readSjoin (s.dir env) source parv with
  | none => s
  | some args =>
    match s.getOrCreateChannel env.now args.chname with
    | none => s
    | some (s, ch, isnew) =>
      match s.chans ch with
      | none => s
      | some c =>
        let rule := tsRule isnew (effectiveTs s.cf args.newts c.channelts) c.channelts
        let s := (nickWords args.nicks).foldl (fun s word =>
          s.sjoinNick env client ch rule.keepNewModes word)
          (s.applyStamps ch c rule args.mode)
        if s.members ch = [] ∧ isnew then s.destroyChannel ch
        else if args.nicks ≠ [] ∧ (s.clients source).hasID ∧
          !rule.keepOurModes then s.clearBanLists ch
        else s

/-! ### Leaving a channel -/

/-- `part_one_client`. -/
def partOneClient (source : Cid) (name : CStr) : MemberState :=
  match s.hashFindChannel name with
  | none => s
  | some ch =>
    match s.findChannelLink source ch with
    | none => s
    | some m => s.removeUserFromChannel m

/-- `m_part`. -/
def mPart (source : Cid) (parv : List CStr) : MemberState :=
  match parv with
  | [] => s
  | names :: _ =>
    if (s.clients source).isServer || names.isEmpty then s
    else (commaTokens names).foldl (fun s name => s.partOneClient source name) s

def memberFlags (m : Option Nat) : Finset ChFlag :=
  match m.bind s.member with
  | none => ∅
  | some ms => ms.flags

/-- The first name of a list, behind the commas in front of it. -/
def firstName (names : CStr) : CStr := (names.dropWhile (· == ',')).takeWhile (· ≠ ',')

/-- The checks of `m_kick` on the source: it may kick on this channel. -/
def mayKick (source : Cid) (ch : Nat) (c : ChannelData) : Bool :=
  let who := s.clients source
  let ms := s.findChannelLink source ch
  who.isServer ||
    (!(who.myConnect && ms.isNone) &&
      (!Disjoint (s.memberFlags ms) {.chanop, .halfop} ||
        (!who.myConnect && decide (c.channelts ≠ 0))))

/-- A half operator is kept from kicking this member. -/
def halfopBarred (source : Cid) (ch : Nat) (c : ChannelData) (m : Nat) : Bool :=
  let own := if (s.clients source).isServer then ∅ else s.memberFlags (s.findChannelLink source ch)
  decide (.halfop ∈ own) && !decide (.chanop ∈ own) &&
    ((decide (.priv ∈ c.mode.mode) && decide (.halfop ∈ s.memberFlags (some m))) ||
      decide (.chanop ∈ s.memberFlags (some m)))

/-- `m_kick`. -/
def mKick (client source : Cid) (parv : List CStr) : MemberState :=
  match parv with
  | names :: users :: _ =>
    if users = [] ∨ firstName names = [] then s
    else
      match s.hashFindChannel (firstName names) with
      | none => s
      | some ch =>
        match s.chans ch with
        | none => s
        | some c =>
          if !s.mayKick source ch c || (firstName users).isEmpty then s
          else
            match findChasing (s.dir env) (s.clients client) (firstName users) with
            | none => s
            | some who =>
              match s.findChannelLink who ch with
              | none => s
              | some m => if s.halfopBarred source ch c m then s else s.removeUserFromChannel m
  | _ => s

/-- `exit_one_client`: a client leaves its channels. -/
def exitOneClient (who : Cid) : MemberState :=
  let s :=
    if (s.clients who).isClient then
      (s.channel who).foldl (fun s m => s.removeUserFromChannel m) s
    else s
  { s with alive := update s.alive who false }

end MemberState

/-! ### Runs -/

/-- What happens to the clients and channels. `introduce` and `change` stand for
what makes a client and changes its record, `data` and `flags` for MODE and its
like, which change a channel but not who is on it. -/
inductive MemberOp where
  | introduce (record : Client)
  | change (who : Cid) (record : Client)
  | data (ch : Nat) (c : ChannelData)
  | flags (m : Nat) (fl : Finset ChFlag)
  | join (env : MemberEnv) (source : Cid) (parv : List CStr)
  | remoteJoin (env : MemberEnv) (source : Cid) (parv : List CStr)
  | sjoin (env : MemberEnv) (client source : Cid) (parv : List CStr)
  | part (source : Cid) (parv : List CStr)
  | kick (env : MemberEnv) (client source : Cid) (parv : List CStr)
  | exit (who : Cid)

/-- A record that may take the place of another: the client stays connected where
it is, and stays what it has registered as. -/
def Client.Follows (new old : Client) : Prop :=
  new.myConnect = old.myConnect ∧ (old.isClient → new.isClient) ∧ (old.isServer → new.isServer)

instance (new old : Client) : Decidable (new.Follows old) :=
  inferInstanceAs (Decidable (_ ∧ _ ∧ _))

namespace MemberState

/-- One step. The handlers are called for a source that has not exited: JOIN for a
local client, the others for a client or a server. -/
def step (s : MemberState) : MemberOp → MemberState
  | .introduce record =>
    { s with
      clients := update s.clients s.nextClient record
      alive := update s.alive s.nextClient true
      nextClient := s.nextClient + 1 }
  | .change who record =>
    if s.alive who ∧ record.Follows (s.clients who) then
      { s with clients := update s.clients who record }
    else s
  | .data ch c =>
    match s.chans ch with
    | none => s
    | some old => s.setChannel ch { c with chname := old.chname }
  | .flags m fl =>
    match s.member m with
    | none => s
    | some ms => { s with member := update s.member m (some { ms with flags := fl }) }
  | .join env source parv =>
    if s.alive source ∧ (s.clients source).myClient then s.mJoin env source parv else s
  | .remoteJoin env source parv =>
    if s.alive source ∧ ((s.clients source).isClient ∨ (s.clients source).isServer) then
      s.msJoin env source parv
    else s
  | .sjoin env client source parv => if s.alive source then s.msSjoin env client source parv else s
  | .part source parv => if s.alive source then s.mPart source parv else s
  | .kick env client source parv => if s.alive source then s.mKick env client source parv else s
  | .exit who => if s.alive who then s.exitOneClient who else s

/-- The state of a server that has just started. -/
def start (cf : Config) (ircdRandomKey : Nat) : MemberState where
  cf := cf
  ircdRandomKey := ircdRandomKey
  clients := fun _ => default

/-! ### What is asked of the lists -/

/-- Where a membership stands among local members. -/
def localPlace (s : MemberState) (m : Nat) : Option Nat :=
  (s.member m).bind fun ms => if (s.clients ms.client).myConnect then some ms.chptr else none

/-- Every membership stands once in the list of members of its channel and once in
the list of channels of its client, and when the client is connected here once
among the local members; it stands nowhere else, and nothing else stands there. No
client is twice on a channel. Both ends of a membership are there, and the tables
of channels hold just the channels. -/
structure Linked (s : MemberState) : Prop where
  members : Buckets.Files s.members fun m => (s.member m).map Member.chptr
  channel : Buckets.Files s.channel fun m => (s.member m).map Member.client
  locmembers : Buckets.Files s.locmembers s.localPlace
  once : ∀ {m n x y}, s.member m = some x → s.member n = some y → x.client = y.client →
    x.chptr = y.chptr → m = n
  ends : ∀ {m x}, s.member m = some x → s.alive x.client = true ∧ s.chans x.chptr ≠ none
  table : Buckets.Files s.channelTable fun ch =>
    (s.chans ch).map fun c => strhash s.ircdRandomKey c.chname
  globalNodup : s.globalChannelList.Nodup
  global : ∀ {ch}, ch ∈ s.globalChannelList ↔ s.chans ch ≠ none

/-- The memberships are a consistent relation, and no channel is without members. -/
structure Consistent (s : MemberState) : Prop where
  linked : s.Linked
  table : ∀ k, ∀ ch ∈ s.channelTable k, s.members ch ≠ []
  global : ∀ ch ∈ s.globalChannelList, s.members ch ≠ []

end MemberState

def JoinEntry.names (name : CStr) : JoinEntry → Bool
  | .zero => false
  | .chan other => ircEq other name

namespace MemberState

variable (s : MemberState) (env : MemberEnv)

/-- An entry with this name makes a channel. -/
def makes (source : Cid) (name : CStr) : Prop :=
  s.hashFindChannel name = none ∧
    s.splitBars env source name (env.noCreateOnSplit || env.noJoinOnSplit) = false ∧
    ¬ (name.head? ≠ some '&' ∧ env.lazyUplink = true)

/-- A channel that the list makes in front of its last 0 is joined all the same: it
is the first of the list, is not named again up to the 0, and named behind it. -/
def KeepsNew (source : Cid) (entries : List JoinEntry) : Prop :=
  ∀ pre post, entries = pre ++ .zero :: post → .zero ∉ post →
    ∀ name, .chan name ∈ pre → s.makes env source name →
      (∃ first rest, pre = .chan first :: rest ∧ ircEq first name = true ∧
        ∀ e ∈ rest, e.names name = false) ∧ ∃ e ∈ post, e.names name = true

/-- The step keeps the memberships consistent: a channel list makes no channel in
front of a 0 that it does not join, no server is put on a channel twice, and none
exits that is on a channel. -/
def Keeps : MemberOp → Prop
  | .join env source parv => ∀ channels ∈ parv.head?,
      s.KeepsNew env source ((s.joinEntries env source channels parv.tail.head?).map Prod.fst)
  | .remoteJoin _ source parv => (s.clients source).isServer → ∀ name ∈ parv.tail.head?,
      ∀ ch ∈ s.hashFindChannel name, ∀ m ∈ s.members ch, ∀ x ∈ s.member m, x.client ≠ source
  | .exit who => (s.clients who).isServer → s.channel who = []
  | _ => True

end MemberState

end Ircd
