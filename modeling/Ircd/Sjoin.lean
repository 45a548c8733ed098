import Ircd.Channel
import Ircd.Line
import Mathlib.Data.Char
import Mathlib.Data.Finset.Lattice.Basic
import Mathlib.Data.Finset.Option
import Mathlib.Data.List.Lex
import Mathlib.Order.Fin.Basic

/-!
`m_sjoin.c`: how a server takes a burst of users into a channel, decides by the
time stamps whose modes stay, and relays what it took.
-/

namespace Ircd

/-- `KEYLEN`. -/
def KEYLEN : Nat := 24

/-- `CHANNELLEN`. -/
def CHANNELLEN : Nat := 50

/-- `MAXMODEPARAMS`. -/
def MAXMODEPARAMS : Nat := 4

/-! ### Modes as text -/

def SimpleMode.letter : SimpleMode → Char
  | .noprivmsgs => 'n'
  | .topiclimit => 't'
  | .secret => 's'
  | .moderated => 'm'
  | .inviteonly => 'i'
  | .priv => 'p'

/-- The table `flags` of `m_sjoin.c`. -/
def sjoinFlags : List SimpleMode :=
  [.noprivmsgs, .topiclimit, .secret, .moderated, .inviteonly, .priv]

/-- The table `flags` of `channel_mode.c`. -/
def channelFlags : List SimpleMode :=
  [.inviteonly, .moderated, .noprivmsgs, .priv, .secret, .topiclimit]

def simpleModeOf (c : Char) : Option SimpleMode := sjoinFlags.find? fun f => f.letter == c

/-- No modes: what a zeroed `struct Mode` holds. -/
def Mode.zero : Mode := ⟨∅, 0, []⟩

/-- The conversion of an `int` to the `unsigned int` of a limit. -/
def toLimit (v : Int) : Fin 4294967296 := (BitVec.ofInt 32 v).toFin

/-- A limit as the `int` that `%d` prints. -/
def limitToInt (limit : Fin 4294967296) : Int := (BitVec.ofFin limit : BitVec 32).toInt

/-- The loop over `parv[3]`, with `parv[4 + args]` and those after it in
`rest`. It gives up when no parameter is left for the nick list. -/
def readModes : CStr → Mode → List CStr → Option (Mode × List CStr)
  | [], mode, rest => some (mode, rest)
  | 'k' :: s, mode, rest =>
    match rest with
    | key :: nicks :: rest =>
      readModes s { mode with key := strlcpy key KEYLEN } (nicks :: rest)
    | _ => none
  | 'l' :: s, mode, rest =>
    match rest with
    | limit :: nicks :: rest =>
      readModes s { mode with limit := toLimit (atoi limit) } (nicks :: rest)
    | _ => none
  | c :: s, mode, rest =>
    readModes s { mode with mode := mode.mode ∪ (simpleModeOf c).toFinset } rest

/-- The text of a limit and of a key as parameters. -/
def modeParams (limit : Fin 4294967296) (key : CStr) : List CStr :=
  (if limit = 0 then [] else [dText (limitToInt limit)]) ++ (if key = [] then [] else [key])

/-- `set_final_mode`: what it writes to `modebuf` and to `parabuf`. -/
def setFinalMode (mode old : Mode) : CStr × CStr :=
  let minus :=
    (sjoinFlags.filter fun f => decide (f ∈ old.mode) && !decide (f ∈ mode.mode)).map
        SimpleMode.letter ++
      (if old.limit ≠ 0 ∧ mode.limit = 0 then ['l'] else []) ++
      (if old.key ≠ [] ∧ mode.key = [] then ['k'] else [])
  let plus :=
    (sjoinFlags.filter fun f => decide (f ∈ mode.mode) && !decide (f ∈ old.mode)).map
        SimpleMode.letter ++
      (if mode.limit ≠ 0 ∧ old.limit ≠ mode.limit then ['l'] else []) ++
      (if mode.key ≠ [] ∧ old.key ≠ mode.key then ['k'] else [])
  ((if minus = [] then [] else '-' :: minus) ++ (if plus = [] then [] else '+' :: plus),
    words ((if old.key ≠ [] ∧ mode.key = [] then [old.key] else []) ++
      (if mode.limit ≠ 0 ∧ old.limit ≠ mode.limit then [dText (limitToInt mode.limit)] else []) ++
      (if mode.key ≠ [] ∧ old.key ≠ mode.key then [mode.key] else [])))

/-- `channel_modes` for a client that may see the parameters or not. -/
def channelModes (dir : Directory) (chptr : Channel) (client : Cid) : CStr × CStr :=
  let shown := (findChannelLink dir.clients client chptr).isSome || (dir.clients client).isServer
  let limit : CStr :=
    if chptr.mode.limit ≠ 0 ∧ shown then words [dText (limitToInt chptr.mode.limit)] else []
  ('+' :: (channelFlags.filter fun f => decide (f ∈ chptr.mode.mode)).map SimpleMode.letter ++
      (if chptr.mode.limit ≠ 0 then ['l'] else []) ++ (if chptr.mode.key ≠ [] then ['k'] else []),
    limit ++ if chptr.mode.key ≠ [] ∧ shown then words [chptr.mode.key] else [])

/-! ### Time stamps -/

/-- The stamp that is used when `ignore_bogus_ts` is set. -/
def effectiveTs (cf : Config) (newts oldts : Int) : Int :=
  if cf.file.ignoreBogusTs && decide (newts < 800000000) then
    if oldts = 0 then 0 else 800000000
  else newts

/-- What the stamps decide. -/
structure TsRule where
  channelts : Int
  tstosend : Int
  keepOurModes : Bool
  keepNewModes : Bool
  deriving DecidableEq

/-- The decision of `ms_sjoin` between the stamp of the message and the one of
the channel. -/
def tsRule (isnew : Bool) (newts oldts : Int) : TsRule :=
  if isnew then ⟨newts, newts, true, true⟩
  else if newts = 0 ∨ oldts = 0 then ⟨0, 0, true, true⟩
  else if newts = oldts then ⟨oldts, oldts, true, true⟩
  else if newts < oldts then ⟨newts, newts, false, true⟩
  else ⟨oldts, oldts, true, false⟩

def keptMode (rule : TsRule) (mode old : Mode) : Mode :=
  if !rule.keepNewModes then old
  else if rule.keepOurModes then
    { mode := mode.mode ∪ old.mode
      limit := if mode.limit < old.limit then old.limit else mode.limit
      key := if mode.key < old.key then old.key else mode.key }
  else mode

/-- `remove_our_modes`. -/
def removeOurModes (chptr : Channel) : Channel :=
  { chptr with
    members := chptr.members.map fun ms =>
      { ms with flags := ms.flags \ {.chanop, .halfop, .voice} } }

/-! ### Channels -/

/-- `IsChanChar`: anything but NUL, ^G, a blank and a comma. -/
def isChanChar (c : Char) : Bool := c.toNat != 0 && c.toNat != 7 && c != ' ' && c != ','

/-- `check_channel_name`. -/
def checkChannelName (name : CStr) : Bool := name.all isChanChar

/-- `get_or_create_channel`, given what `hash_find_channel` finds. -/
def getOrCreateChannel (now : Int) (chname : CStr) (found : Option Channel) :
    Option (Channel × Bool) :=
  if chname = [] ∨ CHANNELLEN < chname.length then none
  else
    match found with
    | some chptr => some (chptr, false)
    | none => some (⟨chname, now, Mode.zero, [], [], [], []⟩, true)

/-! ### The nick list -/

def nickWords (s : CStr) : List CStr := (s.splitOnP (· == ' ')).filter (· ≠ [])

def readPrefix : CStr → Finset ChFlag × CStr
  | '@' :: s => (insert .chanop (readPrefix s).1, (readPrefix s).2)
  | '%' :: s => (insert .halfop (readPrefix s).1, (readPrefix s).2)
  | '+' :: s => (insert .voice (readPrefix s).1, (readPrefix s).2)
  | s => (∅, s)

/-- The prefixes as they are relayed. -/
def statusPrefix (fl : Finset ChFlag) : CStr :=
  (if .chanop ∈ fl then ['@'] else []) ++ (if .halfop ∈ fl then ['%'] else []) ++
    (if .voice ∈ fl then ['+'] else [])

/-- The member flags that stay of the prefixes of a nick. -/
def keptFlags (keepNewModes : Bool) (fl : Finset ChFlag) : Finset ChFlag :=
  if keepNewModes then fl else if .chanop ∈ fl ∨ .halfop ∈ fl then {.deopped} else ∅

/-- The member that a word of the nick list introduces: a client behind the
server the message comes from. -/
def wordTarget (dir : Directory) (client : Cid) (word : CStr) : Option Cid :=
  (findChasing dir (dir.clients client) (readPrefix word).2).filter fun target =>
    (dir.clients target).from == client && (dir.clients target).isClient

/-! ### The relay -/

def bufText (buf : CStr) : CStr := buf.takeWhile (· ≠ '\x00')

/-- Write a text and its NUL at the start of a static buffer. -/
def putText (buf text : CStr) : CStr := text ++ '\x00' :: buf.drop (text.length + 1)

/-- The static `modebuf` while the nick list is read: its bytes, the place
`mbuf` and the count `pargs`. -/
structure ModeBuf where
  bytes : CStr
  mbuf : Nat
  pargs : Nat
  deriving DecidableEq

/-- `*mbuf++ = c`. -/
def ModeBuf.put (mb : ModeBuf) (c : Char) : ModeBuf :=
  { mb with bytes := mb.bytes.set mb.mbuf c, mbuf := mb.mbuf + 1 }

/-- A letter for a member that gets the status, and the end of the line for the
local members after `MAXMODEPARAMS` of them. -/
def ModeBuf.status (mb : ModeBuf) (letter : Char) : ModeBuf :=
  let mb := mb.put letter
  if MAXMODEPARAMS ≤ mb.pargs + 1 then
    { bytes := (mb.bytes.set mb.mbuf '\x00').set 0 '+', mbuf := 1, pargs := 0 }
  else { mb with pargs := mb.pargs + 1 }

/-- The letters of the status a member gets. -/
def ModeBuf.statuses (mb : ModeBuf) (fl : Finset ChFlag) : ModeBuf :=
  let mb := if .chanop ∈ fl then mb.status 'o' else mb
  let mb := if .halfop ∈ fl then mb.status 'h' else mb
  if .voice ∈ fl then mb.status 'v' else mb

/-- `":%s SJOIN %lu %s %s %s:"`. -/
def sjoinHeader (source : CStr) (tstosend : Int) (chname modebuf parabuf : CStr) : CStr :=
  ':' :: source ++ ' ' :: "SJOIN".toList ++
    ' ' :: (words [luText (toULong tstosend), chname, modebuf] ++ (parabuf ++ [':']))

/-- `nick_buf` or `uid_buf` with the lines already sent from it. -/
structure Relay where
  buf : CStr
  sent : List CStr
  deriving DecidableEq

/-- A word is added, on a new line when it does not fit. -/
def Relay.add (r : Relay) (header word : CStr) : Relay :=
  if IRCD_BUFSIZE - 2 < r.buf.length + word.length then
    ⟨header ++ word ++ [' '], r.sent ++ [r.buf]⟩
  else ⟨r.buf ++ word ++ [' '], r.sent⟩

/-- What stays the same while the nick list is read. -/
structure SjoinHead where
  client : Cid
  source : Cid
  tstosend : Int
  chname : CStr
  parabuf : CStr
  keepNewModes : Bool

/-- The state of the loop over the nick list. -/
structure SjoinLoop where
  chptr : Channel
  modebuf : ModeBuf
  nick : Relay
  uid : Relay

/-- The two headers with what `modebuf` holds now. -/
def SjoinHead.header (hd : SjoinHead) (source : CStr) (modebuf : ModeBuf) : CStr :=
  sjoinHeader source hd.tstosend hd.chname (bufText modebuf.bytes) hd.parabuf

/-- The loop body for a word that names a member. -/
def sjoinMember (dir : Directory) (hd : SjoinHead) (st : SjoinLoop) (target : Cid)
    (fl : Finset ChFlag) : SjoinLoop :=
  let who := dir.clients target
  let source := dir.clients hd.source
  { nick := st.nick.add (hd.header source.name st.modebuf) (statusPrefix fl ++ who.name)
    uid := st.uid.add (hd.header source.ID st.modebuf) (statusPrefix fl ++ who.ID)
    chptr :=
      if (findChannelLink dir.clients target st.chptr).isSome then st.chptr
      else addUserToChannel dir.clients st.chptr target fl
    modebuf := st.modebuf.statuses fl }

/-- The loop body. A word that names nobody behind the server is skipped. -/
def sjoinNick (dir : Directory) (hd : SjoinHead) (st : SjoinLoop) (word : CStr) : SjoinLoop :=
  match wordTarget dir hd.client word with
  | none => st
  | some target => sjoinMember dir hd st target (keptFlags hd.keepNewModes (readPrefix word).1)

/-! ### The command -/

/-- What a server has while it handles a message: settings, clients, the clock,
which is set, and the bytes left in the static `modebuf`. -/
structure SjoinEnv where
  cf : Config
  dir : Directory
  now : Int
  modebuf : CStr
  clockSet : now ≠ 0

/-- What `ms_sjoin` leaves: the channel, and the lines for the other servers
with and without `CAP_TS6`. -/
structure SjoinResult where
  chan : Option Channel
  uidLines : List CStr
  nickLines : List CStr
  deriving DecidableEq

/-- The ban lists go with our modes when the server has an identifier. -/
def removeBanLists (chptr : Channel) : Channel :=
  clearBanCache { chptr with banlist := [], exceptlist := [], invexlist := [] }

/-- What `modebuf` and `parabuf` hold before the header is printed. -/
def sjoinBuffers (env : SjoinEnv) (source : Cid) (rule : TsRule) (modes : CStr) (old : Mode)
    (chptr : Channel) : CStr × CStr :=
  let final := setFinalMode chptr.mode old
  let modebuf := putText env.modebuf final.1
  if modes.head? ≠ some '0' ∧ rule.keepNewModes then
    let texts := channelModes env.dir chptr source
    (putText modebuf texts.1, texts.2)
  else (putText modebuf ['0'], final.2)

/-- The channel after the stamps and the modes, before the nick list. -/
def sjoinChannel (rule : TsRule) (mode : Mode) (chptr : Channel) : Channel :=
  let chptr' := { chptr with channelts := rule.channelts, mode := keptMode rule mode chptr.mode }
  if rule.keepOurModes then chptr' else removeOurModes chptr'

/-- What `ms_sjoin` reads from its parameters: the stamp, the channel, the mode
string with the modes it sets, and the nick list. -/
structure SjoinArgs where
  newts : Int
  chname : CStr
  modes : CStr
  mode : Mode
  nicks : CStr
  deriving DecidableEq

/-- The checks and the loop over `parv[3]` at the start of `ms_sjoin`. -/
def readSjoin (dir : Directory) (source : Cid) (parv : List CStr) : Option SjoinArgs :=
  match parv with
  | ts :: chname :: modes :: nicks :: rest =>
    if (dir.clients source).isClient || chname.head? != some '#' || !checkChannelName chname then
      none
    else
      (readModes modes Mode.zero (nicks :: rest)).map fun (mode, left) =>
        ⟨strtol ts, chname, modes, mode, left.headD []⟩
  | _ => none

/-- The decision between a burst and a channel. -/
def sjoinRule (env : SjoinEnv) (newts : Int) (chptr : Channel) (isnew : Bool) : TsRule :=
  tsRule isnew (effectiveTs env.cf newts chptr.channelts) chptr.channelts

/-- The part of `ms_sjoin` behind the creation of the channel. -/
def sjoinBody (env : SjoinEnv) (client source : Cid) (args : SjoinArgs) (chptr : Channel)
    (isnew : Bool) : SjoinResult :=
  let rule := sjoinRule env args.newts chptr isnew
  let chptr' := sjoinChannel rule args.mode chptr
  let bufs := sjoinBuffers env source rule args.modes chptr.mode chptr'
  let hd : SjoinHead := ⟨client, source, rule.tstosend, chptr.chname, bufs.2, rule.keepNewModes⟩
  let who := env.dir.clients source
  let mb : ModeBuf := ⟨bufs.1, 0, 0⟩
  let st := (nickWords args.nicks).foldl (sjoinNick env.dir hd)
    ⟨chptr', mb.put '+', ⟨hd.header who.name mb, []⟩, ⟨hd.header who.ID mb, []⟩⟩
  if st.chptr.members = [] ∧ isnew then
    ⟨none, st.uid.sent.map sendFormat, st.nick.sent.map sendFormat⟩
  else if args.nicks = [] then
    ⟨some st.chptr, st.uid.sent.map sendFormat, st.nick.sent.map sendFormat⟩
  else
    ⟨some (if who.hasID && !rule.keepOurModes then removeBanLists st.chptr else st.chptr),
      (st.uid.sent ++ [st.uid.buf.dropLast]).map sendFormat,
      (st.nick.sent ++ [st.nick.buf.dropLast]).map sendFormat⟩

/-- `ms_sjoin`, given the channel that `hash_find_channel` finds for `parv[2]`. -/
def msSjoin (env : SjoinEnv) (client source : Cid) (parv : List CStr) (chan : Option Channel) :
    SjoinResult :=
  match readSjoin env.dir source parv with
  | none => ⟨chan, [], []⟩
  | some args =>
    match getOrCreateChannel env.now args.chname chan with
    | none => ⟨chan, [], []⟩
    | some (chptr, isnew) => sjoinBody env client source args chptr isnew

end Ircd
