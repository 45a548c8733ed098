import Ircd.Ban
import Ircd.ConfKlines
import Ircd.Lib.Index
import Ircd.Membership

/-!
Temporary K-, D-, G- and X-lines and RESVs: the lists `temporary_*` of `s_conf.c`
beside the structures where a ban is looked up, which are the address table, the
lists `xconf_items`, `rxconf_items`, `rkconf_items` and `nresv_items`, and the hash
table and the list of channel RESVs.

- `TempState.InStep`: a temporary item is on its temporary list exactly when it is
  found where it is looked up, and nothing refers to a freed item.
- `temp_lines_in_step_iff`: the runs in which every state is in step. A temporary
  RESV gets out of step when it expires (on a channel), is removed by UNRESV, or
  meets a rehash.
- `channel_resv_expires`: the run in which a temporary RESV of a channel expires.

An item has its address for good: the allocator gives none out again. The confs of
auth and exempt blocks, which are in the address table as well, the reasons, and
the files that the permanent lines are written to are left out, and so is the move
of a found channel RESV to the front of its chain.
-/

namespace Ircd

open Function

/-! ### Items -/

/-- The types of `ConfType` that can be temporary. -/
inductive LineType where
  | dline | kline | gline | xline | rxline | rkline | nresv | cresv
  deriving DecidableEq, Repr

/-- The lists `temporary_glines`, `temporary_klines`, `temporary_dlines`,
`temporary_xlines`, `temporary_rxlines`, `temporary_rklines` and `temporary_resv`. -/
inductive TempList where
  | glines | klines | dlines | xlines | rxlines | rklines | resv
  deriving DecidableEq, Repr

/-- The lists `xconf_items`, `rxconf_items`, `rkconf_items` and `nresv_items`. -/
inductive ItemList where
  | xconf | rxconf | rkconf | nresv
  deriving DecidableEq, Repr

/-- The list where `add_temp_line` puts an item of the type. -/
def LineType.tempList : LineType → TempList
  | .dline => .dlines
  | .kline => .klines
  | .gline => .glines
  | .xline => .xlines
  | .rxline => .rxlines
  | .rkline => .rklines
  | .nresv | .cresv => .resv

/-- The list where `make_conf_item` puts an item of the type. -/
def LineType.itemList : LineType → Option ItemList
  | .xline => some .xconf
  | .rxline => some .rxconf
  | .rkline => some .rkconf
  | .nresv => some .nresv
  | .dline | .kline | .gline | .cresv => none

/-- The types whose items are looked up in the address table, with the type of the
record. -/
def LineType.recType : LineType → Option Nat
  | .dline => some CONF_DLINE
  | .kline => some CONF_KILL
  | .gline => some CONF_GLINE
  | .xline | .rxline | .rkline | .nresv | .cresv => none

/-- A `struct ConfItem` and the item behind it. `hold` is 0 for a permanent line,
`inConf` is the `conf` of a channel RESV and the `action` of a nick RESV. -/
structure LineConf where
  type : LineType
  name : CStr := []
  user : CStr := []
  host : CStr := []
  hold : Int := 0
  temporary : Bool := false
  inConf : Bool := false
  deriving DecidableEq, Repr

def LineConf.access (c : LineConf) (i : Nat) : AccessItem := ⟨i, c.host, c.user, none, false, false⟩

/-- The bucket of the address table where a line of the host is looked up. -/
def LineConf.bucket (c : LineConf) : Nat := (recMask (confAddress (c.access 0))).hash

/-- The items in memory by their address, the address table, the lists of items, the
hash table and the list of channel RESVs, the temporary lists, and what the
configuration says of RESVs and G-lines. -/
structure TempState where
  ircdRandomKey : Nat
  minNonwildcardSimple : Int
  glineTime : Int
  heap : Nat → Option LineConf := fun _ => none
  next : Nat := 0
  table : AddressTable := AddressTable.init
  items : ItemList → List Nat := fun _ => []
  resvchannelTable : Nat → List Nat := fun _ => []
  resvChannelList : List Nat := []
  temporary : TempList → List Nat := fun _ => []

namespace TempState

variable (s : TempState)

/-! ### Making and deleting items -/

/-- `make_conf_item`, with what its caller fills in: the state with the new item at
`next`. -/
def makeConfItem (c : LineConf) : TempState :=
  { s with
    heap := update s.heap s.next (some c)
    next := s.next + 1
    items :=
      match c.type.itemList with
      | some l => update s.items l (s.next :: s.items l)
      | none => s.items }

/-- `delete_conf_item`. -/
def deleteConfItem (i : Nat) : TempState :=
  match s.heap i with
  | none => s
  | some c =>
    { s with
      heap := update s.heap i none
      items :=
        match c.type.itemList with
        | some l => update s.items l ((s.items l).erase i)
        | none => s.items }

/-- `add_conf_by_address` for a line, which has the type of its record. -/
def addAddress (c : LineConf) (i : Nat) : TempState :=
  match c.type.recType with
  | some type => { s with table := addConfByAddress s.table type (c.access i) }
  | none => s

/-- `delete_one_address_conf`, with the host of the item. A line is attached to no
client, so that it is freed at once. -/
def deleteOneAddress (i : Nat) : TempState :=
  match s.heap i with
  | none => s
  | some c =>
    if (s.table.atable (recMask c.host).hash).any fun arec => arec.aconf.ptr == i then
      { s with table := deleteOneAddressConf s.table c.host (c.access i) }.deleteConfItem i
    else s

/-- `add_temp_line`, with the hold time that its callers set before it. -/
def addTempLine (i : Nat) (hold : Int) : TempState :=
  match s.heap i with
  | none => s
  | some c =>
    let c :=
      { c with hold := hold, temporary := true, user := if c.type = .dline then [] else c.user }
    { s with
      heap := update s.heap i (some c)
      temporary := update s.temporary c.type.tempList (i :: s.temporary c.type.tempList)
      }.addAddress c i

/-- `dlinkDelete` on a temporary list. -/
def unlinkTemp (l : TempList) (i : Nat) : TempState :=
  { s with temporary := update s.temporary l ((s.temporary l).erase i) }

/-! ### RESVs -/

/-- `hash_find_resv`. -/
def hashFindResv (name : CStr) : Option Nat :=
  (s.resvchannelTable (strhash s.ircdRandomKey name)).find? fun i =>
    (s.heap i).any fun c => ircEq name c.name

/-- `find_matching_name_conf` for a nick RESV. -/
def findMatchingResv (name : CStr) : Option Nat :=
  (s.items .nresv).find? fun i => (s.heap i).any fun c => !c.name.isEmpty && matchEsc c.name name

/-- `find_exact_name_conf` for a nick RESV. -/
def findExactResv (name : CStr) : Option Nat :=
  (s.items .nresv).find? fun i => (s.heap i).any fun c => !c.name.isEmpty && ircEq c.name name

/-- `create_channel_resv`. -/
def createChannelResv (name : CStr) (inConf : Bool) : Option TempState :=
  if (s.hashFindResv name).isSome then none
  else
    let name := strlcpy name (CHANNELLEN + 1)
    let s := { s with
      resvChannelList := s.next :: s.resvChannelList
      resvchannelTable := Buckets.add s.resvchannelTable (strhash s.ircdRandomKey name) s.next }
    some (s.makeConfItem { type := .cresv, name := name, inConf := inConf })

/-- `create_nick_resv`. -/
def createNickResv (name : CStr) (inConf : Bool) : Option TempState :=
  if (s.findMatchingResv name).isSome then none
  else some (s.makeConfItem { type := .nresv, name := name, inConf := inConf })

/-- `delete_channel_resv`. -/
def deleteChannelResv (i : Nat) : TempState :=
  match s.heap i with
  | none => s
  | some c =>
    { s with
      resvchannelTable := Buckets.del s.resvchannelTable (strhash s.ircdRandomKey c.name) i
      resvChannelList := s.resvChannelList.erase i }.deleteConfItem i

/-- `valid_wild_card_simple`: the loop, with the characters counted so far. -/
def validWildCardSimple (min : Int) : Int → CStr → Bool
  | _, [] | _, ['\\'] => false
  | nonwild, '\\' :: _ :: p => nonwild + 1 == min || validWildCardSimple min (nonwild + 1) p
  | nonwild, c :: p =>
    if isMWildChar c then validWildCardSimple min nonwild p
    else nonwild + 1 == min || validWildCardSimple min (nonwild + 1) p

/-- `parse_resv` at the time `now`, for a client that is an admin or not. -/
def parseResv (isAdmin : Bool) (name : CStr) (now tklineTime : Int) : TempState :=
  let created :=
    if isChanPrefix name then s.createChannelResv name false
    else if !validWildCardSimple s.minNonwildcardSimple 0 name then none
    else if !isAdmin && name.any fun c => c ∈ ['*', '?', '#'] then none
    else s.createNickResv name false
  match created with
  | none => s
  | some t => if tklineTime ≠ 0 then t.addTempLine s.next (now + tklineTime) else t

/-- `remove_resv`. -/
def removeResv (name : CStr) : TempState :=
  if isChanPrefix name then
    match if s.resvChannelList.isEmpty then none else s.hashFindResv name with
    | none => s
    | some i => if (s.heap i).any (·.inConf) then s else s.deleteChannelResv i
  else
    match s.findExactResv name with
    | none => s
    | some i => if (s.heap i).any (·.inConf) then s else s.deleteConfItem i

/-! ### Lines -/

/-- The host of a mask, which is never empty where a line is placed: it is a middle
parameter of a message, an address, or the host of a client. -/
structure LineMask where
  user : CStr
  host : CStr
  host_ne : host ≠ []

/-- What `mo_kline`, `mo_dline`, `write_xline`, `write_rxline` and `mo_rkline` do with
a line that passed their checks: temporary with a time, permanent without. -/
def place (c : LineConf) (now tklineTime : Int) : TempState :=
  if tklineTime ≠ 0 then (s.makeConfItem c).addTempLine s.next (now + tklineTime)
  else (s.makeConfItem c).addAddress c s.next

/-- `apply_tkline` and `apply_kline`, on the item that `mo_kline`, `me_kline` and the
check for idle clients make. -/
def applyKline (mask : LineMask) (now tklineTime : Int) : TempState :=
  s.place { type := .kline, user := mask.user, host := mask.host } now tklineTime

/-- `apply_tdline` and the other branch of `mo_dline`. -/
def applyDline (mask : LineMask) (now tklineTime : Int) : TempState :=
  s.place { type := .dline, user := mask.user, host := mask.host } now tklineTime

/-- `write_xline`. -/
def writeXline (gecos : CStr) (now tklineTime : Int) : TempState :=
  s.place { type := .xline, name := collapse gecos } now tklineTime

/-- `write_rxline`, for an expression that compiles. -/
def writeRxline (gecos : CStr) (now tklineTime : Int) : TempState :=
  s.place { type := .rxline, name := gecos } now tklineTime

/-- `apply_trkline` and `apply_rkline`. -/
def applyRkline (user host : CStr) (now tklineTime : Int) : TempState :=
  s.place { type := .rkline, user := user, host := host } now tklineTime

/-- `set_local_gline`. -/
def setLocalGline (mask : LineMask) (now : Int) : TempState :=
  (s.makeConfItem { type := .gline, user := mask.user, host := mask.host }).addTempLine s.next
    (now + s.glineTime)

/-- The comparison of hosts in `remove_tkline_match`, `remove_tdline_match` and
`remove_gline_match`. -/
def sameHost (host confHost : CStr) : Bool :=
  match parseNetmask host, parseNetmask confHost with
  | .host, .host => ircEq confHost host
  | .ipv4 addr bits, .ipv4 caddr cbits => bits == cbits && matchIpv4 addr caddr bits
  | .ipv6 addr bits, .ipv6 caddr cbits => bits == cbits && matchIpv6 addr caddr bits
  | _, _ => false

/-- Take the first matching item off a temporary list, and with it what it is looked up
by. -/
def removeFirst (l : TempList) (isMatch : LineConf → Bool) (delete : TempState → Nat → TempState) :
    TempState :=
  match (s.temporary l).find? fun i => (s.heap i).any isMatch with
  | none => s
  | some i => delete (s.unlinkTemp l i) i

/-- `remove_tkline_match`. -/
def removeTklineMatch (host user : CStr) : TempState :=
  s.removeFirst .klines (fun c => ircEq user c.user && sameHost host c.host) deleteOneAddress

/-- `remove_tdline_match`. -/
def removeTdlineMatch (cidr : CStr) : TempState :=
  s.removeFirst .dlines (fun c => sameHost cidr c.host) deleteOneAddress

/-- `remove_gline_match`. -/
def removeGlineMatch (user host : CStr) : TempState :=
  s.removeFirst .glines (fun c => ircEq user c.user && sameHost host c.host) deleteOneAddress

/-- `remove_txline_match`. -/
def removeTxlineMatch (gecos : CStr) : TempState :=
  s.removeFirst .xlines (fun c => ircEq gecos c.name) deleteConfItem

/-- `remove_txline` of `m_rxline.c`. -/
def removeTxline (gecos : CStr) : TempState :=
  s.removeFirst .rxlines (fun c => gecos == c.name) deleteConfItem

/-- `remove_trkline_match`. -/
def removeTrklineMatch (host user : CStr) : TempState :=
  s.removeFirst .rklines (fun c => user == c.user && c.host == host) deleteConfItem

/-! ### Expiry -/

/-- The body of the loop of `expire_tklines`: an address line is taken out of the
address table and then off the list, every other item off the list and then deleted.
The node of an address line lies in the item, so that the source reads it after the
item is freed; here it is as it was. -/
def expireOne (now : Int) (l : TempList) (i : Nat) : TempState :=
  match s.heap i with
  | none => s
  | some c =>
    if c.hold ≤ now then
      if c.type.recType.isSome then (s.deleteOneAddress i).unlinkTemp l i
      else (s.unlinkTemp l i).deleteConfItem i
    else s

/-- `expire_tklines`. -/
def expireTklines (now : Int) (l : TempList) : TempState :=
  (s.temporary l).foldl (fun s i => s.expireOne now l i) s

/-- `cleanup_tklines` at the time `now`. -/
def cleanupTklines (now : Int) : TempState :=
  [TempList.glines, .klines, .dlines, .xlines, .rxlines, .rklines, .resv].foldl
    (fun s l => s.expireTklines now l) s

/-! ### Rehash -/

/-- The loop of `clear_out_old_conf` over one list of items. -/
def clearItems (l : ItemList) : TempState :=
  (s.items l).foldl
    (fun s i =>
      if l ≠ .nresv ∧ (s.heap i).any (·.temporary) = true then s else s.deleteConfItem i) s

/-- `ATABLE_SIZE`. -/
def ATABLE_SIZE : Nat := 0x1000

/-- `clear_out_address_conf` on one bucket. -/
def clearBucket (h : Nat) : TempState :=
  (s.table.atable h).foldl
    (fun s arec =>
      let i := arec.aconf.ptr
      if (s.heap i).any (·.temporary) then s
      else
        { s with
          table := { s.table with
            atable := update s.table.atable h
              ((s.table.atable h).eraseP fun arec => arec.aconf.ptr == i) } }.deleteConfItem i) s

/-- `clear_out_address_conf`. -/
def clearOutAddressConf : TempState :=
  (List.range ATABLE_SIZE).foldl (fun s h => s.clearBucket h) s

/-- `clear_conf_resv`. -/
def clearConfResv : TempState := s.resvChannelList.foldl (fun s i => s.deleteChannelResv i) s

/-- `clear_out_old_conf`, as far as it is about lines and RESVs. -/
def clearOutOldConf : TempState :=
  let s := [ItemList.xconf, .rxconf, .rkconf, .nresv].foldl (fun s l => s.clearItems l) s
  s.clearOutAddressConf.clearConfResv

/-- A line or a RESV in `ircd.conf` or in one of the files beside it. -/
inductive ConfLine where
  | kline (user host : CStr)
  | dline (host : CStr)
  | xline (name : CStr)
  | rxline (name : CStr)
  | rkline (user host : CStr)
  | channelResv (name : CStr) (inConf : Bool)
  | nickResv (name : CStr) (inConf : Bool)

/-- What the parser and `parse_csv_file` do with a line. -/
def readLine : ConfLine → TempState
  | .kline user host =>
    let c : LineConf := { type := .kline, user := user, host := host }
    (s.makeConfItem c).addAddress c s.next
  | .dline host =>
    let c : LineConf := { type := .dline, host := host }
    let t := s.makeConfItem c
    -- `conf_add_d_conf` takes no host names.
    match parseNetmask host with
    | .host => t.deleteConfItem s.next
    | _ => t.addAddress c s.next
  | .xline name => s.makeConfItem { type := .xline, name := name }
  | .rxline name => s.makeConfItem { type := .rxline, name := name }
  | .rkline user host => s.makeConfItem { type := .rkline, user := user, host := host }
  | .channelResv name inConf => (s.createChannelResv name inConf).getD s
  | .nickResv name inConf => (s.createNickResv name inConf).getD s

/-- A configuration that was read. -/
structure ConfText where
  minNonwildcardSimple : Int
  glineTime : Int
  lines : List ConfLine

/-- `read_conf_files` on a rehash: `none` where `ircd.conf` cannot be opened. -/
def rehash : Option ConfText → TempState
  | none => s
  | some conf =>
    conf.lines.foldl readLine { s.clearOutOldConf with
      minNonwildcardSimple := conf.minNonwildcardSimple
      glineTime := conf.glineTime }

/-! ### Runs -/

/-- What reaches the lines and the RESVs. -/
inductive TempInput where
  | applyKline (mask : LineMask) (now tklineTime : Int)
  | applyDline (mask : LineMask) (now tklineTime : Int)
  | setLocalGline (mask : LineMask) (now : Int)
  | writeXline (gecos : CStr) (now tklineTime : Int)
  | writeRxline (gecos : CStr) (now tklineTime : Int)
  | applyRkline (user host : CStr) (now tklineTime : Int)
  | parseResv (isAdmin : Bool) (name : CStr) (now tklineTime : Int)
  | removeTklineMatch (host user : CStr)
  | removeTdlineMatch (cidr : CStr)
  | removeGlineMatch (user host : CStr)
  | removeTxlineMatch (gecos : CStr)
  | removeTxline (gecos : CStr)
  | removeTrklineMatch (host user : CStr)
  | removeResv (name : CStr)
  | cleanupTklines (now : Int)
  | rehash (conf : Option ConfText)

def step : TempInput → TempState
  | .applyKline mask now tklineTime => s.applyKline mask now tklineTime
  | .applyDline mask now tklineTime => s.applyDline mask now tklineTime
  | .setLocalGline mask now => s.setLocalGline mask now
  | .writeXline gecos now tklineTime => s.writeXline gecos now tklineTime
  | .writeRxline gecos now tklineTime => s.writeRxline gecos now tklineTime
  | .applyRkline user host now tklineTime => s.applyRkline user host now tklineTime
  | .parseResv isAdmin name now tklineTime => s.parseResv isAdmin name now tklineTime
  | .removeTklineMatch host user => s.removeTklineMatch host user
  | .removeTdlineMatch cidr => s.removeTdlineMatch cidr
  | .removeGlineMatch user host => s.removeGlineMatch user host
  | .removeTxlineMatch gecos => s.removeTxlineMatch gecos
  | .removeTxline gecos => s.removeTxline gecos
  | .removeTrklineMatch host user => s.removeTrklineMatch host user
  | .removeResv name => s.removeResv name
  | .cleanupTklines now => s.cleanupTklines now
  | .rehash conf => s.rehash conf

end TempState

def TempState.start (ircdRandomKey : Nat) (minNonwildcardSimple glineTime : Int) : TempState :=
  { ircdRandomKey, minNonwildcardSimple, glineTime }

namespace TempState

variable (s : TempState)

/-! ### What is claimed of the lists -/

/-- The item is found by the structure where lines of its type are looked up. -/
def Found (i : Nat) (c : LineConf) : Prop :=
  match c.type with
  | .dline | .kline | .gline => ∃ arec ∈ s.table.atable c.bucket, arec.aconf.ptr = i
  | .xline => i ∈ s.items .xconf
  | .rxline => i ∈ s.items .rxconf
  | .rkline => i ∈ s.items .rkconf
  | .nresv => i ∈ s.items .nresv
  | .cresv => i ∈ s.resvchannelTable (strhash s.ircdRandomKey c.name)

/-- No list and no table refers to an item that is not in memory. -/
structure NoFreed : Prop where
  temporary : ∀ l, ∀ i ∈ s.temporary l, (s.heap i).isSome = true
  items : ∀ l, ∀ i ∈ s.items l, (s.heap i).isSome = true
  table : ∀ h, ∀ arec ∈ s.table.atable h, (s.heap arec.aconf.ptr).isSome = true
  resvs : ∀ h, ∀ i ∈ s.resvchannelTable h, (s.heap i).isSome = true
  channels : ∀ i ∈ s.resvChannelList, (s.heap i).isSome = true

/-- The temporary lists are in step with the structures of the lookups. -/
structure InStep : Prop where
  listed : ∀ i c, s.heap i = some c → c.temporary = true →
    (i ∈ s.temporary c.type.tempList ↔ s.Found i c)
  live : s.NoFreed

/-- No temporary item whose hold time has passed is on its list or found. -/
def NoneExpired (now : Int) : Prop :=
  ∀ i c, s.heap i = some c → c.temporary = true → c.hold ≤ now →
    i ∉ s.temporary c.type.tempList ∧ ¬s.Found i c

/-- The RESV that `remove_resv` takes. -/
def resvNamed (name : CStr) : Option Nat :=
  if isChanPrefix name then s.hashFindResv name else s.findExactResv name

def TempResv (i : Nat) (c : LineConf) : Prop :=
  s.heap i = some c ∧ c.temporary = true ∧ c.type.tempList = .resv

/-- No temporary RESV of a channel expires, none is removed by hand, and none is there
when the configuration is read again. -/
def Spares : TempInput → Prop
  | .cleanupTklines now => ∀ i c, s.TempResv i c → c.type = .cresv → now < c.hold
  | .removeResv name => ∀ i c, s.TempResv i c → s.resvNamed name ≠ some i
  | .rehash (some _) => ∀ i c, ¬s.TempResv i c
  | _ => True

end TempState

end Ircd
