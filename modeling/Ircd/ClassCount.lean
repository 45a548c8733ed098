import Ircd.AddressConf
import Ircd.Lib.Counters

/-!
The connection classes and what counts them: `attach_conf`, `detach_conf`,
`cidr_limit_reached`, `remove_from_cidr_check`, and what a rehash does to the
classes.

- `ClassState.Exact`: each class counts its clients, and so do its CIDR blocks.
- `Sound.step`: what one step keeps.
- `class_counts_exact`: the runs in which the counts stay right.
-/

namespace Ircd

open Function List
open Bytes (clearLow value)
open Counters (Counter bump release Counts Covers)

/-! ### CIDR blocks of a class -/

/-- `struct ClassItem`, with its name; `list_ipv4` and `list_ipv6` hold a
`struct CidrItem` for each block. -/
structure ClassItem where
  name : CStr
  maxTotal : Int
  currUserCount : Int := 0
  numberPerCidr : Int
  cidrBitlenIpv4 : Nat
  cidrBitlenIpv6 : Nat
  listIpv4 : List (Counter InAddr) := []
  listIpv6 : List (Counter In6Addr) := []

/-- `mask_addr` of an IPv4 address. -/
def maskAddr4 (bits : Nat) (a : InAddr) : InAddr :=
  Bytes.Block.ofList 4 (htonl (clearLow (32 - bits) (value a.bytes)))

/-- `mask_addr` of an IPv6 address. The loop that is to clear the bytes behind the
prefix clears the last byte of the prefix each time; without a byte behind, that
byte is masked. -/
def maskAddr6 (bits : Nat) (a : In6Addr) : In6Addr :=
  let n := bits / 8
  Bytes.Block.ofList 16
    (a.bytes.set n (if n < 15 then 0 else clearLow (8 - bits % 8) (a.bytes.getD n 0)))

/-- The list part of `cidr_limit_reached`: `none` when the limit is reached. A new
block comes to the head of the list. -/
def countIn {β : Type} (overRule : Bool) (limit : Int) (hit : β → Bool) (fresh : β)
    (blocks : List (Counter β)) : Option (List (Counter β)) :=
  match blocks.find? fun b => hit b.mask with
  | some b => if !overRule && decide (limit ≤ b.number) then none else some (bump hit blocks)
  | none => some (⟨fresh, 1⟩ :: blocks)

/-- `cidr_limit_reached`: `none` when the limit is reached, else the class with the
address counted. -/
def cidrLimitReached (overRule : Bool) (ip : QueryAddr) (c : ClassItem) : Option ClassItem :=
  if c.numberPerCidr ≤ 0 then some c
  else
    match ip with
    | .inet a =>
      if c.cidrBitlenIpv4 = 0 then some c
      else
        (countIn overRule c.numberPerCidr (fun m => matchIpv4 a m c.cidrBitlenIpv4)
          (maskAddr4 c.cidrBitlenIpv4 a) c.listIpv4).map fun list => { c with listIpv4 := list }
    | .inet6 a =>
      if c.cidrBitlenIpv6 = 0 then some c
      else
        (countIn overRule c.numberPerCidr (fun m => matchIpv6 a m c.cidrBitlenIpv6)
          (maskAddr6 c.cidrBitlenIpv6 a) c.listIpv6).map fun list => { c with listIpv6 := list }

/-- `remove_from_cidr_check`. -/
def removeFromCidrCheck (ip : QueryAddr) (c : ClassItem) : ClassItem :=
  if c.numberPerCidr = 0 then c
  else
    match ip with
    | .inet a =>
      if c.cidrBitlenIpv4 = 0 then c
      else { c with listIpv4 := release (fun m => matchIpv4 a m c.cidrBitlenIpv4) c.listIpv4 }
    | .inet6 a =>
      if c.cidrBitlenIpv6 = 0 then c
      else { c with listIpv6 := release (fun m => matchIpv6 a m c.cidrBitlenIpv6) c.listIpv6 }

/-! ### Confs, connections and classes -/

/-- The conf types that are attached to connections. -/
inductive ConfType where
  | client
  | oper
  | server
  | hub
  | leaf
  deriving DecidableEq, Repr

/-- A conf: its address, and the address of its class. -/
structure ClassConf where
  ptr : Nat
  type : ConfType
  classPtr : Nat
  exemptLimits : Bool
  deriving DecidableEq, Repr

/-- A local connection. -/
structure Conn where
  id : Nat
  ip : QueryAddr

/-- A conf on the list `confs` of a connection. -/
structure Attachment where
  conn : Conn
  conf : ClassConf

/-- The classes by their address, the list `class_items` with the default class at
its end, the confs that are not illegal, the connections of `local_client_list`,
and what is attached, the most recent first. -/
structure ClassState where
  classes : Nat → Option ClassItem
  classItems : List Nat
  legal : List ClassConf := []
  localClients : List Conn := []
  attachments : List Attachment := []
  nextPtr : Nat

/-- `class_default`. -/
def classDefault : Nat := 0

/-- What a class block of the configuration says. A prefix length is one of the
address family; beyond, the shifts of the source are undefined. -/
structure ClassDef where
  name : CStr
  maxTotal : Nat
  numberPerCidr : Nat
  cidrBitlenIpv4 : Nat
  cidrBitlenIpv6 : Nat
  bitlenIpv4_le : cidrBitlenIpv4 ≤ 32
  bitlenIpv6_le : cidrBitlenIpv6 ≤ 128

/-- What a block of the configuration says of a conf. -/
structure ConfDef where
  type : ConfType
  className : Option CStr
  exemptLimits : Bool

/-- `yy_class` at the end of a class block. -/
def ClassDef.item (d : ClassDef) : ClassItem where
  name := d.name
  maxTotal := d.maxTotal
  numberPerCidr := d.numberPerCidr
  cidrBitlenIpv4 := d.cidrBitlenIpv4
  cidrBitlenIpv6 := d.cidrBitlenIpv6

/-- The calls that reach the classes. `attach` is of the conf at a place of the
list of legal ones; `detach` is `detach_conf` with one type, `exit` with
`CONF_TYPE`. -/
inductive ClassOp where
  | attach (conn : Conn) (place : Nat)
  | detach (id : Nat) (type : ConfType)
  | exit (id : Nat)
  | rehash (defs : List ClassDef) (confs : List ConfDef)

def ClassConf.countsFor (f : ClassConf) (p : Nat) : Bool := f.type == .client && f.classPtr == p

/-- The connections that are attached to a class through a conf that `attach_conf`
counted. -/
def connected (attachments : List Attachment) (p : Nat) : List Conn :=
  (attachments.filter fun a => a.conf.countsFor p).map Attachment.conn

/-- `detach_conf` looks at the class of such a conf. -/
def ConfType.hasClass : ConfType → Bool
  | .client | .oper | .server => true
  | .hub | .leaf => false

/-- The class of a conf that is detached: a client leaves its block, and the count
goes down unless it is zero. -/
def Attachment.leave (a : Attachment) (c : ClassItem) : ClassItem :=
  let c := if a.conf.type = .client then removeFromCidrCheck a.conn.ip c else c
  if 0 < c.currUserCount then { c with currUserCount := c.currUserCount - 1 } else c

namespace ClassState

/-- What `detach_conf` does to the class of a conf. A class that was freed stays
freed. -/
def detachClass (s : ClassState) (a : Attachment) : ClassState :=
  if !a.conf.type.hasClass then s
  else
    match s.classes a.conf.classPtr with
    | none => s
    | some c =>
      if (a.leave c).maxTotal < 0 ∧ (a.leave c).currUserCount ≤ 0 then
        { s with
          classes := update s.classes a.conf.classPtr none
          classItems := s.classItems.erase a.conf.classPtr }
      else { s with classes := update s.classes a.conf.classPtr (some (a.leave c)) }

/-- The attachments that `detach_conf` takes away, and those it leaves. -/
def detached (s : ClassState) (id : Nat) : Option ConfType → List Attachment × List Attachment
  | none => s.attachments.partition fun a => a.conn.id == id
  | some type =>
    let found := fun a : Attachment => a.conn.id == id && a.conf.type == type
    ((s.attachments.find? found).toList, s.attachments.eraseP found)

/-- `detach_conf`. -/
def detachConf (s : ClassState) (id : Nat) (type : Option ConfType) : ClassState :=
  { (s.detached id type).1.foldl detachClass s with attachments := (s.detached id type).2 }

/-- `attach_conf` with a conf that is not illegal. -/
def attachConf (s : ClassState) (conn : Conn) (conf : ClassConf) : ClassState :=
  if s.attachments.any fun a => a.conn.id == conn.id && a.conf.ptr == conf.ptr then s
  else if conf.type = .client then
    match s.classes conf.classPtr with
    | none => s
    | some c =>
      match cidrLimitReached conf.exemptLimits conn.ip c with
      | none => s
      | some c =>
        { s with
          classes := update s.classes conf.classPtr
            (some { c with currUserCount := c.currUserCount + 1 })
          localClients := conn :: s.localClients
          attachments := ⟨conn, conf⟩ :: s.attachments }
  else { s with attachments := ⟨conn, conf⟩ :: s.attachments }

/-! ### Rehash -/

/-- `clear_out_old_conf`: no conf is legal any more, and all classes but the last,
the default class, are marked. -/
def clearOutOldConf (s : ClassState) : ClassState :=
  { s with
    legal := []
    classes := fun p =>
      if p ∈ s.classItems.dropLast then (s.classes p).map fun c => { c with maxTotal := -1 }
      else s.classes p }

/-- `find_exact_name_conf` for a class. -/
def findExactNameConf (s : ClassState) (name : CStr) : Option Nat :=
  s.classItems.find? fun p =>
    match s.classes p with
    | none => false
    | some c => !c.name.isEmpty && ircEq c.name name

/-- The connections that `rebuild_cidr_list` counts again: the last conf on their
list is a client conf of the class. -/
def rebuilt (s : ClassState) (p : Nat) : List Conn :=
  s.localClients.filter fun conn =>
    match (s.attachments.filter fun a => a.conn.id == conn.id).getLast? with
    | none => false
    | some a => a.conf.countsFor p

/-- `rebuild_cidr_list` where the prefix length has changed. -/
def recount (conns : List Conn) (isFamily : QueryAddr → Bool) (new : ClassItem) : ClassItem :=
  (conns.filter fun conn => isFamily conn.ip).foldl
    (fun c conn => (cidrLimitReached true conn.ip c).getD c) new

def isInet : QueryAddr → Bool
  | .inet _ => true
  | .inet6 _ => false

/-- `rebuild_cidr_class`. -/
def rebuildCidrClass (s : ClassState) (p : Nat) (old new : ClassItem) : ClassItem :=
  if 0 < old.numberPerCidr ∧ 0 < new.numberPerCidr then
    let new :=
      if 0 < old.cidrBitlenIpv4 ∧ 0 < new.cidrBitlenIpv4 then
        if old.cidrBitlenIpv4 = new.cidrBitlenIpv4 then { new with listIpv4 := old.listIpv4 }
        else recount (s.rebuilt p) isInet new
      else new
    if 0 < old.cidrBitlenIpv6 ∧ 0 < new.cidrBitlenIpv6 then
      if old.cidrBitlenIpv6 = new.cidrBitlenIpv6 then { new with listIpv6 := old.listIpv6 }
      else recount (s.rebuilt p) (fun ip => !isInet ip) new
    else new
  else new

/-- `class_entry`: a class of the name is written over, with the count that a new
one has; else the class is new. -/
def classEntry (s : ClassState) (d : ClassDef) : ClassState :=
  match s.findExactNameConf d.name with
  | some p =>
    match s.classes p with
    | none => s
    | some old => { s with classes := update s.classes p (some (s.rebuildCidrClass p old d.item)) }
  | none =>
    { s with
      classes := update s.classes s.nextPtr (some d.item)
      classItems := s.nextPtr :: s.classItems
      nextPtr := s.nextPtr + 1 }

/-- `conf_add_class_to_conf`. -/
def confClass (s : ClassState) (className : Option CStr) : Nat :=
  match className with
  | none => classDefault
  | some name =>
    match s.findExactNameConf name with
    | none => classDefault
    | some p =>
      match s.classes p with
      | none => classDefault
      | some c => if c.maxTotal < 0 then classDefault else p

def confEntry (s : ClassState) (d : ConfDef) : ClassState :=
  { s with
    legal := s.legal ++ [⟨s.nextPtr, d.type, s.confClass d.className, d.exemptLimits⟩]
    nextPtr := s.nextPtr + 1 }

/-- `check_class`: a class that is still marked loses its blocks and its place on
the list, and without users it is freed. -/
def checkClass (s : ClassState) : ClassState :=
  let marked := fun p => (s.classes p).any fun c => c.maxTotal < 0
  { s with
    classItems := s.classItems.filter fun p => !marked p
    classes := fun p =>
      if p ∈ s.classItems ∧ marked p = true then
        (s.classes p).bind fun c =>
          if 0 < c.currUserCount then some { c with listIpv4 := [], listIpv6 := [] } else none
      else s.classes p }

/-- `read_conf_files` of a rehash, as far as classes and their confs go. -/
def rehash (s : ClassState) (defs : List ClassDef) (confs : List ConfDef) : ClassState :=
  (confs.foldl confEntry (defs.foldl classEntry s.clearOutOldConf)).checkClass

/-- One call. A connection is attached to a client conf once, when it registers. -/
def step (s : ClassState) : ClassOp → ClassState
  | .attach conn place =>
    match s.legal[place]? with
    | none => s
    | some conf =>
      if conf.type = .client ∧ s.attachments.any fun a =>
        a.conn.id == conn.id && a.conf.type == .client
      then s
      else s.attachConf conn conf
  | .detach id type => s.detachConf id (some type)
  | .exit id =>
    let s := s.detachConf id none
    { s with localClients := s.localClients.filter fun conn => conn.id != id }
  | .rehash defs confs => s.rehash defs confs

/-- The classes after `init_class`. -/
def start : ClassState where
  classes := fun p =>
    if p = classDefault then
      some { name := "default".toList, maxTotal := 0, numberPerCidr := 0, cidrBitlenIpv4 := 0,
             cidrBitlenIpv6 := 0 }
    else none
  classItems := [classDefault]
  nextPtr := 1

end ClassState

/-! ### What is asked of the counts -/

namespace ClassItem

def inBlock4 (c : ClassItem) (b : Counter InAddr) : QueryAddr → Bool
  | .inet a => matchIpv4 a b.mask c.cidrBitlenIpv4
  | .inet6 _ => false

def inBlock6 (c : ClassItem) (b : Counter In6Addr) : QueryAddr → Bool
  | .inet _ => false
  | .inet6 a => matchIpv6 a b.mask c.cidrBitlenIpv6

/-- The class counts these connections, all of them different ones. -/
structure Exact (c : ClassItem) (conns : List Conn) : Prop where
  distinct : (conns.map Conn.id).Nodup
  count : c.currUserCount = conns.length
  nonneg : 0 ≤ c.currUserCount
  blocks4 : ∀ b ∈ c.listIpv4, b.number = conns.countP fun conn => c.inBlock4 b conn.ip
  blocks6 : ∀ b ∈ c.listIpv6, b.number = conns.countP fun conn => c.inBlock6 b conn.ip

/-- `mask_addr` leaves the address in the block it makes of it: it is an IPv4
address, or the prefix ends with a byte, or in the last byte, or has only zeros
in the byte where it ends. -/
def KeepsOwn (c : ClassItem) : QueryAddr → Prop
  | .inet _ => True
  | .inet6 a => c.cidrBitlenIpv6 % 8 = 0 ∨ 120 ≤ c.cidrBitlenIpv6 ∨
      clearLow (8 - c.cidrBitlenIpv6 % 8) (a.bytes.getD (c.cidrBitlenIpv6 / 8) 0) = 0

end ClassItem

namespace ClassState

/-- Each class counts its connections, and none with a connection was freed. -/
def Exact (s : ClassState) : Prop :=
  (∀ p c, s.classes p = some c → c.Exact (connected s.attachments p)) ∧
    ∀ p, s.classes p = none → connected s.attachments p = []

/-- The call keeps the counts right: an IPv6 client whose class has blocks lies in
its own; no connection stays attached to the class of an oper or server conf that
is detached; and none is attached to a class that is written over. -/
def Keeps (s : ClassState) : ClassOp → Prop
  | .attach conn place => ∀ f ∈ s.legal[place]?, f.type = .client →
      ∀ c ∈ s.classes f.classPtr, 0 < c.numberPerCidr → c.cidrBitlenIpv6 ≠ 0 → c.KeepsOwn conn.ip
  | .detach id type => ∀ a ∈ (s.detached id (some type)).1, a.conf.type.hasClass →
      a.conf.type ≠ .client → connected (s.detached id (some type)).2 a.conf.classPtr = []
  | .exit id => ∀ a ∈ (s.detached id none).1, a.conf.type.hasClass →
      a.conf.type ≠ .client → connected (s.detached id none).2 a.conf.classPtr = []
  | .rehash defs _ => ∀ d ∈ defs, ∀ p ∈ s.classItems, ∀ c ∈ s.classes p,
      c.name ≠ [] → ircEq c.name d.name = true → connected s.attachments p = []

end ClassState

/-! ### The mark of a block -/

def prefix4 (bits : Nat) (a : InAddr) : Nat := clearLow (32 - bits) (value a.bytes)

/-- A prefix of an IPv6 address: its whole bytes, and what it has of the next. -/
structure Prefix6 where
  whole : List Nat
  last : Nat
  deriving DecidableEq

def prefix6 (bits : Nat) (a : In6Addr) : Prefix6 where
  whole := a.bytes.take (bits / 8)
  last := if bits % 8 = 0 then 0 else clearLow (8 - bits % 8) (a.bytes.getD (bits / 8) 0)

/-- What `match_ipv4` compares a prefix with. -/
def key4 (mask : InAddr) : Nat := value mask.bytes

/-- What `match_ipv6` compares a prefix with. -/
def key6 (bits : Nat) (mask : In6Addr) : Prefix6 where
  whole := mask.bytes.take (bits / 8)
  last := if bits % 8 = 0 then 0 else mask.bytes.getD (bits / 8) 0

theorem matchIpv4_iff_key {a mask : InAddr} {bits : Nat} (hpos : bits ≠ 0) (hle : bits ≤ 32) :
    matchIpv4 a mask bits = true ↔ key4 mask = prefix4 bits a := by
  rw [matchIpv4, if_pos (by omega), decide_eq_true_eq, Int.toNat_natCast]
  exact eq_comm

theorem matchIpv6_iff_key {a mask : In6Addr} {bits : Nat} :
    matchIpv6 a mask bits = true ↔ key6 bits mask = prefix6 bits a := by
  unfold matchIpv6 key6 prefix6
  by_cases htake : a.bytes.take (bits / 8) = mask.bytes.take (bits / 8)
  · by_cases hbyte : bits % 8 = 0
    · simp [htake, hbyte]
    · simp [htake, hbyte, eq_comm]
  · simp [htake, Ne.symm htake]

theorem value_ofList_htonl {v : Nat} (hv : v < 2 ^ 32) :
    value (Bytes.Block.ofList 4 (htonl v)).bytes = v := by
  simp [Bytes.Block.ofList, htonl, value, range_succ]
  omega

theorem key4_maskAddr4 (bits : Nat) (a : InAddr) : key4 (maskAddr4 bits a) = prefix4 bits a := by
  have hlt : clearLow (32 - bits) (value a.bytes) < 2 ^ 32 := by
    have h := Bytes.value_lt a.wf
    rw [a.length_eq] at h
    exact Nat.lt_of_le_of_lt (Bytes.clearLow_le _ _) h
  exact value_ofList_htonl hlt

theorem getD_ofList {size : Nat} {vals : List Nat} {i : Nat} (hi : i < size) :
    (Bytes.Block.ofList size vals).bytes.getD i 0 = vals.getD i 0 % 256 := by
  simp [Bytes.Block.ofList, hi]

theorem take_ofList {size n : Nat} {vals : List Nat} (hlen : vals.length = size)
    (hwf : ∀ b ∈ vals.take n, b < 256) : (Bytes.Block.ofList size vals).bytes.take n = vals.take n := by
  apply ext_getElem?
  intro i
  by_cases hn : i < n
  · by_cases hi : i < size
    · have hval : i < vals.length := hlen ▸ hi
      have hmem : vals[i] ∈ vals.take n := by
        rw [mem_take_iff_getElem]
        exact ⟨i, by omega, rfl⟩
      simp [Bytes.Block.ofList, hn, hi, hval, Nat.mod_eq_of_lt (hwf _ hmem)]
    · have hval : vals.length ≤ i := by omega
      simp [Bytes.Block.ofList, hn, hi, hval]
  · simp [hn]

theorem key6_maskAddr6 {c : ClassItem} {a : In6Addr} (hle : c.cidrBitlenIpv6 ≤ 128)
    (h : c.KeepsOwn (.inet6 a)) :
    key6 c.cidrBitlenIpv6 (maskAddr6 c.cidrBitlenIpv6 a) = prefix6 c.cidrBitlenIpv6 a := by
  unfold ClassItem.KeepsOwn at h
  generalize c.cidrBitlenIpv6 = bits at hle h
  have hbyte : clearLow (8 - bits % 8) (a.bytes.getD (bits / 8) 0) < 256 :=
    Nat.lt_of_le_of_lt (Bytes.clearLow_le _ _) (a.getD_lt _)
  rw [key6, prefix6, Prefix6.mk.injEq]
  refine ⟨?_, ?_⟩
  · have htake : (a.bytes.set (bits / 8)
        (if bits / 8 < 15 then 0 else clearLow (8 - bits % 8) (a.bytes.getD (bits / 8) 0))).take
          (bits / 8) = a.bytes.take (bits / 8) := take_set_of_le (Nat.le_refl _)
    rw [maskAddr6, take_ofList (by rw [length_set, a.length_eq]), htake]
    intro b hb
    rw [htake] at hb
    exact a.wf b (mem_of_mem_take hb)
  · by_cases hm : bits % 8 = 0
    · rw [if_pos hm, if_pos hm]
    · have hn : bits / 8 < 16 := by omega
      rw [if_neg hm, if_neg hm, maskAddr6, getD_ofList hn]
      simp only [getD_eq_getElem?_getD, getElem?_set, a.length_eq, hn, if_true,
        Option.getD_some]
      rw [← getD_eq_getElem?_getD]
      split
      · rename_i hlow
        have hzero := (h.resolve_left hm).resolve_left (by omega)
        rw [hzero]
      · exact Nat.mod_eq_of_lt hbyte

/-! ### The lists of a class -/

def marks4 (bits : Nat) (conns : List Conn) : List Nat :=
  conns.filterMap fun conn =>
    match conn.ip with
    | .inet a => some (prefix4 bits a)
    | .inet6 _ => none

def marks6 (bits : Nat) (conns : List Conn) : List Prefix6 :=
  conns.filterMap fun conn =>
    match conn.ip with
    | .inet _ => none
    | .inet6 a => some (prefix6 bits a)

theorem count_filterMap {α κ : Type} [DecidableEq κ] (f : α → Option κ) (k : κ) (l : List α) :
    (l.filterMap f).count k = l.countP fun x => decide (f x = some k) := by
  induction l with
  | nil => rfl
  | cons x l ih =>
    cases hx : f x with
    | none => simp [hx, ih]
    | some j =>
      by_cases hj : j = k
      · simp [hx, ih, hj]
      · simp [hx, ih, hj]

namespace ClassItem

/-- The blocks count these connections, and without a limit there are none. -/
structure Sound (c : ClassItem) (conns : List Conn) : Prop where
  bitlen4 : c.cidrBitlenIpv4 ≤ 32
  bitlen6 : c.cidrBitlenIpv6 ≤ 128
  off4 : c.numberPerCidr ≤ 0 ∨ c.cidrBitlenIpv4 = 0 → c.listIpv4 = []
  off6 : c.numberPerCidr ≤ 0 ∨ c.cidrBitlenIpv6 = 0 → c.listIpv6 = []
  counts4 : Counts key4 c.listIpv4 (marks4 c.cidrBitlenIpv4 conns)
  counts6 : Counts (key6 c.cidrBitlenIpv6) c.listIpv6 (marks6 c.cidrBitlenIpv6 conns)

/-- Every connection under a limit has its block. -/
structure Covered (c : ClassItem) (conns : List Conn) : Prop where
  covers4 : 0 < c.numberPerCidr → c.cidrBitlenIpv4 ≠ 0 →
    Covers key4 c.listIpv4 (marks4 c.cidrBitlenIpv4 conns)
  covers6 : 0 < c.numberPerCidr → c.cidrBitlenIpv6 ≠ 0 →
    Covers (key6 c.cidrBitlenIpv6) c.listIpv6 (marks6 c.cidrBitlenIpv6 conns)

variable {c c' : ClassItem} {conns : List Conn} {conn : Conn}

theorem Sound.exact (h : c.Sound conns) (hcount : c.currUserCount = conns.length)
    (hdistinct : (conns.map Conn.id).Nodup) : c.Exact conns where
  distinct := hdistinct
  count := hcount
  nonneg := by omega
  blocks4 b hb := by
    have hpos : c.cidrBitlenIpv4 ≠ 0 := fun hzero => by
      rw [h.off4 (.inr hzero)] at hb
      exact absurd hb not_mem_nil
    rw [h.counts4.number b hb, marks4, count_filterMap, Nat.cast_inj]
    apply countP_congr
    intro conn _
    cases conn.ip with
    | inet a =>
      simp only [inBlock4, decide_eq_true_eq, Option.some.injEq, matchIpv4_iff_key hpos h.bitlen4]
      exact eq_comm
    | inet6 a => simp [inBlock4]
  blocks6 b hb := by
    rw [h.counts6.number b hb, marks6, count_filterMap, Nat.cast_inj]
    apply countP_congr
    intro conn _
    cases conn.ip with
    | inet a => simp [inBlock6]
    | inet6 a =>
      simp only [inBlock6, decide_eq_true_eq, Option.some.injEq, matchIpv6_iff_key]
      exact eq_comm

theorem Sound.congr (h : c.Sound conns) (hnumber : c'.numberPerCidr = c.numberPerCidr)
    (hbit4 : c'.cidrBitlenIpv4 = c.cidrBitlenIpv4) (hbit6 : c'.cidrBitlenIpv6 = c.cidrBitlenIpv6)
    (h4 : c'.listIpv4 = c.listIpv4) (h6 : c'.listIpv6 = c.listIpv6) : c'.Sound conns := by
  obtain ⟨bitlen4, bitlen6, off4, off6, counts4, counts6⟩ := h
  constructor <;> simp only [hnumber, hbit4, hbit6, h4, h6] <;> assumption

theorem countIn_counts {β κ : Type} [DecidableEq κ] {key : β → κ} {k : κ} {ks : List κ}
    {overRule : Bool} {limit : Int} {hit : β → Bool} {fresh : β} {blocks blocks' : List (Counter β)}
    (h : Counts key blocks ks) (hcovers : Covers key blocks ks)
    (hhit : ∀ m, hit m = true ↔ key m = k) (hfresh : key fresh = k)
    (hsome : countIn overRule limit hit fresh blocks = some blocks') :
    Counts key blocks' (k :: ks) ∧ Covers key blocks' (k :: ks) := by
  unfold countIn at hsome
  split at hsome
  · rename_i b hfind
    have hb : b ∈ blocks := mem_of_find?_eq_some hfind
    have hk : key b.mask = k := (hhit _).mp (by simpa using find?_some hfind)
    split at hsome
    · cases hsome
    · cases hsome
      exact ⟨h.bump fun c _ => hhit c.mask,
        hcovers.bump (List.mem_map.mpr ⟨b, hb, hk⟩)⟩
  · rename_i hfind
    have hnew : k ∉ blocks.map fun b => key b.mask := by
      intro hmem
      obtain ⟨b, hb, hk⟩ := List.mem_map.mp hmem
      exact List.find?_eq_none.mp hfind b hb ((hhit _).mpr hk)
    cases hsome
    exact ⟨h.push hcovers hfresh hnew, hcovers.push hfresh⟩

theorem marks4_inet {a : InAddr} (bits : Nat) (hip : conn.ip = .inet a) :
    marks4 bits (conn :: conns) = prefix4 bits a :: marks4 bits conns := by simp [marks4, hip]

theorem marks6_inet {a : InAddr} (bits : Nat) (hip : conn.ip = .inet a) :
    marks6 bits (conn :: conns) = marks6 bits conns := by simp [marks6, hip]

theorem marks4_inet6 {a : In6Addr} (bits : Nat) (hip : conn.ip = .inet6 a) :
    marks4 bits (conn :: conns) = marks4 bits conns := by simp [marks4, hip]

theorem marks6_inet6 {a : In6Addr} (bits : Nat) (hip : conn.ip = .inet6 a) :
    marks6 bits (conn :: conns) = prefix6 bits a :: marks6 bits conns := by simp [marks6, hip]

/-- A connection of a family without a limit does not matter to the blocks. -/
def NoLimit (c : ClassItem) : QueryAddr → Prop
  | .inet _ => c.numberPerCidr ≤ 0 ∨ c.cidrBitlenIpv4 = 0
  | .inet6 _ => c.numberPerCidr ≤ 0 ∨ c.cidrBitlenIpv6 = 0

theorem sound_cons_iff (hoff : c.NoLimit conn.ip) : c.Sound (conn :: conns) ↔ c.Sound conns := by
  cases hip : conn.ip with
  | inet a =>
    rw [hip] at hoff
    have h6 : marks6 c.cidrBitlenIpv6 (conn :: conns) = marks6 c.cidrBitlenIpv6 conns :=
        marks6_inet _ hip
    constructor
    · intro h
      have hnil := h.off4 hoff
      exact ⟨h.bitlen4, h.bitlen6, h.off4, h.off6, by rw [hnil]; exact Counters.counts_nil,
        by rw [← h6]; exact h.counts6⟩
    · intro h
      have hnil := h.off4 hoff
      exact ⟨h.bitlen4, h.bitlen6, h.off4, h.off6, by rw [hnil]; exact Counters.counts_nil,
        by rw [h6]; exact h.counts6⟩
  | inet6 a =>
    rw [hip] at hoff
    have h4 : marks4 c.cidrBitlenIpv4 (conn :: conns) = marks4 c.cidrBitlenIpv4 conns :=
        marks4_inet6 _ hip
    constructor
    · intro h
      have hnil := h.off6 hoff
      exact ⟨h.bitlen4, h.bitlen6, h.off4, h.off6, by rw [← h4]; exact h.counts4,
        by rw [hnil]; exact Counters.counts_nil⟩
    · intro h
      have hnil := h.off6 hoff
      exact ⟨h.bitlen4, h.bitlen6, h.off4, h.off6, by rw [h4]; exact h.counts4,
        by rw [hnil]; exact Counters.counts_nil⟩

theorem covered_cons_iff (hoff : c.NoLimit conn.ip) :
    c.Covered (conn :: conns) ↔ c.Covered conns := by
  cases hip : conn.ip with
  | inet a =>
    rw [hip] at hoff
    have hno : 0 < c.numberPerCidr → c.cidrBitlenIpv4 ≠ 0 → False := fun hpos hbit => by
      rcases hoff with hle | hzero
      · omega
      · exact hbit hzero
    have h6 : marks6 c.cidrBitlenIpv6 (conn :: conns) = marks6 c.cidrBitlenIpv6 conns :=
        marks6_inet _ hip
    exact ⟨fun h => ⟨fun hpos hbit => (hno hpos hbit).elim, h6 ▸ h.covers6⟩,
      fun h => ⟨fun hpos hbit => (hno hpos hbit).elim, h6.symm ▸ h.covers6⟩⟩
  | inet6 a =>
    rw [hip] at hoff
    have hno : 0 < c.numberPerCidr → c.cidrBitlenIpv6 ≠ 0 → False := fun hpos hbit => by
      rcases hoff with hle | hzero
      · omega
      · exact hbit hzero
    have h4 : marks4 c.cidrBitlenIpv4 (conn :: conns) = marks4 c.cidrBitlenIpv4 conns :=
        marks4_inet6 _ hip
    exact ⟨fun h => ⟨h4 ▸ h.covers4, fun hpos hbit => (hno hpos hbit).elim⟩,
      fun h => ⟨h4.symm ▸ h.covers4, fun hpos hbit => (hno hpos hbit).elim⟩⟩

theorem Sound.cidrLimitReached {overRule : Bool} (h : c.Sound conns) (hcov : c.Covered conns)
    (hkeeps : 0 < c.numberPerCidr → c.cidrBitlenIpv6 ≠ 0 → c.KeepsOwn conn.ip)
    (hsome : cidrLimitReached overRule conn.ip c = some c') :
    c'.Sound (conn :: conns) ∧ c'.Covered (conn :: conns) ∧ c'.name = c.name ∧
      c'.maxTotal = c.maxTotal ∧ c'.currUserCount = c.currUserCount := by
  have same : c.NoLimit conn.ip → c.Sound (conn :: conns) ∧ c.Covered (conn :: conns) ∧
      c.name = c.name ∧ c.maxTotal = c.maxTotal ∧ c.currUserCount = c.currUserCount := fun hoff =>
    ⟨(sound_cons_iff hoff).mpr h, (covered_cons_iff hoff).mpr hcov, rfl, rfl, rfl⟩
  unfold Ircd.cidrLimitReached at hsome
  split at hsome
  · rename_i hle
    cases hsome
    apply same
    cases conn.ip with
    | inet a => exact .inl hle
    | inet6 a => exact .inl hle
  · rename_i hpos
    split at hsome
    · rename_i a hip
      split at hsome
      · rename_i hzero
        cases hsome
        apply same
        rw [hip]
        exact .inr hzero
      · rename_i hbit
        obtain ⟨list, hlist, rfl⟩ := Option.map_eq_some_iff.mp hsome
        obtain ⟨hcounts, hcovers⟩ := countIn_counts h.counts4 (hcov.covers4 (by omega) hbit)
          (fun m => matchIpv4_iff_key hbit h.bitlen4) (key4_maskAddr4 _ a) hlist
        refine ⟨⟨h.bitlen4, h.bitlen6, fun hoff => ?_, h.off6, ?_, ?_⟩, ⟨fun _ _ => ?_, ?_⟩, rfl,
          rfl, rfl⟩
        · rcases hoff with hle | hzero
          · exact absurd hle hpos
          · exact absurd hzero hbit
        · rw [marks4_inet _ hip]
          exact hcounts
        · rw [marks6_inet _ hip]
          exact h.counts6
        · rw [marks4_inet _ hip]
          exact hcovers
        · rw [marks6_inet _ hip]
          exact hcov.covers6
    · rename_i a hip
      split at hsome
      · rename_i hzero
        cases hsome
        apply same
        rw [hip]
        exact .inr hzero
      · rename_i hbit
        obtain ⟨list, hlist, rfl⟩ := Option.map_eq_some_iff.mp hsome
        have hown := hkeeps (by omega) hbit
        rw [hip] at hown
        obtain ⟨hcounts, hcovers⟩ := countIn_counts h.counts6 (hcov.covers6 (by omega) hbit)
          (fun m => matchIpv6_iff_key) (key6_maskAddr6 h.bitlen6 hown) hlist
        refine ⟨⟨h.bitlen4, h.bitlen6, h.off4, fun hoff => ?_, ?_, ?_⟩, ⟨?_, fun _ _ => ?_⟩, rfl,
          rfl, rfl⟩
        · rcases hoff with hle | hzero
          · exact absurd hle hpos
          · exact absurd hzero hbit
        · rw [marks4_inet6 _ hip]
          exact h.counts4
        · rw [marks6_inet6 _ hip]
          exact hcounts
        · rw [marks4_inet6 _ hip]
          exact hcov.covers4
        · rw [marks6_inet6 _ hip]
          exact hcovers

theorem Sound.removeFromCidrCheck (h : c.Sound (conn :: conns)) :
    (removeFromCidrCheck conn.ip c).Sound conns ∧
      (c.Covered (conn :: conns) → (removeFromCidrCheck conn.ip c).Covered conns) := by
  have same : c.NoLimit conn.ip → c.Sound conns ∧ (c.Covered (conn :: conns) → c.Covered conns) :=
    fun hoff => ⟨(sound_cons_iff hoff).mp h, (covered_cons_iff hoff).mp⟩
  unfold Ircd.removeFromCidrCheck
  split
  · rename_i hzero
    apply same
    cases conn.ip with
    | inet a => exact .inl (Int.le_of_eq hzero)
    | inet6 a => exact .inl (Int.le_of_eq hzero)
  · split
    · rename_i a hip
      split
      · rename_i hbit
        apply same
        rw [hip]
        exact .inr hbit
      · rename_i hbit
        have hcounts := h.counts4
        have h6 := h.counts6
        rw [marks4_inet _ hip] at hcounts
        rw [marks6_inet _ hip] at h6
        have hhit : ∀ b ∈ c.listIpv4, matchIpv4 a b.mask c.cidrBitlenIpv4 = true ↔
            key4 b.mask = prefix4 c.cidrBitlenIpv4 a := fun b _ => matchIpv4_iff_key hbit h.bitlen4
        have hrel := hcounts.release (fun m => matchIpv4 a m c.cidrBitlenIpv4) hhit
            mem_cons_self
        rw [erase_cons_head] at hrel
        refine ⟨⟨h.bitlen4, h.bitlen6, fun hoff => ?_, h.off6, hrel, h6⟩, fun hcov =>
          ⟨fun hpos _ => ?_, ?_⟩⟩
        · show release _ c.listIpv4 = []
          rw [h.off4 hoff]
          rfl
        · have hcovers := hcov.covers4 hpos hbit
          rw [marks4_inet _ hip] at hcovers
          have hout := hcovers.release hcounts (fun m => matchIpv4 a m c.cidrBitlenIpv4) hhit
            mem_cons_self
          rwa [erase_cons_head] at hout
        · have hcovers := hcov.covers6
          rwa [marks6_inet _ hip] at hcovers
    · rename_i a hip
      split
      · rename_i hbit
        apply same
        rw [hip]
        exact .inr hbit
      · rename_i hbit
        have hcounts := h.counts6
        have h4 := h.counts4
        rw [marks6_inet6 _ hip] at hcounts
        rw [marks4_inet6 _ hip] at h4
        have hhit : ∀ b ∈ c.listIpv6, matchIpv6 a b.mask c.cidrBitlenIpv6 = true ↔
            key6 c.cidrBitlenIpv6 b.mask = prefix6 c.cidrBitlenIpv6 a := fun b _ =>
              matchIpv6_iff_key
        have hrel := hcounts.release (fun m => matchIpv6 a m c.cidrBitlenIpv6) hhit
            mem_cons_self
        rw [erase_cons_head] at hrel
        refine ⟨⟨h.bitlen4, h.bitlen6, h.off4, fun hoff => ?_, h4, hrel⟩, fun hcov =>
          ⟨?_, fun hpos _ => ?_⟩⟩
        · show release _ c.listIpv6 = []
          rw [h.off6 hoff]
          rfl
        · have hcovers := hcov.covers4
          rwa [marks4_inet6 _ hip] at hcovers
        · have hcovers := hcov.covers6 hpos hbit
          rw [marks6_inet6 _ hip] at hcovers
          have hout := hcovers.release hcounts (fun m => matchIpv6 a m c.cidrBitlenIpv6) hhit
            mem_cons_self
          rwa [erase_cons_head] at hout

theorem Sound.perm {conns' : List Conn} (h : c.Sound conns) (hperm : conns.Perm conns') :
    c.Sound conns' :=
  ⟨h.bitlen4, h.bitlen6, h.off4, h.off6, h.counts4.perm (hperm.filterMap _),
    h.counts6.perm (hperm.filterMap _)⟩

theorem Covered.perm {conns' : List Conn} (h : c.Covered conns) (hperm : conns.Perm conns') :
    c.Covered conns' where
  covers4 hpos hbit k hk := h.covers4 hpos hbit k ((hperm.filterMap _).mem_iff.mpr hk)
  covers6 hpos hbit k hk := h.covers6 hpos hbit k ((hperm.filterMap _).mem_iff.mpr hk)

end ClassItem

/-! ### A conf is detached from its class -/

section Leave

variable {a : Attachment} {c : ClassItem} {conns : List Conn}

theorem removeFromCidrCheck_frame (ip : QueryAddr) :
    (removeFromCidrCheck ip c).maxTotal = c.maxTotal ∧
      (removeFromCidrCheck ip c).currUserCount = c.currUserCount := by
  unfold removeFromCidrCheck
  split
  · exact ⟨rfl, rfl⟩
  · split
    · split
      · exact ⟨rfl, rfl⟩
      · exact ⟨rfl, rfl⟩
    · split
      · exact ⟨rfl, rfl⟩
      · exact ⟨rfl, rfl⟩

theorem leave_frame : (a.leave c).maxTotal = c.maxTotal ∧
    (a.leave c).currUserCount = if 0 < c.currUserCount then c.currUserCount - 1
      else c.currUserCount := by
  have hremoved := removeFromCidrCheck_frame (c := c) a.conn.ip
  unfold Attachment.leave
  by_cases hclient : a.conf.type = .client
  · simp only [hclient, if_true]
    split
    · rename_i hpos
      rw [hremoved.2] at hpos
      rw [if_pos hpos]
      exact ⟨hremoved.1, by rw [← hremoved.2]⟩
    · rename_i hpos
      rw [hremoved.2] at hpos
      rw [if_neg hpos]
      exact hremoved
  · simp only [hclient, if_false]
    split
    · exact ⟨rfl, rfl⟩
    · exact ⟨rfl, rfl⟩

theorem leave_sound_client (hclient : a.conf.type = .client) (h : c.Sound (a.conn :: conns)) :
    (a.leave c).Sound conns ∧ (c.Covered (a.conn :: conns) → (a.leave c).Covered conns) := by
  obtain ⟨hsound, hcovered⟩ := h.removeFromCidrCheck
  simp only [Attachment.leave, hclient, if_true]
  split
  · exact ⟨hsound.congr rfl rfl rfl rfl rfl, fun hcov =>
      ⟨(hcovered hcov).covers4, (hcovered hcov).covers6⟩⟩
  · exact ⟨hsound, hcovered⟩

theorem leave_sound_other (hother : a.conf.type ≠ .client) (h : c.Sound conns) :
    (a.leave c).Sound conns ∧ (c.Covered conns → (a.leave c).Covered conns) := by
  simp only [Attachment.leave, hother, if_false]
  split
  · exact ⟨h.congr rfl rfl rfl rfl rfl, fun hcov => ⟨hcov.covers4, hcov.covers6⟩⟩
  · exact ⟨h, id⟩

end Leave

/-! ### The classes of a state -/

section Connected

variable {a : Attachment} {attachments : List Attachment} {p : Nat}

theorem connected_cons_of_countsFor (h : a.conf.countsFor p = true) :
    connected (a :: attachments) p = a.conn :: connected attachments p := by
  simp [connected, h]

theorem connected_cons_of_not (h : a.conf.countsFor p = false) :
    connected (a :: attachments) p = connected attachments p := by
  simp [connected, h]

theorem connected_perm {attachments' : List Attachment} (h : attachments.Perm attachments')
    (p : Nat) :
    (connected attachments p).Perm (connected attachments' p) :=
  (h.filter _).map _

theorem countsFor_self (h : a.conf.type = .client) : a.conf.countsFor a.conf.classPtr = true := by
  simp [ClassConf.countsFor, h]

theorem not_countsFor_of_type (h : a.conf.type ≠ .client) : a.conf.countsFor p = false := by
  simp [ClassConf.countsFor, h]

theorem not_countsFor_of_class (h : p ≠ a.conf.classPtr) : a.conf.countsFor p = false := by
  simp [ClassConf.countsFor, Ne.symm h]

end Connected

namespace ClassState

/-- What the list of classes and the legal confs are like between any two calls. -/
structure Frame (s : ClassState) : Prop where
  listed : ∀ p ∈ s.classItems, s.classes p ≠ none
  nodup : s.classItems.Nodup
  last : ∃ l, s.classItems = l ++ [classDefault]
  default : ∀ c ∈ s.classes classDefault, 0 ≤ c.maxTotal
  legal : ∀ f ∈ s.legal, f.classPtr ∈ s.classItems ∧ ∀ c ∈ s.classes f.classPtr, 0 ≤ c.maxTotal
  fresh : ∀ p, s.nextPtr ≤ p → s.classes p = none

/-- The classes count the connections of these attachments; a loose class may count
too few, or be freed too early. -/
structure Ledger (s : ClassState) (attachments : List Attachment) (loose : Nat → Prop) : Prop where
  sound : ∀ p, ∀ c ∈ s.classes p, c.Sound (connected attachments p)
  covered : ∀ p ∈ s.classItems, ∀ c ∈ s.classes p, c.Covered (connected attachments p)
  nonneg : ∀ p, ∀ c ∈ s.classes p, 0 ≤ c.currUserCount
  bounded : ∀ p, ∀ c ∈ s.classes p, c.currUserCount ≤ (connected attachments p).length
  count : ∀ p, ¬ loose p → ∀ c ∈ s.classes p, c.currUserCount = (connected attachments p).length
  alive : ∀ p, ¬ loose p → s.classes p = none → connected attachments p = []

variable {s : ClassState} {a : Attachment} {rest : List Attachment} {loose : Nat → Prop}

theorem Ledger.perm {attachments' : List Attachment} (h : s.Ledger rest loose)
    (hperm : rest.Perm attachments') : s.Ledger attachments' loose where
  sound p c hc := (h.sound p c hc).perm (connected_perm hperm p)
  covered p hp c hc := (h.covered p hp c hc).perm (connected_perm hperm p)
  nonneg := h.nonneg
  bounded p c hc := (connected_perm hperm p).length_eq ▸ h.bounded p c hc
  count p hp c hc := (connected_perm hperm p).length_eq ▸ h.count p hp c hc
  alive p hp hnone := by
    have hperm' := connected_perm hperm p
    rw [h.alive p hp hnone] at hperm'
    exact hperm'.nil_eq.symm

theorem Frame.default_mem (h : s.Frame) : classDefault ∈ s.classItems := by
  obtain ⟨l, hl⟩ := h.last
  rw [hl]
  exact mem_append_right _ (mem_singleton_self _)

theorem Frame.free (h : s.Frame) {p : Nat} {c : ClassItem} (hc : s.classes p = some c)
    (hmarked : c.maxTotal < 0) :
    Frame { s with classes := Function.update s.classes p none, classItems := s.classItems.erase p } := by
  have hdefault : classDefault ≠ p := by
    rintro rfl
    have := h.default c hc
    omega
  refine ⟨fun q hq => ?_, h.nodup.erase p, ?_, fun d hd => ?_, fun f hf => ?_, fun q hq => ?_⟩
  · obtain ⟨hne, hq⟩ := (h.nodup.mem_erase_iff).mp hq
    show Function.update s.classes p none q ≠ none
    rw [update_of_ne hne]
    exact h.listed q hq
  · obtain ⟨l, hl⟩ := h.last
    by_cases hp : p ∈ l
    · exact ⟨l.erase p, by simp only [hl, erase_append_left _ hp]⟩
    · refine ⟨l, ?_⟩
      simp only [hl, erase_append_right _ hp, erase_cons, erase_nil]
      rw [if_neg (by simpa using hdefault)]
  · change Function.update s.classes p none classDefault = some d at hd
    rw [update_of_ne hdefault] at hd
    exact h.default d hd
  · obtain ⟨hlisted, htotal⟩ := h.legal f hf
    have hne : f.classPtr ≠ p := by
      rintro rfl
      have := htotal c hc
      omega
    refine ⟨(h.nodup.mem_erase_iff).mpr ⟨hne, hlisted⟩, fun d hd => ?_⟩
    change Function.update s.classes p none f.classPtr = some d at hd
    rw [update_of_ne hne] at hd
    exact htotal d hd
  · show Function.update s.classes p none q = none
    by_cases heq : q = p
    · rw [heq, update_self]
    · rw [update_of_ne heq]
      exact h.fresh q hq

theorem Frame.update (h : s.Frame) {p : Nat} {c : ClassItem} (c' : ClassItem)
    (hc : s.classes p = some c) (htotal : 0 ≤ c.maxTotal → 0 ≤ c'.maxTotal) :
    Frame { s with classes := Function.update s.classes p (some c') } := by
  have hmax : ∀ q, (∀ d ∈ s.classes q, 0 ≤ d.maxTotal) →
      ∀ d ∈ Function.update s.classes p (some c') q, 0 ≤ d.maxTotal := by
    intro q hq d hd
    by_cases heq : q = p
    · subst heq
      rw [update_self] at hd
      cases hd
      exact htotal (hq c hc)
    · rw [update_of_ne heq] at hd
      exact hq d hd
  refine ⟨fun q hq => ?_, h.nodup, h.last, hmax _ h.default, fun f hf =>
    ⟨(h.legal f hf).1, hmax _ (h.legal f hf).2⟩, fun q hq => ?_⟩
  · show Function.update s.classes p (some c') q ≠ none
    by_cases heq : q = p
    · rw [heq, update_self]
      exact Option.some_ne_none _
    · rw [update_of_ne heq]
      exact h.listed q hq
  · have hne : q ≠ p := by
      rintro rfl
      rw [h.fresh q hq] at hc
      cases hc
    show Function.update s.classes p (some c') q = none
    rw [update_of_ne hne]
    exact h.fresh q hq

theorem Ledger.at_class {attachments : List Attachment} {p : Nat}
    (h : s.Ledger attachments loose) (classes : Nat → Option ClassItem) (classItems : List Nat)
    (hclasses : ∀ q, q ≠ p → classes q = s.classes q)
    (hitems : ∀ q ∈ classItems, q ≠ p → q ∈ s.classItems)
    (hconnected : ∀ q, q ≠ p → connected attachments q = connected rest q)
    (hsome : ∀ c ∈ classes p, c.Sound (connected rest p) ∧
      (p ∈ classItems → c.Covered (connected rest p)) ∧
      0 ≤ c.currUserCount ∧ c.currUserCount ≤ (connected rest p).length ∧
      (¬ loose p → c.currUserCount = (connected rest p).length))
    (hnone : ¬ loose p → classes p = none → connected rest p = []) :
    Ledger { s with classes := classes, classItems := classItems } rest loose where
  sound q c hc := by
    by_cases heq : q = p
    · subst heq
      exact (hsome c hc).1
    · rw [← hconnected q heq]
      exact h.sound q c (hclasses q heq ▸ hc)
  covered q hq c hc := by
    by_cases heq : q = p
    · subst heq
      exact (hsome c hc).2.1 hq
    · rw [← hconnected q heq]
      exact h.covered q (hitems q hq heq) c (hclasses q heq ▸ hc)
  nonneg q c hc := by
    by_cases heq : q = p
    · subst heq
      exact (hsome c hc).2.2.1
    · exact h.nonneg q c (hclasses q heq ▸ hc)
  bounded q c hc := by
    by_cases heq : q = p
    · subst heq
      exact (hsome c hc).2.2.2.1
    · rw [← hconnected q heq]
      exact h.bounded q c (hclasses q heq ▸ hc)
  count q hq c hc := by
    by_cases heq : q = p
    · subst heq
      exact (hsome c hc).2.2.2.2 hq
    · rw [← hconnected q heq]
      exact h.count q hq c (hclasses q heq ▸ hc)
  alive q hq hnil := by
    by_cases heq : q = p
    · subst heq
      exact hnone hq hnil
    · rw [← hconnected q heq]
      exact h.alive q hq (hclasses q heq ▸ hnil)

theorem Ledger.leave (h : s.Ledger (a :: rest) loose)
    (hloose : a.conf.type ≠ .client → loose a.conf.classPtr) {c : ClassItem}
    (hc : s.classes a.conf.classPtr = some c) :
    (a.leave c).Sound (connected rest a.conf.classPtr) ∧
      (a.conf.classPtr ∈ s.classItems → (a.leave c).Covered (connected rest a.conf.classPtr)) ∧
      0 ≤ (a.leave c).currUserCount ∧
      (a.leave c).currUserCount ≤ (connected rest a.conf.classPtr).length ∧
      (¬ loose a.conf.classPtr →
        (a.leave c).currUserCount = (connected rest a.conf.classPtr).length) := by
  have hsound := h.sound _ c hc
  have hcovered := fun hp => h.covered _ hp c hc
  have hnonneg := h.nonneg _ c hc
  have hbounded := h.bounded _ c hc
  have hcount := fun hp => h.count _ hp c hc
  obtain ⟨-, hleave⟩ := leave_frame (a := a) (c := c)
  rw [hleave]
  by_cases hclient : a.conf.type = .client
  · rw [connected_cons_of_countsFor (countsFor_self hclient)] at hsound hcovered hbounded hcount
    rw [length_cons] at hbounded hcount
    push_cast at hbounded hcount
    obtain ⟨hsound', hcovered'⟩ := leave_sound_client hclient hsound
    refine ⟨hsound', fun hp => hcovered' (hcovered hp), ?_, ?_, fun hp => ?_⟩
    · split <;> omega
    · split <;> omega
    · have := hcount hp
      split <;> omega
  · have hloose := hloose hclient
    rw [connected_cons_of_not (not_countsFor_of_type hclient)] at hsound hcovered hbounded
    obtain ⟨hsound', hcovered'⟩ := leave_sound_other hclient hsound
    refine ⟨hsound', fun hp => hcovered' (hcovered hp), ?_, ?_, fun hp => absurd hloose hp⟩
    · split <;> omega
    · split <;> omega

theorem Ledger.detachClass (hframe : s.Frame) (h : s.Ledger (a :: rest) loose)
    (hloose : a.conf.type.hasClass → a.conf.type ≠ .client → loose a.conf.classPtr) :
    (s.detachClass a).Frame ∧ (s.detachClass a).Ledger rest loose := by
  have hothers : ∀ q, q ≠ a.conf.classPtr → connected (a :: rest) q = connected rest q :=
    fun q hq => connected_cons_of_not (not_countsFor_of_class hq)
  unfold ClassState.detachClass
  split
  · rename_i hno
    have hclient : a.conf.type ≠ .client := by
      intro hclient
      simp [hclient, ConfType.hasClass] at hno
    have hsame : ∀ q, connected (a :: rest) q = connected rest q :=
      fun q => connected_cons_of_not (not_countsFor_of_type hclient)
    exact ⟨hframe, ⟨fun p => hsame p ▸ h.sound p, fun p => hsame p ▸ h.covered p, h.nonneg,
      fun p => hsame p ▸ h.bounded p, fun p => hsame p ▸ h.count p, fun p => hsame p ▸ h.alive p⟩⟩
  · rename_i hclass
    have hloose := hloose (by simpa using hclass)
    split
    · rename_i hnone
      refine ⟨hframe, h.at_class (p := a.conf.classPtr) _ _ (fun _ _ => rfl) (fun _ hq _ => hq)
        hothers
        (fun c hc => absurd (hnone.symm.trans hc) (by simp)) fun hp _ => ?_⟩
      have hnil := h.alive _ hp hnone
      by_cases hclient : a.conf.type = .client
      · rw [connected_cons_of_countsFor (countsFor_self hclient)] at hnil
        cases hnil
      · exact absurd (hloose hclient) hp
    · rename_i c hc
      have hleave := h.leave hloose hc
      split
      · rename_i hfree
        rw [leave_frame.1] at hfree
        refine ⟨hframe.free hc hfree.1, h.at_class (p := a.conf.classPtr) _ _
          (fun q hq => update_of_ne hq _ _) (fun _ hq _ => erase_subset hq) hothers
          (fun d hd => ?_) fun hp _ => ?_⟩
        · rw [update_self] at hd
          cases hd
        · have hzero := hleave.2.2.2.2 hp
          exact eq_nil_of_length_eq_zero (by omega)
      · refine ⟨hframe.update _ hc fun hmax => (leave_frame (a := a) (c := c)).1.symm ▸ hmax,
          h.at_class (p := a.conf.classPtr) _ _
          (fun q hq => update_of_ne hq _ _) (fun _ hq _ => hq) hothers
          (fun d hd => ?_) fun _ hnone => ?_⟩
        · rw [update_self] at hd
          cases hd
          exact hleave
        · rw [update_self] at hnone
          cases hnone

theorem Ledger.detachAll {gone kept : List Attachment} (hframe : s.Frame)
    (h : s.Ledger (gone ++ kept) loose)
    (hloose : ∀ a ∈ gone, a.conf.type.hasClass → a.conf.type ≠ .client → loose a.conf.classPtr) :
    (gone.foldl ClassState.detachClass s).Frame ∧
      (gone.foldl ClassState.detachClass s).Ledger kept loose := by
  induction gone generalizing s with
  | nil => exact ⟨hframe, h⟩
  | cons a gone ih =>
    obtain ⟨hframe, h⟩ := h.detachClass hframe (hloose a mem_cons_self)
    exact ih hframe h fun b hb => hloose b (mem_cons_of_mem _ hb)

/-- Each connection is attached to one client conf at most. -/
def ClientsOnce (attachments : List Attachment) : Prop :=
  ((attachments.filter fun a => a.conf.type == .client).map fun a => a.conn.id).Nodup

/-- What holds between any two calls. -/
structure Sound (s : ClassState) : Prop where
  frame : s.Frame
  ledger : s.Ledger s.attachments fun _ => False
  once : ClientsOnce s.attachments

theorem connected_distinct (h : ClientsOnce s.attachments) (p : Nat) :
    ((connected s.attachments p).map Conn.id).Nodup := by
  have hsub : (s.attachments.filter fun a => a.conf.countsFor p).Sublist
      (s.attachments.filter fun a => a.conf.type == .client) := by
    apply monotone_filter_right
    intro a ha
    simp only [ClassConf.countsFor, Bool.and_eq_true] at ha
    exact ha.1
  rw [connected, map_map]
  exact (hsub.map _).nodup h

theorem Sound.exact (h : s.Sound) : s.Exact :=
  ⟨fun p c hc => (h.ledger.sound p c hc).exact (h.ledger.count p id c hc)
    (connected_distinct h.once p), fun p hnone => h.ledger.alive p id hnone⟩

/-! ### Detaching -/

theorem detached_perm (id : Nat) (type : Option ConfType) :
    s.attachments.Perm ((s.detached id type).1 ++ (s.detached id type).2) := by
  cases type with
  | none =>
    rw [detached, partition_eq_filter_filter]
    exact (filter_append_perm _ _).symm
  | some type =>
    rw [detached]
    cases hfind : s.attachments.find? fun a => a.conn.id == id && a.conf.type == type with
    | none =>
      have hnone : ∀ a ∈ s.attachments, ¬ (a.conn.id == id && a.conf.type == type) = true :=
        fun a ha => List.find?_eq_none.mp hfind a ha
      rw [eraseP_of_forall_not hnone]
      exact .refl _
    | some a =>
      obtain ⟨hfound, pre, post, hsplit, hpre⟩ := List.find?_eq_some_iff_append.mp hfind
      have hpre : ∀ b ∈ pre, ¬ (b.conn.id == id && b.conf.type == type) = true :=
        fun b hb => by
          rw [Bool.not_eq_true, ← Bool.not_eq_true']
          exact hpre b hb
      rw [hsplit, eraseP_append_right _ hpre, eraseP_cons, hfound]
      exact perm_middle

theorem detached_sublist (id : Nat) (type : Option ConfType) :
    (s.detached id type).2.Sublist s.attachments := by
  cases type with
  | none =>
    rw [detached, partition_eq_filter_filter]
    exact filter_sublist
  | some type => exact eraseP_sublist

theorem Sound.detachConf (h : s.Sound) (id : Nat) (type : Option ConfType)
    (hkeeps : ∀ a ∈ (s.detached id type).1, a.conf.type.hasClass →
      a.conf.type ≠ .client → connected (s.detached id type).2 a.conf.classPtr = []) :
    (s.detachConf id type).Sound := by
  have hledger := h.ledger.perm (detached_perm id type)
  have hloose : s.Ledger ((s.detached id type).1 ++ (s.detached id type).2)
      fun p => connected (s.detached id type).2 p = [] :=
    ⟨hledger.sound, hledger.covered, hledger.nonneg, hledger.bounded,
      fun p _ => hledger.count p not_false, fun p _ => hledger.alive p not_false⟩
  obtain ⟨hframe, hkept⟩ := hloose.detachAll h.frame hkeeps
  refine ⟨⟨hframe.listed, hframe.nodup, hframe.last, hframe.default, hframe.legal, hframe.fresh⟩,
    ⟨hkept.sound, hkept.covered, hkept.nonneg, hkept.bounded, fun p _ c hc => ?_, fun p _ hnone =>
      ?_⟩,
    ?_⟩
  · by_cases hnil : connected (s.detached id type).2 p = []
    · have hlow := hkept.nonneg p c hc
      have hhigh := hkept.bounded p c hc
      rw [hnil, length_nil] at hhigh
      show c.currUserCount = ((connected (s.detached id type).2 p).length : Int)
      rw [hnil, length_nil]
      omega
    · exact hkept.count p hnil c hc
  · by_cases hnil : connected (s.detached id type).2 p = []
    · exact hnil
    · exact hkept.alive p hnil hnone
  · exact (((detached_sublist id type).filter _).map _).nodup h.once

/-! ### Attaching -/

theorem once_cons_client {conn : Conn} {conf : ClassConf} (h : ClientsOnce s.attachments)
    (hclient : conf.type = .client)
    (hnew : s.attachments.any (fun a => a.conn.id == conn.id && a.conf.type == .client) = false) :
    ClientsOnce (⟨conn, conf⟩ :: s.attachments) := by
  unfold ClientsOnce
  rw [filter_cons_of_pos (by simp [hclient]), map_cons, nodup_cons]
  refine ⟨fun hmem => ?_, h⟩
  obtain ⟨a, ha, hid⟩ := List.mem_map.mp hmem
  obtain ⟨ha, htype⟩ := List.mem_filter.mp ha
  have hno := List.any_eq_false.mp hnew a ha
  apply hno
  rw [Bool.and_eq_true]
  exact ⟨by simpa using hid, htype⟩

theorem once_cons_other {conn : Conn} {conf : ClassConf} (h : ClientsOnce s.attachments)
    (hother : conf.type ≠ .client) : ClientsOnce (⟨conn, conf⟩ :: s.attachments) := by
  unfold ClientsOnce
  rw [filter_cons_of_neg (by simp [hother])]
  exact h

theorem Sound.attachConf (h : s.Sound) {conn : Conn} {conf : ClassConf} (hlegal : conf ∈ s.legal)
    (hnew : conf.type = .client →
      s.attachments.any (fun a => a.conn.id == conn.id && a.conf.type == .client) = false)
    (hkeeps : conf.type = .client → ∀ c ∈ s.classes conf.classPtr, 0 < c.numberPerCidr →
      c.cidrBitlenIpv6 ≠ 0 → c.KeepsOwn conn.ip) : (s.attachConf conn conf).Sound := by
  have hlisted := (h.frame.legal conf hlegal).1
  unfold ClassState.attachConf
  split
  · exact h
  · split
    · rename_i hclient
      split
      · exact h
      · rename_i c hc
        split
        · exact h
        · rename_i c' hcounted
          obtain ⟨hsound, hcovered, -, htotal, hcount⟩ := (h.ledger.sound _ c hc).cidrLimitReached
            (h.ledger.covered _ hlisted c hc) (hkeeps hclient c hc) hcounted
          have hself : connected (⟨conn, conf⟩ :: s.attachments) conf.classPtr =
              conn :: connected s.attachments conf.classPtr :=
            connected_cons_of_countsFor (a := ⟨conn, conf⟩) (countsFor_self hclient)
          have hframe := h.frame.update { c' with currUserCount := c'.currUserCount + 1 } hc
            fun hmax => htotal.symm ▸ hmax
          have hledger := h.ledger.at_class (p := conf.classPtr)
            (update s.classes conf.classPtr
              (some { c' with currUserCount := c'.currUserCount + 1 })) s.classItems
            (fun q hq => update_of_ne hq _ _) (fun _ hq _ => hq)
            (fun q hq => (connected_cons_of_not (a := ⟨conn, conf⟩)
              (not_countsFor_of_class hq)).symm)
            (fun d hd => ?_) fun _ hnone => ?_
          · exact ⟨⟨hframe.listed, hframe.nodup, hframe.last, hframe.default, hframe.legal,
              hframe.fresh⟩,
              ⟨hledger.sound, hledger.covered, hledger.nonneg, hledger.bounded, hledger.count,
                hledger.alive⟩, once_cons_client h.once hclient (hnew hclient)⟩
          · rw [update_self] at hd
            cases hd
            have hold := h.ledger.count _ not_false c hc
            have hlength : c'.currUserCount + 1 =
                ((conn :: connected s.attachments conf.classPtr).length : Int) := by
              rw [hcount, hold, length_cons]
              push_cast
              rfl
            rw [hself]
            refine ⟨hsound.congr rfl rfl rfl rfl rfl, fun _ => ⟨hcovered.covers4, hcovered.covers6⟩,
              ?_, Int.le_of_eq hlength, fun _ => hlength⟩
            show 0 ≤ c'.currUserCount + 1
            omega
          · rw [update_self] at hnone
            cases hnone
    · rename_i hother
      have hsame : ∀ q, connected (⟨conn, conf⟩ :: s.attachments) q = connected s.attachments q :=
        fun q => connected_cons_of_not (a := ⟨conn, conf⟩) (not_countsFor_of_type hother)
      exact ⟨⟨h.frame.listed, h.frame.nodup, h.frame.last, h.frame.default, h.frame.legal,
        h.frame.fresh⟩,
        ⟨fun p => (hsame p).symm ▸ h.ledger.sound p, fun p => (hsame p).symm ▸ h.ledger.covered p,
          h.ledger.nonneg, fun p => (hsame p).symm ▸ h.ledger.bounded p,
          fun p => (hsame p).symm ▸ h.ledger.count p, fun p => (hsame p).symm ▸ h.ledger.alive p⟩,
        once_cons_other h.once hother⟩

/-! ### A rehash -/

/-- The state in the middle of a rehash that began in another: a class with
connections is one of the old classes and still has its name. -/
structure Rereading (old s : ClassState) : Prop where
  frame : s.Frame
  ledger : s.Ledger s.attachments fun _ => False
  attachments : s.attachments = old.attachments
  named : ∀ p ∈ s.classItems, ∀ c ∈ s.classes p, connected s.attachments p ≠ [] →
    p ∈ old.classItems ∧ ∃ c₀ ∈ old.classes p, c₀.name = c.name

theorem Sound.clearOutOldConf (h : s.Sound) : Rereading s s.clearOutOldConf := by
  have hclass : ∀ p, ∀ c ∈ s.clearOutOldConf.classes p, ∃ c₀ ∈ s.classes p,
      c₀.name = c.name ∧ c₀.currUserCount = c.currUserCount ∧
      (∀ conns, c₀.Sound conns → c.Sound conns) ∧ ∀ conns, c₀.Covered conns → c.Covered conns := by
    intro p c hc
    simp only [ClassState.clearOutOldConf] at hc
    split at hc
    · obtain ⟨c₀, hc₀, rfl⟩ := Option.map_eq_some_iff.mp hc
      exact ⟨c₀, hc₀, rfl, rfl, fun _ hs => hs.congr rfl rfl rfl rfl rfl,
        fun _ hcov => ⟨hcov.covers4, hcov.covers6⟩⟩
    · exact ⟨c, hc, rfl, rfl, fun _ hs => hs, fun _ hcov => hcov⟩
  have hnone : ∀ p, s.clearOutOldConf.classes p = none ↔ s.classes p = none := by
    intro p
    simp only [ClassState.clearOutOldConf]
    split
    · exact Option.map_eq_none_iff
    · exact Iff.rfl
  obtain ⟨l, hl⟩ := h.frame.last
  have hdefault : classDefault ∉ s.classItems.dropLast := by
    have hnodup := h.frame.nodup
    rw [hl] at hnodup ⊢
    rw [dropLast_concat]
    exact fun hmem => (List.nodup_append.mp hnodup).2.2 _ hmem _ (mem_singleton_self _) rfl
  refine ⟨⟨fun p hp => ?_, h.frame.nodup, h.frame.last, fun c hc => ?_,
    fun f hf => absurd hf not_mem_nil, fun p hp => (hnone p).mpr (h.frame.fresh p hp)⟩,
    ⟨fun p c hc => ?_, fun p hp c hc => ?_, fun p c hc => ?_, fun p c hc => ?_, fun p _ c hc => ?_,
      fun p _ hp => h.ledger.alive p not_false ((hnone p).mp hp)⟩, rfl, fun p hp c hc _ => ⟨hp, ?_⟩⟩
  · rw [ne_eq, hnone]
    exact h.frame.listed p hp
  · apply h.frame.default c
    simp only [ClassState.clearOutOldConf, if_neg hdefault] at hc
    exact hc
  · obtain ⟨c₀, hc₀, -, -, hsound, -⟩ := hclass p c hc
    exact hsound _ (h.ledger.sound p c₀ hc₀)
  · obtain ⟨c₀, hc₀, -, -, -, hcovered⟩ := hclass p c hc
    exact hcovered _ (h.ledger.covered p hp c₀ hc₀)
  · obtain ⟨c₀, hc₀, -, hcount, -⟩ := hclass p c hc
    exact hcount ▸ h.ledger.nonneg p c₀ hc₀
  · obtain ⟨c₀, hc₀, -, hcount, -⟩ := hclass p c hc
    exact hcount ▸ h.ledger.bounded p c₀ hc₀
  · obtain ⟨c₀, hc₀, -, hcount, -⟩ := hclass p c hc
    exact hcount ▸ h.ledger.count p not_false c₀ hc₀
  · obtain ⟨c₀, hc₀, hname, -⟩ := hclass p c hc
    exact ⟨c₀, hc₀, hname⟩

theorem findExactNameConf_some {name : CStr} {p : Nat} (h : s.findExactNameConf name = some p) :
    p ∈ s.classItems ∧ ∃ c ∈ s.classes p, c.name ≠ [] ∧ ircEq c.name name = true := by
  refine ⟨mem_of_find?_eq_some h, ?_⟩
  have hfound := find?_some h
  cases hc : s.classes p with
  | none => simp [hc] at hfound
  | some c =>
    simp only [hc, Bool.and_eq_true, Bool.not_eq_true', isEmpty_eq_false_iff] at hfound
    exact ⟨c, rfl, hfound⟩

theorem rebuilt_nil {p : Nat} (h : connected s.attachments p = []) : s.rebuilt p = [] := by
  apply List.filter_eq_nil_iff.mpr
  intro conn _
  split
  · exact Bool.false_ne_true
  · rename_i a hlast
    intro hcounts
    have ha : a ∈ s.attachments := (List.mem_filter.mp (mem_of_getLast? hlast)).1
    have hmem : a.conn ∈ connected s.attachments p :=
      List.mem_map.mpr ⟨a, List.mem_filter.mpr ⟨ha, hcounts⟩, rfl⟩
    rw [h] at hmem
    exact not_mem_nil hmem

theorem rebuildCidrClass_of_nil {p : Nat} (old new : ClassItem) (h : s.rebuilt p = []) :
    ∃ l4 l6, s.rebuildCidrClass p old new = { new with listIpv4 := l4, listIpv6 := l6 } ∧
      (l4 = new.listIpv4 ∨ (0 < new.numberPerCidr ∧ 0 < new.cidrBitlenIpv4 ∧
        old.cidrBitlenIpv4 = new.cidrBitlenIpv4 ∧ l4 = old.listIpv4)) ∧
      (l6 = new.listIpv6 ∨ (0 < new.numberPerCidr ∧ 0 < new.cidrBitlenIpv6 ∧
        old.cidrBitlenIpv6 = new.cidrBitlenIpv6 ∧ l6 = old.listIpv6)) := by
  have hnone : ∀ (isFamily : QueryAddr → Bool) (c : ClassItem), recount [] isFamily c = c :=
    fun _ _ => rfl
  unfold rebuildCidrClass
  rw [h]
  simp only [hnone]
  split
  · rename_i hlimits
    have four : ∃ l4, (if 0 < old.cidrBitlenIpv4 ∧ 0 < new.cidrBitlenIpv4 then
          if old.cidrBitlenIpv4 = new.cidrBitlenIpv4 then { new with listIpv4 := old.listIpv4 }
            else new
        else new) = { new with listIpv4 := l4 } ∧
        (l4 = new.listIpv4 ∨ (0 < new.numberPerCidr ∧ 0 < new.cidrBitlenIpv4 ∧
          old.cidrBitlenIpv4 = new.cidrBitlenIpv4 ∧ l4 = old.listIpv4)) := by
      split
      · rename_i hpos
        split
        · rename_i hsame
          exact ⟨_, rfl, .inr ⟨hlimits.2, hpos.2, hsame, rfl⟩⟩
        · exact ⟨_, rfl, .inl rfl⟩
      · exact ⟨_, rfl, .inl rfl⟩
    obtain ⟨l4, hfour, hl4⟩ := four
    rw [hfour]
    refine ⟨l4, ?_⟩
    split
    · rename_i hpos
      split
      · rename_i hsame
        exact ⟨_, rfl, hl4, .inr ⟨hlimits.2, hpos.2, hsame, rfl⟩⟩
      · exact ⟨_, rfl, hl4, .inl rfl⟩
    · exact ⟨_, rfl, hl4, .inl rfl⟩
  · exact ⟨_, _, rfl, .inl rfl, .inl rfl⟩

theorem sound_rebuildCidrClass {p : Nat} {c : ClassItem} (d : ClassDef) (h : s.rebuilt p = [])
    (hc : c.Sound []) :
    (s.rebuildCidrClass p c d.item).Sound [] ∧ (s.rebuildCidrClass p c d.item).currUserCount = 0 ∧
      (s.rebuildCidrClass p c d.item).maxTotal = d.maxTotal := by
  obtain ⟨l4, l6, heq, hl4, hl6⟩ := rebuildCidrClass_of_nil c d.item h
  rw [heq]
  refine ⟨⟨d.bitlenIpv4_le, d.bitlenIpv6_le, fun hoff => ?_, fun hoff => ?_, ?_, ?_⟩, rfl, rfl⟩
  · rcases hl4 with rfl | ⟨hpos, hbit, -, -⟩
    · rfl
    · rcases hoff with hle | hzero
      · exact absurd hpos (Int.not_lt.mpr hle)
      · exact absurd hzero (Nat.ne_of_gt hbit)
  · rcases hl6 with rfl | ⟨hpos, hbit, -, -⟩
    · rfl
    · rcases hoff with hle | hzero
      · exact absurd hpos (Int.not_lt.mpr hle)
      · exact absurd hzero (Nat.ne_of_gt hbit)
  · rcases hl4 with rfl | ⟨-, -, -, rfl⟩
    · exact Counters.counts_nil
    · exact hc.counts4
  · rcases hl6 with rfl | ⟨-, -, hsame, rfl⟩
    · exact Counters.counts_nil
    · show Counts (key6 d.item.cidrBitlenIpv6) c.listIpv6 []
      rw [← hsame]
      exact hc.counts6

theorem covered_nil (c : ClassItem) : c.Covered [] :=
  ⟨fun _ _ => Counters.covers_nil, fun _ _ => Counters.covers_nil⟩

theorem Rereading.classEntry {old : ClassState} (h : Rereading old s) (d : ClassDef)
    (hkeeps : ∀ p ∈ old.classItems, ∀ c ∈ old.classes p, c.name ≠ [] → ircEq c.name d.name = true →
      connected old.attachments p = []) : Rereading old (s.classEntry d) := by
  unfold ClassState.classEntry
  split
  · rename_i p hfind
    obtain ⟨hp, c, hc, hname, heq⟩ := findExactNameConf_some hfind
    have hnil : connected s.attachments p = [] := by
      by_contra hne
      obtain ⟨hpold, c₀, hc₀, hsame⟩ := h.named p hp c hc hne
      apply hne
      rw [h.attachments]
      exact hkeeps p hpold c₀ hc₀ (hsame ▸ hname) (hsame ▸ heq)
    have hc : s.classes p = some c := hc
    rw [hc]
    have hsound := h.ledger.sound p c hc
    rw [hnil] at hsound
    obtain ⟨hsound', hcount, htotal⟩ := sound_rebuildCidrClass d (rebuilt_nil hnil) hsound
    have hframe := h.frame.update (s.rebuildCidrClass p c d.item) hc fun _ => by
      rw [htotal]
      exact Int.natCast_nonneg _
    refine ⟨hframe, h.ledger.at_class (p := p) _ _ (fun q hq => update_of_ne hq _ _)
      (fun _ hq _ => hq) (fun _ _ => rfl) (fun c' hc' => ?_) (fun _ _ => hnil), h.attachments,
      fun q hq c' hc' hne => ?_⟩
    · rw [update_self] at hc'
      cases hc'
      rw [hnil]
      exact ⟨hsound', fun _ => covered_nil _, Int.le_of_eq hcount.symm, Int.le_of_eq hcount,
        fun _ => hcount⟩
    · have hqp : q ≠ p := by
        rintro rfl
        exact hne hnil
      change update s.classes p _ q = some c' at hc'
      rw [update_of_ne hqp] at hc'
      exact h.named q hq c' hc' hne
  · have hfresh := h.frame.fresh s.nextPtr (Nat.le_refl _)
    have hnil := h.ledger.alive _ not_false hfresh
    have hnew : ∀ q ∈ s.classItems, q ≠ s.nextPtr := by
      rintro q hq rfl
      exact h.frame.listed _ hq hfresh
    have hitem : d.item.Sound [] :=
      ⟨d.bitlenIpv4_le, d.bitlenIpv6_le, fun _ => rfl, fun _ => rfl, Counters.counts_nil,
        Counters.counts_nil⟩
    have hkeep : ∀ q ∈ s.classItems,
        update s.classes s.nextPtr (some d.item) q = s.classes q :=
      fun q hq => update_of_ne (hnew q hq) _ _
    have hledger := h.ledger.at_class (p := s.nextPtr)
      (update s.classes s.nextPtr (some d.item)) (s.nextPtr :: s.classItems)
        (fun q hq => update_of_ne hq _ _)
      (fun q hq hne => (List.mem_cons.mp hq).resolve_left hne) (fun _ _ => rfl) (fun c hc => ?_)
      (fun _ _ => hnil)
    · refine ⟨⟨fun q hq => ?_, List.nodup_cons.mpr ⟨fun hq => hnew _ hq rfl, h.frame.nodup⟩, ?_,
        fun c hc => ?_, fun f hf => ?_, fun q hq => ?_⟩, ⟨hledger.sound, hledger.covered,
        hledger.nonneg, hledger.bounded, hledger.count, hledger.alive⟩, h.attachments,
        fun q hq c hc hne => ?_⟩
      · show update s.classes s.nextPtr (some d.item) q ≠ none
        rcases List.mem_cons.mp hq with rfl | hq
        · rw [update_self]
          exact Option.some_ne_none _
        · rw [hkeep q hq]
          exact h.frame.listed q hq
      · obtain ⟨l, hl⟩ := h.frame.last
        exact ⟨s.nextPtr :: l, by simp only [hl, cons_append]⟩
      · change update s.classes s.nextPtr (some d.item) classDefault = some c at hc
        rw [hkeep _ h.frame.default_mem] at hc
        exact h.frame.default c hc
      · obtain ⟨hlisted, htotal⟩ := h.frame.legal f hf
        refine ⟨mem_cons_of_mem _ hlisted, fun c hc => ?_⟩
        change update s.classes s.nextPtr (some d.item) f.classPtr = some c at hc
        rw [hkeep _ hlisted] at hc
        exact htotal c hc
      · have hq : s.nextPtr + 1 ≤ q := hq
        show update s.classes s.nextPtr (some d.item) q = none
        rw [update_of_ne (Nat.ne_of_gt hq)]
        exact h.frame.fresh q (Nat.le_of_succ_le hq)
      · change connected s.attachments q ≠ [] at hne
        change update s.classes s.nextPtr (some d.item) q = some c at hc
        rcases List.mem_cons.mp hq with rfl | hq
        · exact absurd hnil hne
        · rw [hkeep q hq] at hc
          exact h.named q hq c hc hne
    · rw [update_self] at hc
      cases hc
      rw [hnil]
      exact ⟨hitem, fun _ => covered_nil _, Int.le_refl _, Int.le_refl _, fun _ => rfl⟩

theorem Rereading.classEntries {old : ClassState} (h : Rereading old s) {defs : List ClassDef}
    (hkeeps : ∀ d ∈ defs, ∀ p ∈ old.classItems, ∀ c ∈ old.classes p, c.name ≠ [] →
      ircEq c.name d.name = true → connected old.attachments p = []) :
    Rereading old (defs.foldl ClassState.classEntry s) := by
  induction defs generalizing s with
  | nil => exact h
  | cons d defs ih =>
    exact ih (h.classEntry d (hkeeps d mem_cons_self)) fun e he =>
      hkeeps e (mem_cons_of_mem _ he)

theorem Frame.confClass (h : s.Frame) (className : Option CStr) :
    s.confClass className ∈ s.classItems ∧ ∀ c ∈ s.classes (s.confClass className),
      0 ≤ c.maxTotal := by
  have hdefault := And.intro h.default_mem h.default
  unfold ClassState.confClass
  split
  · exact hdefault
  · split
    · exact hdefault
    · rename_i p hfind
      split
      · exact hdefault
      · rename_i c hc
        split
        · exact hdefault
        · rename_i hmax
          refine ⟨(findExactNameConf_some hfind).1, fun d hd => ?_⟩
          rw [hc] at hd
          cases hd
          exact Int.not_lt.mp hmax

theorem Rereading.confEntry {old : ClassState} (h : Rereading old s) (d : ConfDef) :
    Rereading old (s.confEntry d) where
  frame := {
    listed := h.frame.listed
    nodup := h.frame.nodup
    last := h.frame.last
    default := h.frame.default
    legal := fun f hf => by
      rcases List.mem_append.mp hf with hf | hf
      · exact h.frame.legal f hf
      · cases List.mem_singleton.mp hf
        exact h.frame.confClass d.className
    fresh := fun p hp => h.frame.fresh p (Nat.le_of_succ_le hp) }
  ledger := ⟨h.ledger.sound, h.ledger.covered, h.ledger.nonneg, h.ledger.bounded, h.ledger.count,
    h.ledger.alive⟩
  attachments := h.attachments
  named := h.named

theorem Rereading.confEntries {old : ClassState} (h : Rereading old s) (confs : List ConfDef) :
    Rereading old (confs.foldl ClassState.confEntry s) := by
  induction confs generalizing s with
  | nil => exact h
  | cons d confs ih => exact ih (h.confEntry d)

def marked (s : ClassState) (p : Nat) : Prop := ∃ c ∈ s.classes p, c.maxTotal < 0

theorem checkClass_items (p : Nat) :
    p ∈ s.checkClass.classItems ↔ p ∈ s.classItems ∧ ¬ s.marked p := by
  simp only [checkClass, mem_filter, marked]
  cases s.classes p with
  | none => simp
  | some c => simp

theorem checkClass_of_unmarked {p : Nat} (h : ¬ s.marked p) : s.checkClass.classes p = s.classes
    p := by
  refine if_neg ?_
  rintro ⟨-, hmark⟩
  beta_reduce at hmark
  obtain ⟨c, hc, hmax⟩ := (Option.any_eq_true _ _).mp hmark
  exact h ⟨c, hc, of_decide_eq_true hmax⟩

theorem checkClass_cases (p : Nat) : s.checkClass.classes p = s.classes p ∨
    ∃ c, s.classes p = some c ∧ p ∉ s.checkClass.classItems ∧
      s.checkClass.classes p =
        if 0 < c.currUserCount then some { c with listIpv4 := [], listIpv6 := [] } else none := by
  by_cases hm : s.marked p
  · by_cases hp : p ∈ s.classItems
    · obtain ⟨c, hc, hlt⟩ := hm
      have hc : s.classes p = some c := hc
      refine .inr ⟨c, hc, fun hmem => ((checkClass_items p).mp hmem).2 ⟨c, hc, hlt⟩, ?_⟩
      simp [checkClass, hc, hp, hlt]
    · exact .inl (by simp [checkClass, hp])
  · exact .inl (checkClass_of_unmarked hm)

theorem Rereading.checkClass {old : ClassState} (h : Rereading old s) :
    s.checkClass.Frame ∧ s.checkClass.Ledger s.attachments fun _ => False := by
  have hlisted : ∀ p ∈ s.checkClass.classItems, p ∈ s.classItems ∧
      s.checkClass.classes p = s.classes p := fun p hp =>
    ⟨((checkClass_items p).mp hp).1, checkClass_of_unmarked ((checkClass_items p).mp hp).2⟩
  have hstays : ∀ p ∈ s.classItems, (∀ c ∈ s.classes p, 0 ≤ c.maxTotal) →
      p ∈ s.checkClass.classItems := by
    rintro p hp hmax
    refine (checkClass_items p).mpr ⟨hp, ?_⟩
    rintro ⟨c, hc, hlt⟩
    exact absurd hlt (Int.not_lt.mpr (hmax c hc))
  have hsame : ∀ p, ∀ c ∈ s.checkClass.classes p, ∃ c₀ ∈ s.classes p,
      c₀.currUserCount = c.currUserCount := by
    intro p c hc
    rcases checkClass_cases (s := s) p with hsame | ⟨c₀, hc₀, -, hnew⟩
    · exact ⟨c, hsame ▸ hc, rfl⟩
    · rw [hnew] at hc
      split at hc
      · cases hc
        exact ⟨c₀, hc₀, rfl⟩
      · cases hc
  have hdefault := hstays _ h.frame.default_mem h.frame.default
  refine ⟨⟨fun p hp => ?_, h.frame.nodup.filter _, ?_, fun c hc => ?_, fun f hf => ?_, fun p hp =>
    ?_⟩,
    ⟨fun p c hc => ?_, fun p hp c hc => ?_, fun p c hc => ?_, fun p c hc => ?_, fun p _ c hc => ?_,
      fun p _ hnone => ?_⟩⟩
  · obtain ⟨hp, hsame⟩ := hlisted p hp
    rw [hsame]
    exact h.frame.listed p hp
  · obtain ⟨l, hl⟩ := h.frame.last
    have hkept : (s.checkClass).classItems =
        s.classItems.filter fun p =>
          !((s.classes p).any fun c => c.maxTotal < 0) := rfl
    rw [hkept, hl, filter_append]
    refine ⟨_, congrArg _ ?_⟩
    rw [hkept] at hdefault
    exact List.filter_eq_self.mpr fun p hp => by
      cases List.mem_singleton.mp hp
      exact (List.mem_filter.mp hdefault).2
  · rw [(hlisted _ hdefault).2] at hc
    exact h.frame.default c hc
  · obtain ⟨hp, hmax⟩ := h.frame.legal f hf
    have hp := hstays _ hp hmax
    refine ⟨hp, fun c hc => ?_⟩
    rw [(hlisted _ hp).2] at hc
    exact hmax c hc
  · have hnone := h.frame.fresh p hp
    rcases checkClass_cases (s := s) p with hsame | ⟨c, hc, -⟩
    · rw [hsame]
      exact hnone
    · rw [hnone] at hc
      cases hc
  · rcases checkClass_cases (s := s) p with hsame | ⟨c₀, hc₀, -, hnew⟩
    · rw [hsame] at hc
      exact h.ledger.sound p c hc
    · rw [hnew] at hc
      split at hc
      · cases hc
        have hsound := h.ledger.sound p c₀ hc₀
        exact ⟨hsound.bitlen4, hsound.bitlen6, fun _ => rfl, fun _ => rfl, Counters.counts_nil,
          Counters.counts_nil⟩
      · cases hc
  · obtain ⟨hp, hsame⟩ := hlisted p hp
    rw [hsame] at hc
    exact h.ledger.covered p hp c hc
  · obtain ⟨c₀, hc₀, hcount⟩ := hsame p c hc
    exact hcount ▸ h.ledger.nonneg p c₀ hc₀
  · obtain ⟨c₀, hc₀, hcount⟩ := hsame p c hc
    exact hcount ▸ h.ledger.bounded p c₀ hc₀
  · obtain ⟨c₀, hc₀, hcount⟩ := hsame p c hc
    exact hcount ▸ h.ledger.count p not_false c₀ hc₀
  · rcases checkClass_cases (s := s) p with hsame | ⟨c, hc, -, hnew⟩
    · exact h.ledger.alive p not_false (hsame ▸ hnone)
    · rw [hnew] at hnone
      split at hnone
      · cases hnone
      · rename_i hzero
        have hcount := h.ledger.count p not_false c hc
        exact eq_nil_of_length_eq_zero (by omega)

theorem Sound.rehash (h : s.Sound) {defs : List ClassDef} (confs : List ConfDef)
    (hkeeps : s.Keeps (.rehash defs confs)) : (s.rehash defs confs).Sound := by
  have hread := (h.clearOutOldConf.classEntries hkeeps).confEntries confs
  obtain ⟨hframe, hledger⟩ := hread.checkClass
  refine ⟨hframe, hledger, ?_⟩
  show ClientsOnce (confs.foldl ClassState.confEntry
    (defs.foldl ClassState.classEntry s.clearOutOldConf)).attachments
  rw [hread.attachments]
  exact h.once

/-! ### Runs -/

theorem sound_start : start.Sound where
  frame := {
    listed := fun p hp => by
      cases List.mem_singleton.mp hp
      exact Option.some_ne_none _
    nodup := nodup_singleton _
    last := ⟨[], rfl⟩
    default := fun c hc => by
      cases hc
      exact Int.le_refl _
    legal := fun f hf => absurd hf not_mem_nil
    fresh := fun p hp => if_neg (Nat.ne_of_gt hp) }
  ledger := by
    have hclass : ∀ p, ∀ c ∈ start.classes p, c = {
        name := "default".toList, maxTotal := 0, numberPerCidr := 0, cidrBitlenIpv4 := 0,
        cidrBitlenIpv6 := 0 } := by
      intro p c hc
      simp only [start] at hc
      split at hc
      · cases hc
        rfl
      · cases hc
    refine ⟨fun p c hc => ?_, fun p _ c _ => covered_nil c, fun p c hc => ?_, fun p c hc => ?_,
      fun p _ c hc => ?_, fun _ _ _ => rfl⟩
    · cases hclass p c hc
      exact ⟨Nat.zero_le _, Nat.zero_le _, fun _ => rfl, fun _ => rfl, Counters.counts_nil,
        Counters.counts_nil⟩
    · cases hclass p c hc
      exact Int.le_refl _
    · cases hclass p c hc
      exact Int.le_refl _
    · cases hclass p c hc
      rfl
  once := nodup_nil

theorem Sound.step (h : s.Sound) (op : ClassOp) (hkeeps : s.Keeps op) : (s.step op).Sound := by
  cases op with
  | attach conn place =>
    simp only [ClassState.step]
    cases hconf : s.legal[place]? with
    | none => exact h
    | some conf =>
      simp only
      split
      · exact h
      · rename_i hnew
        refine h.attachConf (mem_of_getElem? hconf) (fun hclient => ?_) fun hclient =>
          hkeeps conf hconf hclient
        rw [← Bool.not_eq_true]
        exact fun hany => hnew ⟨hclient, hany⟩
  | detach id type => exact h.detachConf id (some type) hkeeps
  | exit id =>
    obtain ⟨hframe, hledger, honce⟩ := h.detachConf id none hkeeps
    exact ⟨⟨hframe.listed, hframe.nodup, hframe.last, hframe.default, hframe.legal, hframe.fresh⟩,
      ⟨hledger.sound, hledger.covered, hledger.nonneg, hledger.bounded, hledger.count,
        hledger.alive⟩, honce⟩
  | rehash defs confs => exact h.rehash confs hkeeps

/-- A client of the default class becomes an operator and gives it up again. -/
def operUp : List ClassOp :=
  let conn : Conn := ⟨1, .inet (Bytes.Block.ofList 4 [10, 0, 0, 1])⟩
  [.rehash [] [⟨.client, none, false⟩, ⟨.oper, none, false⟩], .attach conn 0, .attach conn 1,
    .detach 1 .oper]

/-- A client under a limit of its own class, until the class is read again. -/
def limited : List ClassOp :=
  [.rehash [⟨"users".toList, 5, 2, 24, 64, by decide, by decide⟩]
      [⟨.client, some "users".toList, false⟩],
    .attach ⟨1, .inet (Bytes.Block.ofList 4 [10, 0, 0, 1])⟩ 0, .exit 1,
    .rehash [⟨"users".toList, 5, 2, 16, 64, by decide, by decide⟩] []]

end ClassState

end Ircd
