import Ircd.Hostmask
import Ircd.Lib.Best
import Ircd.Lib.Run
import Mathlib.Tactic.IntervalCases

/-!
The address conf table of `hostmask.c`: `add_conf_by_address`,
`delete_one_address_conf` and `find_conf_by_address`.

A lookup visits only the buckets of some prefixes of the address and of some
suffixes of the host name. `findConfByAddress_iff` says when it still returns
the record that a scan over all records returns: when a record of the greatest
precedence among those that accept the query is not `Hidden`. Only a host mask
with a `#` can be (`findConfByAddress_misses_number_mask`).
-/

namespace Ircd

open Function
open Bytes (clearLow value highBits)

/-! ### Records and the table -/

/-- `struct AccessItem`: `ptr` stands for its address. -/
structure AccessItem where
  ptr : Nat
  host : CStr
  user : CStr
  passwd : Option CStr
  needPassword : Bool
  encrypted : Bool
  deriving DecidableEq, Repr

/-- The mask of a record: the type, and the union `Mask`. -/
inductive RecMask where
  | hostname (host : CStr)
  | ipv4 (addr : InAddr) (bits : Int)
  | ipv6 (addr : In6Addr) (bits : Nat)

/-- `struct AddressRec`. -/
structure AddressRec where
  mask : RecMask
  type : Nat
  precedence : Nat
  username : CStr
  aconf : AccessItem

/-- The hash table `atable`, and the static `prec_value` of
`add_conf_by_address`. -/
structure AddressTable where
  atable : Nat → List AddressRec
  precValue : Nat

/-- The table after `init_host_hash`. -/
def AddressTable.init : AddressTable := ⟨fun _ => [], 0xFFFFFFFF⟩

def recMask (address : CStr) : RecMask :=
  match parseNetmask address with
  | .host => .hostname address
  | .ipv4 addr bits => .ipv4 addr bits
  | .ipv6 addr bits => .ipv6 addr bits

/-- The bucket of a mask. The table is not hashed for every bit, so the prefix
length is rounded down. -/
def RecMask.hash : RecMask → Nat
  | .hostname host => getMaskHash host
  | .ipv4 addr bits => hashIpv4 addr (bits - bits.tmod 8)
  | .ipv6 addr bits => hashIpv6 addr (bits - bits % 16)

/-- The address of `add_conf_by_address`: an empty host stands for no match. -/
def confAddress (aconf : AccessItem) : CStr :=
  if aconf.host.isEmpty then "/NOMATCH!/".toList else aconf.host

/-- `add_conf_by_address`. The precedence counts down in an `unsigned long`. -/
def addConfByAddress (t : AddressTable) (type : Nat) (aconf : AccessItem) : AddressTable :=
  let arec : AddressRec :=
    { mask := recMask (confAddress aconf), type := type, precedence := t.precValue, username := aconf.user,
      aconf := aconf }
  let hv := arec.mask.hash
  { atable := update t.atable hv (arec :: t.atable hv)
    precValue := (t.precValue + 2 ^ 64 - 1) % 2 ^ 64 }

/-- `delete_one_address_conf`. -/
def deleteOneAddressConf (t : AddressTable) (address : CStr) (aconf : AccessItem) : AddressTable :=
  let hv := (recMask address).hash
  { t with
    atable := update t.atable hv
      ((t.atable hv).eraseP fun arec => arec.aconf.ptr == aconf.ptr) }

/-! ### The lookup -/

/-- An address that is looked up, with its family. -/
inductive QueryAddr where
  | inet (addr : InAddr)
  | inet6 (addr : In6Addr)

/-- The arguments of `find_conf_by_address`. -/
structure AddressQuery where
  name : Option CStr
  addr : Option QueryAddr
  type : Nat
  username : Option CStr
  password : Option CStr

section Lookup

variable (crypt : CStr → CStr → CStr)

/-- `match_conf_password` with the `crypt` of the system. -/
def matchConfPassword (password : CStr) (aconf : AccessItem) : Bool :=
  match aconf.passwd with
  | none => false
  | some passwd =>
    let encr :=
      if aconf.encrypted then if passwd.isEmpty then [] else crypt password passwd else password
    encr == passwd

/-- The conditions of the lookup on type, username and password. Bit 0 of the type
means that the username is ignored. -/
def AddressRec.admits (arec : AddressRec) (q : AddressQuery) : Bool :=
  arec.type == clearLow 1 q.type &&
    (q.type % 2 == 1 || matchMask arec.username (q.username.getD [])) &&
    (arec.aconf.needPassword || arec.aconf.passwd.isNone ||
      matchConfPassword crypt (q.password.getD []) arec.aconf)

/-- The mask test of the loops over the addresses. -/
def RecMask.matchesAddr (mask : RecMask) (addr : QueryAddr) : Bool :=
  match mask, addr with
  | .ipv6 m bits, .inet6 a => matchIpv6 a m bits
  | .ipv4 m bits, .inet a => matchIpv4 a m bits
  | _, _ => false

/-- The mask test of the loops over the names. -/
def RecMask.matchesName (mask : RecMask) (name : CStr) : Bool :=
  match mask with
  | .hostname host => matchMask host name
  | _ => false

/-- The buckets of the address loops, `b` from 128 down by 16 or from 32 down by 8. -/
def addrHashes : QueryAddr → List Nat
  | .inet6 a => [128, 112, 96, 80, 64, 48, 32, 16, 0].map fun b => hashIpv6 a b
  | .inet a => [32, 24, 16, 8, 0].map fun b => hashIpv4 a b

/-- The record that `find_conf_by_address` finds, with its precedence. -/
def findArec (t : AddressTable) (q : AddressQuery) : Nat × Option AddressRec :=
  let best : Nat × Option AddressRec :=
    match q.addr with
    | none => (0, none)
    | some addr =>
      ((addrHashes addr).map t.atable).foldl
        (Best.scan AddressRec.precedence fun arec => arec.admits crypt q && arec.mask.matchesAddr
          addr)
        (0, none)
  match q.name with
  | none => best
  | some name =>
    ((nameHashes name).map t.atable).foldl
      (Best.scan AddressRec.precedence fun arec => arec.admits crypt q && arec.mask.matchesName
        name)
      best

/-- `find_conf_by_address`. -/
def findConfByAddress (t : AddressTable) (q : AddressQuery) : Option AccessItem :=
  (findArec crypt t q).2.map AddressRec.aconf

/-! ### The linear scan -/

/-- The mask of a record accepts the query: `match` for a host mask, the prefix
for an address mask. -/
def RecMask.Accepts (mask : RecMask) (q : AddressQuery) : Prop :=
  match mask with
  | .hostname host => ∃ name, q.name = some name ∧ matchMask host name = true
  | .ipv4 m bits => 0 ≤ bits ∧
      ∃ a, q.addr = some (.inet a) ∧ highBits bits.toNat a.bytes = highBits bits.toNat m.bytes
  | .ipv6 m bits => ∃ a, q.addr = some (.inet6 a) ∧ highBits bits a.bytes = highBits bits m.bytes

/-- The record is stored, and its type, username, password and mask accept the
query. -/
def Accepting (t : AddressTable) (q : AddressQuery) (arec : AddressRec) : Prop :=
  (∃ h, arec ∈ t.atable h) ∧ arec.admits crypt q = true ∧ arec.mask.Accepts q

/-- The result of a scan over all records: nothing if none accepts the query, else
an accepting record of the greatest precedence. -/
def ScanResult (t : AddressTable) (q : AddressQuery) : Option AddressRec → Prop
  | none => ∀ arec, ¬ Accepting crypt t q arec
  | some arec => Accepting crypt t q arec ∧
      ∀ other, Accepting crypt t q other → other.precedence ≤ arec.precedence

/-- The lookup passes by the mask: its name is hashed where no suffix of the
queried name is, or its IPv6 address holds a bit behind the prefix. -/
def RecMask.Hidden (mask : RecMask) (q : AddressQuery) : Prop :=
  match mask with
  | .hostname host => ∀ name, q.name = some name → getMaskHash host ∉ nameHashes name
  | .ipv4 _ _ => False
  | .ipv6 m bits => ¬ Tidy m bits

/-- The lookup passes by the record: its mask is hidden, or its precedence has
counted down to zero. -/
def AddressRec.Hidden (arec : AddressRec) (q : AddressQuery) : Prop :=
  arec.precedence = 0 ∨ arec.mask.Hidden q

end Lookup

/-! ### Every record is in the bucket of its mask -/

/-- What the parser promises of the mask of a record. -/
def RecMask.Wf : RecMask → Prop
  | .hostname _ => True
  | .ipv4 addr bits => bits ≠ 0 ∧ bits ≤ 32 ∧ value addr.bytes % 2 ^ (32 - bits.toNat) = 0
  | .ipv6 _ bits => bits ≤ 128

/-- Every record is in the bucket of its mask. -/
def AddressTable.Wf (t : AddressTable) : Prop :=
  ∀ h arec, arec ∈ t.atable h → arec.mask.hash = h ∧ arec.mask.Wf

theorem recMask_wf (address : CStr) : (recMask address).Wf := by
  have h := parseNetmask_wf address
  unfold recMask
  split <;> rename_i hp <;> rw [hp] at h
  · trivial
  · exact h
  · exact h

theorem AddressTable.wf_init : AddressTable.init.Wf := by
  intro h arec hmem
  simp [AddressTable.init] at hmem

theorem AddressTable.Wf.add {t : AddressTable} (ht : t.Wf) (type : Nat) (aconf : AccessItem) :
    (addConfByAddress t type aconf).Wf := by
  intro h arec hmem
  simp only [addConfByAddress, update_apply] at hmem
  split at hmem
  · rename_i hh
    rcases List.mem_cons.mp hmem with rfl | hmem
    · exact ⟨hh.symm, recMask_wf _⟩
    · rw [hh]
      exact ht _ arec hmem
  · exact ht h arec hmem

theorem AddressTable.Wf.delete {t : AddressTable} (ht : t.Wf) (address : CStr)
    (aconf : AccessItem) : (deleteOneAddressConf t address aconf).Wf := by
  intro h arec hmem
  simp only [deleteOneAddressConf, update_apply] at hmem
  split at hmem
  · rename_i hh
    rw [hh]
    exact ht _ arec (List.mem_of_mem_eraseP hmem)
  · exact ht h arec hmem

/-- The two operations on the table. -/
inductive AddressOp where
  | add (type : Nat) (aconf : AccessItem)
  | delete (address : CStr) (aconf : AccessItem)

def AddressTable.step (t : AddressTable) : AddressOp → AddressTable
  | .add type aconf => addConfByAddress t type aconf
  | .delete address aconf => deleteOneAddressConf t address aconf

/-- The table after any sequence of operations. -/
def tableAfter (ops : List AddressOp) : AddressTable :=
  Run.exec AddressTable.step AddressTable.init ops

theorem tableAfter_wf (ops : List AddressOp) : (tableAfter ops).Wf := by
  have hstep : ∀ (t : AddressTable) op, t.Wf → True → (t.step op).Wf := by
    intro t op ht _
    cases op with
    | add type aconf => exact ht.add type aconf
    | delete address aconf => exact ht.delete address aconf
  exact Run.inv_exec hstep AddressTable.wf_init (Run.guarded_true _ _)

/-! ### What the lookup sees -/

section Seen

variable (crypt : CStr → CStr → CStr)

/-- The record is in a visited bucket and passes the tests of the loop there. -/
def Seen (t : AddressTable) (q : AddressQuery) (arec : AddressRec) : Prop :=
  (∃ addr, q.addr = some addr ∧ (∃ h ∈ addrHashes addr, arec ∈ t.atable h) ∧
      arec.admits crypt q = true ∧ arec.mask.matchesAddr addr = true) ∨
    ∃ name, q.name = some name ∧ (∃ h ∈ nameHashes name, arec ∈ t.atable h) ∧
      arec.admits crypt q = true ∧ arec.mask.matchesName name = true

theorem isBest_findArec (t : AddressTable) (q : AddressQuery) :
    Best.IsBest AddressRec.precedence (Seen crypt t q) (findArec crypt t q) := by
  have hbuckets : ∀ (hs : List Nat) (a : AddressRec),
      (∃ l ∈ hs.map t.atable, a ∈ l) ↔ ∃ h ∈ hs, a ∈ t.atable h := by
    intro hs a
    simp
  have haddr : Best.IsBest AddressRec.precedence
      (fun arec => ∃ addr, q.addr = some addr ∧ (∃ h ∈ addrHashes addr, arec ∈ t.atable h) ∧
        arec.admits crypt q = true ∧ arec.mask.matchesAddr addr = true)
      (findArec crypt t { q with name := none }) := by
    cases hq : q.addr with
    | none =>
      simp only [findArec]
      exact (Best.isBest_start _).congr fun a => by simp
    | some addr =>
      simp only [findArec]
      refine (Best.isBest_foldl_scan (Best.isBest_start _) _).congr fun a => ?_
      rw [hbuckets]
      simp [AddressRec.admits]
  cases hn : q.name with
  | none =>
    have hq : { q with name := none } = q := by rw [← hn]
    rw [hq] at haddr
    refine haddr.congr fun a => ?_
    simp [Seen, hn]
  | some name =>
    have hfind : findArec crypt t q =
        ((nameHashes name).map t.atable).foldl
          (Best.scan AddressRec.precedence fun arec =>
            arec.admits crypt q && arec.mask.matchesName name)
          (findArec crypt t { q with name := none }) := by
      simp only [findArec, hn]
      rfl
    rw [hfind]
    refine (Best.isBest_foldl_scan haddr _).congr fun a => ?_
    rw [hbuckets]
    simp [Seen, hn]

variable {crypt}

theorem hash_mem_addrHashes_inet {a m : InAddr} {bits : Int} (hpos : 1 ≤ bits) (hle : bits ≤ 32)
    (h : highBits bits.toNat a.bytes = highBits bits.toNat m.bytes) :
    (RecMask.ipv4 m bits).hash ∈ addrHashes (.inet a) := by
  obtain ⟨k, hk, hk4, hkb⟩ : ∃ k : Nat, bits - bits.tmod 8 = (8 * k : Nat) ∧ k ≤ 4 ∧
      8 * k ≤ bits.toNat := by
    refine ⟨bits.toNat / 8, ?_, ?_, ?_⟩
    · rw [Int.tmod_eq_emod_of_nonneg (by omega)]
      omega
    · omega
    · omega
  have hhash : (RecMask.ipv4 m bits).hash = hashIpv4 a (8 * k : Nat) := by
    rw [RecMask.hash, hk]
    exact (hashIpv4_congr hkb (by omega) h).symm
  rw [hhash, addrHashes]
  refine List.mem_map.mpr ⟨(8 * k : Nat), ?_, rfl⟩
  interval_cases k <;> simp

theorem hash_mem_addrHashes_inet6 {a m : In6Addr} {bits : Nat} (hle : bits ≤ 128)
    (h : highBits bits a.bytes = highBits bits m.bytes) :
    (RecMask.ipv6 m bits).hash ∈ addrHashes (.inet6 a) := by
  obtain ⟨k, hk, hk8, hkb⟩ : ∃ k : Nat, bits - bits % 16 = 16 * k ∧ k ≤ 8 ∧ 16 * k ≤ bits :=
    ⟨bits / 16, by omega, by omega, by omega⟩
  have htwo : 16 * k = 8 * (2 * k) := by omega
  have hhash : (RecMask.ipv6 m bits).hash = hashIpv6 a (16 * k) := by
    rw [RecMask.hash, hk, htwo]
    exact (hashIpv6_congr (by omega) hle h).symm
  rw [hhash, addrHashes]
  refine List.mem_map.mpr ⟨16 * k, ?_, rfl⟩
  interval_cases k <;> simp

theorem seen_iff {t : AddressTable} (ht : t.Wf) {q : AddressQuery} {arec : AddressRec} :
    Seen crypt t q arec ↔ Accepting crypt t q arec ∧ ¬ arec.mask.Hidden q := by
  unfold Seen Accepting RecMask.Hidden
  cases hmask : arec.mask with
  | hostname host =>
    have hhash : ∀ h, arec ∈ t.atable h → getMaskHash host = h := fun h hmem => by
      have := (ht h arec hmem).1
      rwa [hmask] at this
    simp only [RecMask.matchesAddr, RecMask.matchesName, RecMask.Accepts]
    constructor
    · rintro (⟨addr, -, -, -, hfalse⟩ | ⟨name, hname, ⟨h, hmem, hin⟩, hadm, hm⟩)
      · simp at hfalse
      · refine ⟨⟨⟨h, hin⟩, hadm, name, hname, hm⟩, fun hnot => ?_⟩
        exact hnot name hname (by rwa [hhash h hin])
    · rintro ⟨⟨⟨h, hin⟩, hadm, name, hname, hm⟩, hvis⟩
      refine .inr ⟨name, hname, ⟨h, ?_, hin⟩, hadm, hm⟩
      by_contra hnot
      refine hvis fun name' hname' => ?_
      rw [hname] at hname'
      cases hname'
      rwa [hhash h hin]
  | ipv4 m bits =>
    simp only [RecMask.matchesName, RecMask.Accepts, not_false_eq_true, and_true]
    constructor
    · rintro (⟨addr, haddr, ⟨h, -, hin⟩, hadm, hm⟩ | ⟨name, -, -, -, hfalse⟩)
      · have hwf := (ht h arec hin).2
        rw [hmask] at hwf
        cases addr with
        | inet a =>
          obtain ⟨hpos, hbits⟩ := (matchIpv4_iff hwf.2.1 hwf.2.2).mp hm
          exact ⟨⟨h, hin⟩, hadm, by omega, a, haddr, hbits⟩
        | inet6 a => simp [RecMask.matchesAddr] at hm
      · simp at hfalse
    · rintro ⟨⟨h, hin⟩, hadm, hnonneg, a, haddr, hbits⟩
      obtain ⟨hh, hwf⟩ := ht h arec hin
      rw [hmask] at hh hwf
      have hpos : 1 ≤ bits := by
        have := hwf.1
        omega
      refine .inl ⟨.inet a, haddr, ⟨h, ?_, hin⟩, hadm, ?_⟩
      · rw [← hh]
        exact hash_mem_addrHashes_inet hpos hwf.2.1 hbits
      · exact (matchIpv4_iff hwf.2.1 hwf.2.2).mpr ⟨hpos, hbits⟩
  | ipv6 m bits =>
    simp only [RecMask.matchesName, RecMask.Accepts, not_not]
    constructor
    · rintro (⟨addr, haddr, ⟨h, -, hin⟩, hadm, hm⟩ | ⟨name, -, -, -, hfalse⟩)
      · have hwf := (ht h arec hin).2
        rw [hmask] at hwf
        cases addr with
        | inet a => simp [RecMask.matchesAddr] at hm
        | inet6 a =>
          obtain ⟨hbits, htidy⟩ := (matchIpv6_iff hwf).mp hm
          exact ⟨⟨⟨h, hin⟩, hadm, a, haddr, hbits⟩, htidy⟩
      · simp at hfalse
    · rintro ⟨⟨⟨h, hin⟩, hadm, a, haddr, hbits⟩, htidy⟩
      obtain ⟨hh, hwf⟩ := ht h arec hin
      rw [hmask] at hh hwf
      refine .inl ⟨.inet6 a, haddr, ⟨h, ?_, hin⟩, hadm, ?_⟩
      · rw [← hh]
        exact hash_mem_addrHashes_inet6 hwf hbits
      · exact (matchIpv6_iff hwf).mpr ⟨hbits, htidy⟩

end Seen

theorem findArec_scanResult_iff (crypt : CStr → CStr → CStr) (ops : List AddressOp)
    (q : AddressQuery) :
    ScanResult crypt (tableAfter ops) q (findArec crypt (tableAfter ops) q).2 ↔
      (∀ arec, ¬ Accepting crypt (tableAfter ops) q arec) ∨
        ∃ arec, ScanResult crypt (tableAfter ops) q (some arec) ∧ ¬ arec.Hidden q := by
  have ht := tableAfter_wf ops
  have hbest := isBest_findArec crypt (tableAfter ops) q
  generalize hfind : findArec crypt (tableAfter ops) q = best at hbest ⊢
  rcases best with ⟨k, _ | found⟩
  · -- nothing found: every record seen has precedence zero
    constructor
    · intro h
      exact .inl h
    · rintro (h | ⟨arec, ⟨hacc, -⟩, hvis⟩)
      · exact h
      · obtain ⟨hprec, hmask⟩ := not_or.mp hvis
        exact absurd (hbest.2 arec (seen_iff ht |>.mpr ⟨hacc, hmask⟩)) hprec
  · obtain ⟨hseen, hk, hpos, hall⟩ := hbest
    obtain ⟨hacc, hmask⟩ := (seen_iff ht).mp hseen
    constructor
    · intro h
      refine .inr ⟨found, h, not_or.mpr ⟨?_, hmask⟩⟩
      omega
    · rintro (h | ⟨arec, ⟨hacc', hmax⟩, hvis⟩)
      · exact absurd hacc (h found)
      · obtain ⟨-, hmask'⟩ := not_or.mp hvis
        have hle := hall arec ((seen_iff ht).mpr ⟨hacc', hmask'⟩)
        refine ⟨hacc, fun other hother => ?_⟩
        have := hmax other hother
        omega

/-- `find_conf_by_address` returns the item of the record that a scan over all
records returns, exactly when no record accepts the query or some accepting
record of the greatest precedence is not hidden. -/
theorem findConfByAddress_iff (crypt : CStr → CStr → CStr) (ops : List AddressOp)
    (q : AddressQuery) :
    (∃ res, ScanResult crypt (tableAfter ops) q res ∧
        (findArec crypt (tableAfter ops) q).2 = res ∧
        findConfByAddress crypt (tableAfter ops) q = res.map AddressRec.aconf) ↔
      (∀ arec, ¬ Accepting crypt (tableAfter ops) q arec) ∨
        ∃ arec, ScanResult crypt (tableAfter ops) q (some arec) ∧ ¬ arec.Hidden q := by
  rw [← findArec_scanResult_iff]
  constructor
  · rintro ⟨res, hres, rfl, -⟩
    exact hres
  · intro h
    exact ⟨_, h, rfl, rfl⟩

/-- A K-line on `irc#.example.com`. -/
def numberKline : AccessItem :=
  { ptr := 1, host := "irc#.example.com".toList, user := "*".toList, passwd := none,
    needPassword := true, encrypted := false }

/-- A client at `irc1.example.com` is looked up among the K-lines. -/
def numberQuery : AddressQuery :=
  { name := some "irc1.example.com".toList, addr := none, type := 0x10,
    username := some "user".toList, password := none }

/-- The mask `irc#.example.com` accepts the name, and the lookup does not find
it. -/
theorem findConfByAddress_misses_number_mask :
    findConfByAddress (fun _ _ => []) (tableAfter [.add 0x10 numberKline]) numberQuery = none ∧
      ∃ arec, Accepting (fun _ _ => []) (tableAfter [.add 0x10 numberKline]) numberQuery arec := by
  refine ⟨by decide, ⟨.hostname numberKline.host, 0x10, 0xFFFFFFFF, "*".toList, numberKline⟩,
    ⟨getMaskHash numberKline.host, ?_⟩, by decide, "irc1.example.com".toList, rfl, by decide⟩
  have hmask : recMask (confAddress numberKline) = .hostname numberKline.host := rfl
  simp only [tableAfter, Run.exec_cons, Run.exec_nil, AddressTable.step, addConfByAddress, hmask]
  simp [AddressTable.init, RecMask.hash, numberKline]

end Ircd
