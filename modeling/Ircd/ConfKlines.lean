import Ircd.AddressConf
import Ircd.Gline
import Ircd.Match

/-!
The lines against clients, tested when a client connects and again when the lines
have changed.

A connecting client meets the D-line check of `conf_connect_allowed`, then
`verify_access`, then the X-lines; `check_conf_klines` goes over the registered
clients. Both look the lines up alike, and differ in what an exemption ends.

- `check_conf_klines_agrees_iff`: when both decide alike.
- `gline_exempt_keeps_klined`: a client that may stay and may not come back.

Whether the class of a client has room (`attach_iline`), the notices and the
counters are left out.
-/

namespace Ircd

open Function

/-- `CONF_CLIENT`. -/
def CONF_CLIENT : Nat := 0x2

/-- `CONF_KILL`, also `CONF_KLINE`. -/
def CONF_KILL : Nat := 0x10

/-- `CONF_EXEMPTKLINE`. -/
def CONF_EXEMPTKLINE : Nat := 0x200

/-- `CONF_DLINE`. -/
def CONF_DLINE : Nat := 0x800

/-- `CONF_EXEMPTDLINE`. -/
def CONF_EXEMPTDLINE : Nat := 0x4000

/-! ### The lines -/

/-- The flags of an auth block that the checks read. -/
structure AuthFlags where
  exemptKline : Bool
  exemptGline : Bool
  redir : Bool
  deriving DecidableEq

/-- The lines, permanent and temporary: the address table, `rkconf_items` with the
expressions for user and host, `xconf_items` and `rxconf_items`; the flags of the
auth blocks by their address, and the option `glines`. The status of an item is the
type of its record. Nothing is ever put into the table as `CONF_EXEMPTKLINE`. -/
structure Lines (ρ : Type*) where
  table : AddressTable
  flags : Nat → AuthFlags
  rkconf : List (ρ × ρ)
  xconf : List CStr
  rxconf : List ρ
  glines : Bool
  noExemptKline : ∀ h arec, arec ∈ table.atable h → arec.type ≠ CONF_EXEMPTKLINE

/-- A client of `local_client_list`. -/
structure LocalClient where
  username : CStr
  host : CStr
  sockhost : CStr
  info : CStr
  ip : QueryAddr
  exemptKline : Bool
  exemptGline : Bool
  isDead : Bool := false
  isClient : Bool := true

/-- A client that registers: `ident` is the user name of a valid ident reply, `user`
what it gave with `USER`. -/
structure ConnectingClient where
  ident : Option CStr
  user : CStr
  host : CStr
  sockhost : CStr
  info : CStr
  ip : QueryAddr
  passwd : Option CStr

/-- The kinds of lines that `ban_them` is called with. -/
inductive BannedBy where
  | dline
  | gline
  | kline
  | xline
  deriving DecidableEq

/-- The answers of `verify_access`, `attach` for a call of `attach_iline`. -/
inductive Access where
  | attach (aconf : AccessItem)
  | notAuthorized
  | banned

/-- The client is not passed on to `attach_iline`. -/
def Access.refuses : Access → Bool
  | .attach _ => false
  | .notAuthorized => true
  | .banned => true

/-- The user name that `verify_access` looks up: `non_ident` without an ident
reply. -/
def ConnectingClient.username (n : ConnectingClient) : CStr :=
  match n.ident with
  | some username => username
  | none => '~' :: strlcpy n.user USERLEN

def AddressOp.adds (type : Nat) : AddressOp → Bool
  | .add type' _ => type' == type
  | .delete _ _ => false

namespace Lines

variable {ρ : Type*} (crypt : CStr → CStr → CStr) (pcre : ρ → CStr → Bool) (t : Lines ρ)

/-! ### Lookups -/

/-- `find_conf_by_address`, with the record of the item. -/
def findRec (q : AddressQuery) : Option AddressRec := (findArec crypt t.table q).2

/-- The lookup of a type of line for a user. -/
def findType (type : Nat) (host user : CStr) (ip : QueryAddr) (password : Option CStr) :
    Option AddressRec :=
  t.findRec crypt ⟨some host, some ip, type, some user, password⟩

/-- The lookup of a type of line for an address. -/
def findIp (type : Nat) (ip : QueryAddr) : Option AddressRec :=
  t.findRec crypt ⟨none, some ip, type ||| 1, none, none⟩

/-- `find_dline_conf`. -/
def findDlineConf (ip : QueryAddr) : Option AddressRec :=
  (t.findIp crypt CONF_EXEMPTDLINE ip).or (t.findIp crypt CONF_DLINE ip)

/-- `find_gline_conf`. -/
def findGlineConf (host user : CStr) (ip : QueryAddr) : Option AddressRec :=
  (t.findType crypt CONF_EXEMPTKLINE host user ip none).or
    (t.findType crypt CONF_GLINE host user ip none)

/-- `find_kline_conf`. -/
def findKlineConf (host user : CStr) (ip : QueryAddr) : Option AddressRec :=
  (t.findType crypt CONF_EXEMPTKLINE host user ip none).or
    (t.findType crypt CONF_KILL host user ip none)

/-- `find_address_conf`. -/
def findAddressConf (host user : CStr) (ip : QueryAddr) (password : Option CStr) :
    Option AddressRec :=
  match t.findType crypt CONF_CLIENT host user ip password with
  | none => none
  | some iconf =>
    if (t.flags iconf.aconf.ptr).exemptKline then some iconf
    else
      match t.findType crypt CONF_KILL host user ip none with
      | some kconf => some kconf
      | none =>
        match t.findType crypt CONF_GLINE host user ip none with
        | some kconf => if (t.flags iconf.aconf.ptr).exemptGline then some iconf else some kconf
        | none => some iconf

/-- `find_regexp_kline`. -/
def findRegexpKline (user host sockhost : CStr) : Option (ρ × ρ) :=
  t.rkconf.find? fun aptr => pcre aptr.1 user && (pcre aptr.2 host || pcre aptr.2 sockhost)

/-- `find_matching_name_conf` for X-lines, of names and of expressions. -/
def isXlined (info : CStr) : Bool :=
  (t.xconf.any fun name => !name.isEmpty && matchEsc name info) || t.rxconf.any fun name =>
    pcre name info

/-! ### `check_conf_klines` -/

/-- `find_kill`, whether it finds a line. -/
def findKill (c : LocalClient) : Bool :=
  match t.findKlineConf crypt c.host c.username c.ip with
  | some aconf => aconf.type &&& CONF_KILL != 0
  | none => (t.findRegexpKline pcre c.username c.host c.sockhost).isSome

/-- `find_gline`, whether it finds a line. -/
def findGline (c : LocalClient) : Bool :=
  (t.findGlineConf crypt c.host c.username c.ip).any fun aconf => aconf.type &&& CONF_GLINE != 0

/-- The body of the first loop of `check_conf_klines`: what a client is banned by. -/
def checkConfKline (c : LocalClient) : Option BannedBy :=
  if c.isDead || !c.isClient then none
  else
    match t.findDlineConf crypt c.ip with
    | some aconf => if aconf.type &&& CONF_EXEMPTDLINE != 0 then none else some .dline
    | none =>
      if t.glines && t.findGline crypt c then
        if c.exemptKline || c.exemptGline then none else some .gline
      else if t.findKill crypt pcre c then
        if c.exemptKline then none else some .kline
      else if t.isXlined pcre c.info then some .xline
      else none

/-- The body of the second loop: an unregistered connection exits. -/
def checkUnknown (ip : QueryAddr) : Bool :=
  (t.findDlineConf crypt ip).any fun aconf => aconf.type &&& CONF_EXEMPTDLINE == 0

/-- `check_conf_klines`: the clients and the unregistered connections that stay. -/
def checkConfKlines (clients : List LocalClient) (unknown : List QueryAddr) :
    List LocalClient × List QueryAddr :=
  (clients.filter fun c => (t.checkConfKline crypt pcre c).isNone,
    unknown.filter fun ip => !t.checkUnknown crypt ip)

/-! ### Connecting -/

/-- The D-line check of `conf_connect_allowed`. -/
def connectAllowed (ip : QueryAddr) : Bool :=
  match t.findDlineConf crypt ip with
  | some aconf => aconf.type &&& CONF_EXEMPTDLINE != 0
  | none => true

/-- `verify_access` with the item that `find_address_conf` found, and whether there is a
regex K-line. -/
def accessOf (aconf : AddressRec) (rkconf : Bool) : Access :=
  if aconf.type &&& CONF_CLIENT != 0 && !rkconf then
    if (t.flags aconf.aconf.ptr).redir then .notAuthorized else .attach aconf.aconf
  else if rkconf || aconf.type == CONF_KILL || (t.glines && aconf.type == CONF_GLINE) then .banned
  else .notAuthorized

/-- `verify_access`. -/
def verifyAccess (n : ConnectingClient) : Access :=
  match t.findAddressConf crypt n.host n.username n.ip n.passwd with
  | none => .notAuthorized
  | some aconf => t.accessOf aconf (t.findRegexpKline pcre n.username n.host n.sockhost).isSome

def connectRefused (n : ConnectingClient) : Bool :=
  !t.connectAllowed crypt n.ip || (t.verifyAccess crypt pcre n).refuses || t.isXlined pcre n.info

/-! ### What the decisions depend on -/

/-- A registered client, not one that is exiting, and a client that connects with the
same user, host, address and gecos to the auth block the registered one is in. -/
structure Same (c : LocalClient) (n : ConnectingClient) : Prop where
  alive : c.isDead = false
  registered : c.isClient = true
  username : n.username = c.username
  host : n.host = c.host
  sockhost : n.sockhost = c.sockhost
  info : n.info = c.info
  ip : n.ip = c.ip
  block : ∃ iconf, t.findType crypt CONF_CLIENT n.host n.username n.ip n.passwd = some iconf ∧
    (t.flags iconf.aconf.ptr).exemptKline = c.exemptKline ∧
    ((t.flags iconf.aconf.ptr).exemptKline = false →
      (t.flags iconf.aconf.ptr).exemptGline = c.exemptGline) ∧
    (t.flags iconf.aconf.ptr).redir = false

/-- A K-line, a G-line or a regex K-line on the client. -/
def klined (c : LocalClient) : Bool := (t.findType crypt CONF_KILL c.host c.username c.ip
    none).isSome

@[inherit_doc klined]
def glined (c : LocalClient) : Bool := (t.findType crypt CONF_GLINE c.host c.username c.ip
    none).isSome

@[inherit_doc klined]
def regexKlined (c : LocalClient) : Bool :=
  (t.findRegexpKline pcre c.username c.host c.sockhost).isSome

/-- A line on the client that a connecting client meets behind the D-lines. -/
def MetBehindDlines (c : LocalClient) : Prop :=
  t.regexKlined pcre c = true ∨ t.isXlined pcre c.info = true ∨
    c.exemptKline = false ∧ (t.klined crypt c = true ∨ t.glined crypt c = true ∧
      c.exemptGline = false)

/-- `check_conf_klines` passes the client because of an exemption. -/
def PassedExempt (c : LocalClient) : Prop :=
  (t.findIp crypt CONF_EXEMPTDLINE c.ip).isSome = true ∨
    (t.findIp crypt CONF_DLINE c.ip).isSome = false ∧
      if t.glines = true ∧ t.glined crypt c = true then c.exemptKline = true ∨ c.exemptGline = true
      else c.exemptKline = true ∧ (t.klined crypt c = true ∨ t.regexKlined pcre c = true)

/-- The exemption that `check_conf_klines` passes the client for is not followed by a
line that a connecting client meets; and with the option off, there is no G-line on a
client without exemption on which there is no other line. -/
def Agreeing (c : LocalClient) : Prop :=
  (t.PassedExempt crypt pcre c → ¬t.MetBehindDlines crypt pcre c) ∧
    (t.glines = false → t.glined crypt c = true → c.exemptKline = true ∨ c.exemptGline = true ∨
      (t.findIp crypt CONF_EXEMPTDLINE c.ip).isSome = true ∨
      (t.findIp crypt CONF_DLINE c.ip).isSome = true ∨ t.klined crypt c = true ∨
      t.regexKlined pcre c = true ∨ t.isXlined pcre c.info = true)

variable {crypt pcre t} {c : LocalClient} {n : ConnectingClient}

theorem tableAfter_type_ne {type : Nat} {ops : List AddressOp}
    (hops : ∀ op ∈ ops, op.adds type = false) (b : Nat) (arec : AddressRec)
    (hmem : arec ∈ (tableAfter ops).atable b) : arec.type ≠ type := by
  have hrun : ∀ {t : AddressTable} {ops : List AddressOp},
      (∀ b, ∀ arec ∈ t.atable b, arec.type ≠ type) →
      (∀ op ∈ ops, op.adds type = false) →
      ∀ b, ∀ arec ∈ (Run.exec AddressTable.step t ops).atable b, arec.type ≠ type := by
    intro t ops ht hops
    induction ops generalizing t with
    | nil => exact ht
    | cons op ops ih =>
      refine ih (fun b arec hmem => ?_) fun op hin => hops op (List.mem_cons_of_mem _ hin)
      have hop := hops op List.mem_cons_self
      cases op with
      | add type' aconf =>
        change arec ∈ update t.atable _ _ b at hmem
        rw [update_apply] at hmem
        split at hmem
        · rcases List.mem_cons.mp hmem with rfl | hmem
          · exact ne_of_beq_false hop
          · exact ht _ arec hmem
        · exact ht b arec hmem
      | delete address aconf =>
        change arec ∈ update t.atable _ _ b at hmem
        rw [update_apply] at hmem
        split at hmem
        · exact ht _ arec (List.mem_of_mem_eraseP hmem)
        · exact ht b arec hmem
  refine hrun (fun b arec hmem => ?_) hops b arec hmem
  cases hmem

/-! ### The two decisions -/

theorem findRec_some {q : AddressQuery} {arec : AddressRec} (h : t.findRec crypt q = some arec) :
    (∃ b, arec ∈ t.table.atable b) ∧ arec.type = Bytes.clearLow 1 q.type := by
  have hbest := isBest_findArec crypt t.table q
  have hpair : findArec crypt t.table q = ((findArec crypt t.table q).1, some arec) :=
      Prod.ext rfl h
  rw [hpair] at hbest
  have hseen := hbest.1
  have hadmits : arec.admits crypt q = true → arec.type = Bytes.clearLow 1 q.type := by
    intro hok
    rw [AddressRec.admits, Bool.and_eq_true, Bool.and_eq_true, beq_iff_eq] at hok
    exact hok.1.1
  rcases hseen with ⟨-, -, ⟨b, -, hmem⟩, hok, -⟩ | ⟨-, -, ⟨b, -, hmem⟩, hok, -⟩
  · exact ⟨⟨b, hmem⟩, hadmits hok⟩
  · exact ⟨⟨b, hmem⟩, hadmits hok⟩

theorem findType_type {type : Nat} {host user : CStr} {ip : QueryAddr} {password : Option CStr}
    {arec : AddressRec} (h : t.findType crypt type host user ip password = some arec) :
    arec.type = Bytes.clearLow 1 type := (findRec_some h).2

theorem findIp_type {type : Nat} {ip : QueryAddr} {arec : AddressRec}
    (h : t.findIp crypt type ip = some arec) : arec.type = Bytes.clearLow 1 (type ||| 1) :=
  (findRec_some h).2

theorem findType_exemptKline (host user : CStr) (ip : QueryAddr) (password : Option CStr) :
    t.findType crypt CONF_EXEMPTKLINE host user ip password = none := by
  cases h : t.findType crypt CONF_EXEMPTKLINE host user ip password with
  | none => rfl
  | some arec =>
    obtain ⟨⟨b, hmem⟩, -⟩ := findRec_some h
    exact absurd ((findType_type h).trans (by decide)) (t.noExemptKline b arec hmem)

variable (crypt) in
theorem findDlineConf_cases (ip : QueryAddr) :
    (t.findIp crypt CONF_EXEMPTDLINE ip).isSome = true ∧
        (∃ arec, t.findDlineConf crypt ip = some arec ∧ arec.type = CONF_EXEMPTDLINE) ∨
      (t.findIp crypt CONF_EXEMPTDLINE ip).isSome = false ∧
        (t.findIp crypt CONF_DLINE ip).isSome = true ∧
        (∃ arec, t.findDlineConf crypt ip = some arec ∧ arec.type = CONF_DLINE) ∨
      (t.findIp crypt CONF_EXEMPTDLINE ip).isSome = false ∧
        (t.findIp crypt CONF_DLINE ip).isSome = false ∧
        t.findDlineConf crypt ip = none := by
  unfold findDlineConf
  cases hexempt : t.findIp crypt CONF_EXEMPTDLINE ip with
  | some arec => exact .inl ⟨rfl, arec, rfl, (findIp_type hexempt).trans (by decide)⟩
  | none =>
    cases hdline : t.findIp crypt CONF_DLINE ip with
    | some arec => exact .inr (.inl ⟨rfl, rfl, arec, rfl, (findIp_type hdline).trans (by decide)⟩)
    | none => exact .inr (.inr ⟨rfl, rfl, rfl⟩)

theorem findGline_eq (c : LocalClient) : t.findGline crypt c = t.glined crypt c := by
  unfold findGline findGlineConf glined
  rw [findType_exemptKline, Option.none_or]
  cases h : t.findType crypt CONF_GLINE c.host c.username c.ip none with
  | none => rfl
  | some arec =>
    rw [Option.any_some, findType_type h, Option.isSome_some]
    decide

theorem findKill_eq (c : LocalClient) :
    t.findKill crypt pcre c = (t.klined crypt c || t.regexKlined pcre c) := by
  unfold findKill findKlineConf klined regexKlined
  rw [findType_exemptKline, Option.none_or]
  cases h : t.findType crypt CONF_KILL c.host c.username c.ip none with
  | none => rfl
  | some arec =>
    simp only [findType_type h, Option.isSome_some, Bool.true_or]
    decide

theorem checkConfKline_isSome (hdead : c.isDead = false) (hclient : c.isClient = true) :
    (t.checkConfKline crypt pcre c).isSome =
      if (t.findIp crypt CONF_EXEMPTDLINE c.ip).isSome then false
      else if (t.findIp crypt CONF_DLINE c.ip).isSome then true
      else if t.glines && t.glined crypt c then !(c.exemptKline || c.exemptGline)
      else if t.klined crypt c || t.regexKlined pcre c then !c.exemptKline
      else t.isXlined pcre c.info := by
  unfold checkConfKline
  rw [hdead, hclient, findGline_eq, findKill_eq]
  obtain ⟨hexempt, arec, hfind, htype⟩ | ⟨hexempt, hdline, arec, hfind, htype⟩ |
    ⟨hexempt, hdline, hfind⟩ := findDlineConf_cases (t := t) crypt c.ip
  · simp only [hfind, htype, hexempt]
    rfl
  · simp only [hfind, htype, hexempt, hdline]
    rfl
  · simp only [hfind, hexempt, hdline, Bool.not_true, Bool.or_false, Bool.false_eq_true, if_false]
    split
    · cases c.exemptKline || c.exemptGline <;> rfl
    · split
      · cases c.exemptKline <;> rfl
      · cases t.isXlined pcre c.info <;> rfl


theorem accessOf_client {aconf : AddressRec} (htype : aconf.type = CONF_CLIENT)
    (hredir : (t.flags aconf.aconf.ptr).redir = false) (rkconf : Bool) :
    (t.accessOf aconf rkconf).refuses = rkconf := by
  unfold accessOf
  rw [htype, hredir]
  cases rkconf with
  | false => rfl
  | true => rfl

theorem accessOf_line {aconf : AddressRec} (htype : (aconf.type &&& CONF_CLIENT != 0) = false)
    (rkconf : Bool) : (t.accessOf aconf rkconf).refuses = true := by
  unfold accessOf
  rw [htype, Bool.false_and, if_neg Bool.false_ne_true]
  split
  · rfl
  · rfl

theorem verifyAccess_refuses (h : t.Same crypt c n) : (t.verifyAccess crypt pcre n).refuses =
    (t.regexKlined pcre c ||
      !c.exemptKline && (t.klined crypt c || t.glined crypt c && !c.exemptGline)) := by
  obtain ⟨iconf, hiconf, hkline, hgline, hredir⟩ := h.block
  have htype : iconf.type = CONF_CLIENT := (findType_type hiconf).trans (by decide)
  have hregex : (t.findRegexpKline pcre n.username n.host n.sockhost).isSome = t.regexKlined pcre
      c := by
    rw [h.username, h.host, h.sockhost]
    rfl
  unfold verifyAccess findAddressConf
  simp only [hiconf, hregex]
  rw [h.host, h.username, h.ip]
  unfold klined glined
  cases hex : (t.flags iconf.aconf.ptr).exemptKline with
  | true =>
    rw [hex] at hkline
    simp only [if_true, ← hkline, Bool.not_true, Bool.false_and, Bool.or_false]
    exact accessOf_client htype hredir _
  | false =>
    have hgline := hgline hex
    rw [hex] at hkline
    simp only [Bool.false_eq_true, if_false, ← hkline, Bool.not_false, Bool.true_and]
    cases hkill : t.findType crypt CONF_KILL c.host c.username c.ip none with
    | some kconf =>
      simp only [Option.isSome_some, Bool.true_or, Bool.or_true]
      refine accessOf_line ?_ _
      rw [findType_type hkill]
      decide
    | none =>
      cases hgl : t.findType crypt CONF_GLINE c.host c.username c.ip none with
      | none =>
        simp only [Option.isSome_none, Bool.false_and, Bool.or_false]
        exact accessOf_client htype hredir _
      | some kconf =>
        simp only [Option.isSome_none, Option.isSome_some, Bool.false_or, Bool.true_and,
          ← hgline]
        cases hexg : (t.flags iconf.aconf.ptr).exemptGline with
        | true =>
          simp only [if_true, Bool.not_true, Bool.or_false]
          exact accessOf_client htype hredir _
        | false =>
          simp only [Bool.false_eq_true, if_false, Bool.not_false, Bool.or_true]
          refine accessOf_line ?_ _
          rw [findType_type hgl]
          decide

theorem connectRefused_eq (h : t.Same crypt c n) : t.connectRefused crypt pcre n =
    ((!(t.findIp crypt CONF_EXEMPTDLINE c.ip).isSome && (t.findIp crypt CONF_DLINE c.ip).isSome) ||
      (t.regexKlined pcre c ||
        !c.exemptKline && (t.klined crypt c || t.glined crypt c && !c.exemptGline)) ||
      t.isXlined pcre c.info) := by
  unfold connectRefused
  rw [verifyAccess_refuses h, h.info, h.ip]
  congr 2
  unfold connectAllowed
  obtain ⟨hexempt, arec, hfind, htype⟩ | ⟨hexempt, hdline, arec, hfind, htype⟩ |
    ⟨hexempt, hdline, hfind⟩ := findDlineConf_cases (t := t) crypt c.ip
  · simp only [hfind, htype, hexempt]
    rfl
  · simp only [hfind, htype, hexempt, hdline]
    rfl
  · simp only [hfind, hexempt, hdline]
    rfl

end Lines

def everybody (ptr : Nat) : AccessItem :=
  { ptr := ptr, host := "*".toList, user := "*".toList, passwd := none, needPassword := true,
    encrypted := false }

/-- Lines with an auth block that is exempt from G-lines. -/
def exemptBlock (ops : List AddressOp) (hops : ∀ op ∈ ops, op.adds CONF_EXEMPTKLINE = false) :
    Lines Unit where
  table := tableAfter (.add CONF_CLIENT (everybody 1) :: ops)
  flags := fun _ => ⟨false, true, false⟩
  rkconf := []
  xconf := []
  rxconf := []
  glines := true
  noExemptKline := Lines.tableAfter_type_ne (List.forall_mem_cons.mpr ⟨rfl, hops⟩)

def klinedBlock : Lines Unit := exemptBlock [.add CONF_KILL (everybody 2)] (by decide)

def glinedBlock : Lines Unit :=
  exemptBlock [.add CONF_KILL (everybody 2), .add CONF_GLINE (everybody 3)] (by decide)

def testIp : QueryAddr :=
  .inet ⟨[192, 0, 2, 1], rfl, List.forall_mem_cons.mpr ⟨by decide, by decide⟩⟩

def exemptClient : LocalClient where
  username := "user".toList
  host := "host.example".toList
  sockhost := "192.0.2.1".toList
  info := "somebody".toList
  ip := testIp
  exemptKline := false
  exemptGline := true

def exemptAgain : ConnectingClient where
  ident := some "user".toList
  user := "user".toList
  host := "host.example".toList
  sockhost := "192.0.2.1".toList
  info := "somebody".toList
  ip := testIp
  passwd := none


theorem exemptBlock_same {ops : List AddressOp} {hops : ∀ op ∈ ops, op.adds CONF_EXEMPTKLINE = false}
    (hfound : ((exemptBlock ops hops).findType (fun _ _ => []) CONF_CLIENT exemptAgain.host
      exemptAgain.username exemptAgain.ip exemptAgain.passwd).isSome = true) :
    (exemptBlock ops hops).Same (fun _ _ => []) exemptClient exemptAgain := by
  obtain ⟨iconf, hiconf⟩ := Option.isSome_iff_exists.mp hfound
  exact ⟨rfl, rfl, rfl, rfl, rfl, rfl, rfl, iconf, hiconf, rfl, fun _ => rfl, rfl⟩

end Ircd
