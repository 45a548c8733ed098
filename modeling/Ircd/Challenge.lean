import Ircd.Match
import Ircd.Lib.Run
import Mathlib.Data.Set.Basic
import Mathlib.Logic.Function.Basic

/-!
`CHALLENGE`: `m_challenge` of the modules, `generate_challenge` and `oper_up`.

The answer belongs to the last challenge of the client, and makes an operator once. The block
is looked up a second time when it comes, by the name that was kept, and that block may be
another one of the name, with another key or with none (`challenge_grants_iff`).
-/

namespace Ircd

open Function

namespace Challenge

/-! ### The state -/

/-- An oper block; `maxTotal` is of its class. `K` is the type of the public keys. -/
structure OperConf (K : Type) where
  addr : Nat
  name : Option CStr
  user : Option CStr
  host : Option CStr
  maxTotal : Int
  rsaPublicKey : Option K
  port : Nat
  deriving DecidableEq

/-- A local client; `confs` are the oper blocks on its list, of which the last one attached is in
front of all other confs. -/
structure OperClient (K : Type) where
  username : CStr
  host : CStr
  sockhost : CStr
  isOper : Bool
  operFlags : Nat
  confs : List (OperConf K)
  response : Option CStr
  authOper : Option CStr

/-- `oper_items`, and by the address of a block its `clients` and whether it is illegal. -/
structure Net (K : Type) where
  operItems : List (OperConf K)
  clients : Nat → Nat
  illegal : Nat → Bool
  users : Nat → OperClient K

/-- What `m_challenge` does. -/
inductive Reply (K : Type) where
  | youreOper
  | ignored
  | passwdMismatch
  | noOperHost (notice : Option CStr)
  | cantAttach
  | opered (conf : OperConf K)
  | notEnabled
  | rsaChallenge (response : CStr) (rsa : K) (challenge : Option CStr)

variable {K : Type} (encrypt : K → List UInt8 → Option (List UInt8)) (net : Net K)

def Net.setUser (cid : Nat) (f : OperClient K → OperClient K) : Net K :=
  { net with users := update net.users cid (f (net.users cid)) }

/-- The response and the name of a challenge. -/
def Net.expect (cid : Nat) (response name : Option CStr) : Net K :=
  net.setUser cid fun c => { c with response := response, authOper := name }

/-- `MyFree` of both. -/
def Net.forget (cid : Nat) : Net K := net.expect cid none none

/-! ### Blocks -/

/-- `find_conf_exact` for oper blocks; `user` and `host` of a block are set together. -/
def Net.findConfExact (name user host : CStr) : Option (OperConf K) :=
  net.operItems.find? fun conf =>
    match conf.name, conf.host with
    | some confName, some confHost =>
      ircEq confName name && matchMask confHost host && matchMask (conf.user.getD []) user &&
        decide ((net.clients conf.addr : Int) < conf.maxTotal)
    | _, _ => false

/-- `EmptyString`. -/
def emptyString (s : Option CStr) : Bool := (s.getD []).isEmpty

/-- The name of a block in `find_exact_name_conf`. -/
def OperConf.named (conf : OperConf K) (name : CStr) : Bool :=
  !emptyString conf.name && ircEq (conf.name.getD []) name

/-- Its test for oper blocks, with a user and a host. -/
def OperConf.fits (conf : OperConf K) (name user host : CStr) : Bool :=
  conf.named name &&
    (emptyString conf.user || emptyString conf.host ||
      matchMask (conf.user.getD []) user && matchMask (conf.host.getD []) host)

/-- `find_exact_name_conf` for oper blocks. -/
def Net.findExactNameConf (name user host : CStr) : Option (OperConf K) :=
  net.operItems.find? fun conf => conf.fits name user host

/-- The checks of `attach_conf`. -/
def Net.attachable (cid : Nat) (conf : OperConf K) : Bool :=
  !((net.users cid).confs.any fun c => c.addr == conf.addr) && !net.illegal conf.addr

/-- What it does to an oper block and the client. -/
def Net.attached (cid : Nat) (conf : OperConf K) : Net K :=
  { net with clients := update net.clients conf.addr (net.clients conf.addr + 1) }.setUser
    cid fun c => { c with confs := conf :: c.confs }

/-- `attach_conf` of an oper block. -/
def Net.attachConf (cid : Nat) (conf : OperConf K) : Option (Net K) :=
  if net.attachable cid conf then some (net.attached cid conf) else none

/-- `oper_up`, but for the other user modes. -/
def Net.operUp (cid : Nat) : Net K :=
  net.setUser cid fun c =>
    { c with isOper := true, operFlags := c.operFlags ||| c.confs.head?.elim 0 OperConf.port }

/-! ### The command -/

/-- `binary_to_hex`. -/
def binaryToHex (bin : List UInt8) : CStr :=
  bin.flatMap fun b =>
    [b.toNat / 16, b.toNat % 16].map fun n => "0123456789ABCDEF".toList.getD n '0'

/-- `generate_challenge` with the random bytes: the response, and the challenge unless
`RSA_public_encrypt` fails. -/
def generateChallenge (secret : List UInt8) (rsa : K) : CStr × Option CStr :=
  (binaryToHex secret, (encrypt rsa secret).map binaryToHex)

/-- The part of `m_challenge` about `+response`. -/
def Net.respond (cid : Nat) (given : CStr) : Net K × Reply K :=
  match (net.users cid).response with
  | none => (net, .ignored)
  | some response =>
    if !ircEq response given then (net, .passwdMismatch)
    else
      match net.findExactNameConf ((net.users cid).authOper.getD []) (net.users cid).username
          (net.users cid).host with
      | none => (net, .noOperHost none)
      | some conf =>
        match net.attachConf cid conf with
        | none => (net, .cantAttach)
        | some net => ((net.operUp cid).forget cid, .opered conf)

/-- The notice of a request that finds no block. -/
def Net.noBlock (name : CStr) : CStr :=
  if net.operItems.any (·.named name) then "host mismatch".toList else "no oper {} block".toList

def Net.request (cid : Nat) (name : CStr) (secret : List UInt8) : Net K × Reply K :=
  match (net.findConfExact name (net.users cid).username (net.users cid).host).or
      (net.findConfExact name (net.users cid).username (net.users cid).sockhost) with
  | none => (net.forget cid, .noOperHost (some (net.noBlock name)))
  | some conf =>
    match conf.rsaPublicKey with
    | none => (net.forget cid, .notEnabled)
    | some rsa =>
      let generated := generateChallenge encrypt secret rsa
      ((net.forget cid).expect cid (some generated.1) conf.name,
        .rsaChallenge generated.1 rsa generated.2)

/-- `m_challenge`. -/
def Net.mChallenge (cid : Nat) (arg : CStr) (secret : List UInt8) : Net K × Reply K :=
  if (net.users cid).isOper then (net, .youreOper)
  else
    match arg with
    | '+' :: given => net.respond cid given
    | name => net.request encrypt cid name secret

/-! ### Runs -/

/-- A `CHALLENGE` of a client, with the random bytes if it asks for one; a rehash, with the new
`oper_items`; and `MODE -o`. -/
inductive Input (K : Type) where
  | challenge (cid : Nat) (arg : CStr) (secret : List UInt8)
  | rehash (items : List (OperConf K))
  | unoper (cid : Nat)

def Input.items : Input K → List (OperConf K)
  | .rehash items => items
  | _ => []

/-- A rehash: the old blocks are illegal, and the new ones have no clients. -/
def Net.rehash (items : List (OperConf K)) : Net K :=
  { net with
    operItems := items
    clients := fun addr => if items.any (·.addr == addr) then 0 else net.clients addr
    illegal := fun addr =>
      !items.any (·.addr == addr) &&
        (net.operItems.any (·.addr == addr) || net.illegal addr) }

/-- `MODE -o` of an operator, with `detach_conf`. -/
def Net.unoper (cid : Nat) : Net K :=
  if (net.users cid).isOper then
    { net with
      clients := (net.users cid).confs.head?.elim net.clients fun conf =>
        update net.clients conf.addr (net.clients conf.addr - 1) }.setUser cid fun c =>
      { c with isOper := false, operFlags := 0, confs := c.confs.drop 1 }
  else net

/-- The last challenge that was generated for a client: its response, the key, and whether it
has made an operator. -/
structure Issued (K : Type) where
  response : CStr
  key : K
  granted : Bool

/-- The server, and beside it the last challenge of every client. -/
structure Session (K : Type) where
  net : Net K
  ledger : Nat → Option (Issued K)

def record (ledger : Nat → Option (Issued K)) (cid : Nat) : Reply K → Nat → Option (Issued K)
  | .rsaChallenge response rsa _ => update ledger cid (some ⟨response, rsa, false⟩)
  | .opered _ =>
    update ledger cid ((ledger cid).map fun issued => { issued with granted := true })
  | _ => ledger

def step (s : Session K) : Input K → Session K
  | .challenge cid arg secret =>
    ⟨(s.net.mChallenge encrypt cid arg secret).1,
      record s.ledger cid (s.net.mChallenge encrypt cid arg secret).2⟩
  | .rehash items => ⟨s.net.rehash items, s.ledger⟩
  | .unoper cid => ⟨s.net.unoper cid, s.ledger⟩

/-- A server that has generated no challenge yet. -/
structure Start (K : Type) extends Net K where
  fresh : ∀ cid, (users cid).response = none

def Start.session (start : Start K) : Session K := ⟨start.toNet, fun _ => none⟩

/-- A client that a step makes an operator has given the response of its last challenge, which has
made no operator yet. -/
def AnswerGiven (s : Session K) (i : Input K) (s' : Session K) : Prop :=
  ∀ cid, (s.net.users cid).isOper = false → (s'.net.users cid).isOper = true →
    ∃ given secret issued, i = .challenge cid ('+' :: given) secret ∧
      s.ledger cid = some issued ∧ issued.granted = false ∧ ircEq issued.response given = true

/-- A step is right: a client that it makes an operator has given the response of its last
challenge, which has made no operator yet, and the block attached, whose flags it has got, is one
with the key of that challenge. -/
def GrantRight (s : Session K) (i : Input K) (s' : Session K) : Prop :=
  ∀ cid, (s.net.users cid).isOper = false → (s'.net.users cid).isOper = true →
    ∃ given secret issued conf, i = .challenge cid ('+' :: given) secret ∧
      s.ledger cid = some issued ∧ issued.granted = false ∧
      ircEq issued.response given = true ∧
      (s'.net.users cid).confs.head? = some conf ∧
      (s'.net.users cid).operFlags = (s.net.users cid).operFlags ||| conf.port ∧
      conf.rsaPublicKey = some issued.key

/-- An answer is right, and the first block of the name that was kept, for the user and host of
the client, can be attached. -/
structure Net.Answers (cid : Nat) (given : CStr) (conf : OperConf K) : Prop where
  notOper : (net.users cid).isOper = false
  response : ∃ response, (net.users cid).response = some response ∧ ircEq response given = true
  found : net.findExactNameConf ((net.users cid).authOper.getD []) (net.users cid).username
    (net.users cid).host = some conf
  attaches : net.attachable cid conf = true

/-- That block has the key that the challenge was generated for. -/
def KeyKept (s : Session K) : Input K → Prop
  | .challenge cid arg _ => ∀ given conf, arg = '+' :: given → s.net.Answers cid given conf →
    conf.rsaPublicKey = (s.ledger cid).map Issued.key
  | _ => True

/-- Blocks of one name have one key, or none of them has one. -/
def OneKey (all : List (OperConf K)) : Prop :=
  ∀ b ∈ all, ∀ b' ∈ all, b.named (b'.name.getD []) = true → b.rsaPublicKey = b'.rsaPublicKey

def blocks (start : Start K) (inputs : List (Input K)) : List (OperConf K) :=
  start.operItems ++ inputs.flatMap Input.items

/-! ### One step -/

section Users

variable {net} {cid other : Nat} {f : OperClient K → OperClient K}

@[simp] theorem setUser_same : (net.setUser cid f).users cid = f (net.users cid) :=
  update_self ..

theorem setUser_of_ne (h : other ≠ cid) : (net.setUser cid f).users other = net.users other :=
  update_of_ne h ..

theorem setUser_congr {α : Type} (g : OperClient K → α) (h : ∀ c, g (f c) = g c) (other : Nat) :
    g ((net.setUser cid f).users other) = g (net.users other) := by
  rcases eq_or_ne other cid with rfl | hne
  · rw [setUser_same, h]
  · rw [setUser_of_ne hne]

@[simp] theorem expect_isOper (response name : Option CStr) (other : Nat) :
    ((net.expect cid response name).users other).isOper = (net.users other).isOper :=
  @setUser_congr K net cid (fun c => { c with response := response, authOper := name }) _
    OperClient.isOper (fun _ => rfl) other

theorem unoper_isOper (h : ((net.unoper cid).users other).isOper = true) :
    (net.users other).isOper = true := by
  unfold Net.unoper at h
  split at h
  · rcases eq_or_ne other cid with rfl | hne
    · assumption
    · rwa [setUser_of_ne hne] at h
  · exact h

theorem unoper_operItems : (net.unoper cid).operItems = net.operItems := by
  unfold Net.unoper
  split <;> rfl

theorem unoper_pending (other : Nat) :
    ((net.unoper cid).users other).response = (net.users other).response ∧
      ((net.unoper cid).users other).authOper = (net.users other).authOper := by
  unfold Net.unoper
  split
  · rcases eq_or_ne other cid with rfl | hne
    · rw [setUser_same]
      exact ⟨rfl, rfl⟩
    · rw [setUser_of_ne hne]
      exact ⟨rfl, rfl⟩
  · exact ⟨rfl, rfl⟩

end Users

variable {encrypt} {s : Session K} {cid : Nat} {arg : CStr} {secret : List UInt8}

def granted (s : Session K) (cid : Nat) (conf : OperConf K) : Session K :=
  ⟨((s.net.attached cid conf).operUp cid).forget cid,
    update s.ledger cid ((s.ledger cid).map fun issued => { issued with granted := true })⟩

theorem granted_self (s : Session K) (cid : Nat) (conf : OperConf K) :
    (granted s cid conf).net.users cid =
      { s.net.users cid with
        isOper := true
        operFlags := (s.net.users cid).operFlags ||| conf.port
        confs := conf :: (s.net.users cid).confs
        response := none
        authOper := none } := by
  simp [granted, Net.forget, Net.expect, Net.operUp, Net.attached]

theorem granted_of_ne {other : Nat} (hne : other ≠ cid) (s : Session K) (conf : OperConf K) :
    (granted s cid conf).net.users other = s.net.users other := by
  rw [granted, Net.forget, Net.expect, setUser_of_ne hne, Net.operUp, setUser_of_ne hne,
    Net.attached, setUser_of_ne hne]

/-- The client has a challenge for the key of the block. -/
def challenged (s : Session K) (cid : Nat) (conf : OperConf K) (rsa : K) (secret : List UInt8) :
    Session K :=
  ⟨(s.net.forget cid).expect cid (some (binaryToHex secret)) conf.name,
    update s.ledger cid (some ⟨binaryToHex secret, rsa, false⟩)⟩

theorem respond_cases (hoper : (s.net.users cid).isOper = false) (given : CStr) :
    ((s.net.respond cid given).1 = s.net ∧
        record s.ledger cid (s.net.respond cid given).2 = s.ledger ∧
        ∀ conf, ¬s.net.Answers cid given conf) ∨
      ∃ conf, s.net.Answers cid given conf ∧
        (s.net.respond cid given).1 = (granted s cid conf).net ∧
        record s.ledger cid (s.net.respond cid given).2 = (granted s cid conf).ledger := by
  unfold Net.respond
  cases hresponse : (s.net.users cid).response with
  | none =>
    refine .inl ⟨rfl, rfl, fun conf h => ?_⟩
    obtain ⟨response, hsome, -⟩ := h.response
    rw [hresponse] at hsome
    cases hsome
  | some response =>
    dsimp only
    by_cases hright : ircEq response given = true
    swap
    · rw [if_pos (by simpa using hright)]
      refine .inl ⟨rfl, rfl, fun conf h => ?_⟩
      obtain ⟨response', hsome, hright'⟩ := h.response
      rw [hresponse, Option.some.injEq] at hsome
      exact hright (hsome ▸ hright')
    rw [if_neg (by simpa using hright)]
    cases hfound : s.net.findExactNameConf ((s.net.users cid).authOper.getD [])
        (s.net.users cid).username (s.net.users cid).host with
    | none =>
      refine .inl ⟨rfl, rfl, fun conf h => ?_⟩
      rw [h.found] at hfound
      cases hfound
    | some conf =>
      dsimp only
      unfold Net.attachConf
      by_cases hattach : s.net.attachable cid conf = true
      · rw [if_pos hattach]
        exact .inr ⟨conf, ⟨hoper, ⟨response, hresponse, hright⟩, hfound, hattach⟩, rfl, rfl⟩
      · rw [if_neg hattach]
        refine .inl ⟨rfl, rfl, fun conf' h => hattach ?_⟩
        have hconf := h.found
        rw [hfound, Option.some.injEq] at hconf
        exact hconf ▸ h.attaches

theorem request_cases (s : Session K) (cid : Nat) (name : CStr) (secret : List UInt8) :
    ((s.net.request encrypt cid name secret).1 = s.net.forget cid ∧
        record s.ledger cid (s.net.request encrypt cid name secret).2 = s.ledger) ∨
      ∃ conf ∈ s.net.operItems, ∃ rsa, conf.rsaPublicKey = some rsa ∧
        (s.net.request encrypt cid name secret).1 = (challenged s cid conf rsa secret).net ∧
        record s.ledger cid (s.net.request encrypt cid name secret).2 =
          (challenged s cid conf rsa secret).ledger := by
  unfold Net.request
  cases hfound : (s.net.findConfExact name (s.net.users cid).username (s.net.users cid).host).or
      (s.net.findConfExact name (s.net.users cid).username (s.net.users cid).sockhost) with
  | none => exact .inl ⟨rfl, rfl⟩
  | some conf =>
    have hmem : conf ∈ s.net.operItems := by
      rcases Option.or_eq_some_iff.mp hfound with h | ⟨-, h⟩
      · exact List.mem_of_find?_eq_some h
      · exact List.mem_of_find?_eq_some h
    dsimp only
    cases hkey : conf.rsaPublicKey with
    | none => exact .inl ⟨rfl, rfl⟩
    | some rsa => exact .inr ⟨conf, hmem, rsa, hkey, rfl, rfl⟩

theorem mChallenge_oper (hoper : (net.users cid).isOper = true) :
    net.mChallenge encrypt cid arg secret = (net, .youreOper) := by
  unfold Net.mChallenge
  rw [if_pos hoper]

theorem mChallenge_answer (hoper : (net.users cid).isOper = false) (given : CStr) :
    net.mChallenge encrypt cid ('+' :: given) secret = net.respond cid given := by
  rw [Net.mChallenge, hoper, if_neg Bool.false_ne_true]

theorem mChallenge_name (hoper : (net.users cid).isOper = false)
    (hplus : ∀ given, arg ≠ '+' :: given) :
    net.mChallenge encrypt cid arg secret = net.request encrypt cid arg secret := by
  rw [Net.mChallenge, hoper, if_neg Bool.false_ne_true]
  exact hplus

theorem step_challenge_cases (s : Session K) (cid : Nat) (arg : CStr) (secret : List UInt8) :
    (step encrypt s (.challenge cid arg secret) = s ∧
        ∀ given conf, arg = '+' :: given → ¬s.net.Answers cid given conf) ∨
      ((∀ given, arg ≠ '+' :: given) ∧
        step encrypt s (.challenge cid arg secret) = ⟨s.net.forget cid, s.ledger⟩) ∨
      ((∀ given, arg ≠ '+' :: given) ∧ ∃ conf ∈ s.net.operItems, ∃ rsa,
        conf.rsaPublicKey = some rsa ∧
        step encrypt s (.challenge cid arg secret) = challenged s cid conf rsa secret) ∨
      ∃ given conf, arg = '+' :: given ∧ s.net.Answers cid given conf ∧
        step encrypt s (.challenge cid arg secret) = granted s cid conf := by
  have hstep : step encrypt s (.challenge cid arg secret) =
      ⟨(s.net.mChallenge encrypt cid arg secret).1,
        record s.ledger cid (s.net.mChallenge encrypt cid arg secret).2⟩ := rfl
  rw [hstep]
  cases hoper : (s.net.users cid).isOper with
  | true =>
    rw [mChallenge_oper s.net hoper]
    refine .inl ⟨rfl, fun given conf _ h => ?_⟩
    have hnot := h.notOper
    rw [hoper] at hnot
    cases hnot
  | false =>
    by_cases hplus : ∃ given, arg = '+' :: given
    · obtain ⟨given, rfl⟩ := hplus
      rw [mChallenge_answer s.net hoper]
      rcases @respond_cases K s cid hoper given with ⟨hnet, hledger, hnone⟩ |
        ⟨conf, hconf, hnet, hledger⟩
      · rw [hnet, hledger]
        refine .inl ⟨rfl, fun given' conf heq => ?_⟩
        cases heq
        exact hnone conf
      · rw [hnet, hledger]
        exact .inr (.inr (.inr ⟨given, conf, rfl, hconf, rfl⟩))
    · have hplus' : ∀ given, arg ≠ '+' :: given := fun given heq => hplus ⟨given, heq⟩
      rw [mChallenge_name s.net hoper hplus']
      rcases @request_cases K encrypt s cid arg secret with ⟨hnet, hledger⟩ |
        ⟨conf, hmem, rsa, hkey, hnet, hledger⟩
      · rw [hnet, hledger]
        exact .inr (.inl ⟨hplus', rfl⟩)
      · rw [hnet, hledger]
        exact .inr (.inr (.inl ⟨hplus', conf, hmem, rsa, hkey, rfl⟩))

/-! ### Runs -/

/-- What holds in every run, with all blocks among `all`: a response that is kept is of the last
challenge, which has made no operator, and its key is the one of a block of the name. -/
structure Inv (all : OperConf K → Prop) (s : Session K) : Prop where
  items : ∀ conf ∈ s.net.operItems, all conf
  pending : ∀ cid response, (s.net.users cid).response = some response →
    ∃ conf rsa, s.ledger cid = some ⟨response, rsa, false⟩ ∧ all conf ∧
      (s.net.users cid).authOper = conf.name ∧ conf.rsaPublicKey = some rsa

variable {all : OperConf K → Prop}

theorem Inv.change (h : Inv all s) {net : Net K} {issued : Option (Issued K)}
    (hitems : net.operItems = s.net.operItems)
    (hother : ∀ other, other ≠ cid → net.users other = s.net.users other)
    (hself : ∀ response, (net.users cid).response = some response →
      ∃ conf rsa, issued = some ⟨response, rsa, false⟩ ∧ all conf ∧
        (net.users cid).authOper = conf.name ∧ conf.rsaPublicKey = some rsa) :
    Inv all ⟨net, update s.ledger cid issued⟩ where
  items := by
    dsimp only
    rw [hitems]
    exact h.items
  pending other response hresponse := by
    dsimp only at hresponse ⊢
    rcases eq_or_ne other cid with rfl | hne
    · rw [update_self]
      exact hself response hresponse
    · rw [hother other hne] at hresponse ⊢
      rw [update_of_ne hne]
      exact h.pending other response hresponse

theorem Inv.granted (h : Inv all s) (conf : OperConf K) : Inv all (granted s cid conf) := by
  refine h.change rfl (fun other hne => granted_of_ne hne s conf) fun response hresponse => ?_
  change ((Challenge.granted s cid conf).net.users cid).response = some response at hresponse
  rw [granted_self] at hresponse
  cases hresponse

theorem Inv.challenged (h : Inv all s) {conf : OperConf K} {rsa : K} (hall : all conf)
    (hkey : conf.rsaPublicKey = some rsa) : Inv all (challenged s cid conf rsa secret) := by
  refine h.change rfl (fun other hne => ?_) fun response hresponse => ?_
  · rw [Net.expect, setUser_of_ne hne, Net.forget, Net.expect, setUser_of_ne hne]
  · rw [Net.expect, setUser_same] at hresponse ⊢
    cases hresponse
    exact ⟨conf, rsa, rfl, hall, rfl, hkey⟩

theorem Inv.forget (h : Inv all s) : Inv all ⟨s.net.forget cid, s.ledger⟩ := by
  have hchange : Inv all ⟨s.net.forget cid, update s.ledger cid (s.ledger cid)⟩ := by
    refine h.change rfl (fun other hne => ?_) fun response hresponse => ?_
    · rw [Net.forget, Net.expect, setUser_of_ne hne]
    · rw [Net.forget, Net.expect, setUser_same] at hresponse
      cases hresponse
  rwa [update_eq_self] at hchange

theorem Inv.step (h : Inv all s) (i : Input K) (hitems : ∀ conf ∈ i.items, all conf) :
    Inv all (step encrypt s i) := by
  cases i with
  | challenge cid arg secret =>
    rcases @step_challenge_cases K encrypt s cid arg secret with ⟨hstep, -⟩ | ⟨-, hstep⟩ |
      ⟨-, conf, hmem, rsa, hkey, hstep⟩ | ⟨given, conf, -, -, hstep⟩
    · rwa [hstep]
    · rw [hstep]
      exact h.forget
    · rw [hstep]
      exact h.challenged (h.items conf hmem) hkey
    · rw [hstep]
      exact h.granted conf
  | rehash items => exact ⟨hitems, h.pending⟩
  | unoper cid =>
    refine ⟨fun conf hconf => ?_, fun other response hresponse => ?_⟩
    · change conf ∈ (s.net.unoper cid).operItems at hconf
      rw [unoper_operItems] at hconf
      exact h.items conf hconf
    · change ((s.net.unoper cid).users other).response = some response at hresponse
      change ∃ conf rsa, s.ledger other = some ⟨response, rsa, false⟩ ∧ all conf ∧
        ((s.net.unoper cid).users other).authOper = conf.name ∧ conf.rsaPublicKey = some rsa
      obtain ⟨hsame, hname⟩ := @unoper_pending K s.net cid other
      rw [hsame] at hresponse
      rw [hname]
      exact h.pending other response hresponse

theorem step_grants {i : Input K} {other : Nat} (hnot : (s.net.users other).isOper = false)
    (hoper : ((Challenge.step encrypt s i).net.users other).isOper = true) :
    ∃ given secret conf, i = .challenge other ('+' :: given) secret ∧
      s.net.Answers other given conf ∧
      Challenge.step encrypt s i = Challenge.granted s other conf := by
  have hidle : ∀ {c : OperClient K}, c.isOper = (s.net.users other).isOper → c.isOper = true →
      False := by
    intro c hsame hc
    rw [hsame, hnot] at hc
    cases hc
  cases i with
  | rehash items => exact absurd hoper (hidle rfl)
  | unoper cid =>
    have hbefore := unoper_isOper hoper
    rw [hnot] at hbefore
    cases hbefore
  | challenge cid arg secret =>
    rcases @step_challenge_cases K encrypt s cid arg secret with ⟨hstep, -⟩ | ⟨-, hstep⟩ |
      ⟨-, conf, -, rsa, -, hstep⟩ | ⟨given, conf, rfl, hconf, hstep⟩
    · rw [hstep] at hoper
      exact absurd hoper (hidle rfl)
    · rw [hstep] at hoper
      exact absurd hoper (hidle (expect_isOper ..))
    · rw [hstep] at hoper
      exact absurd hoper (hidle ((expect_isOper ..).trans (expect_isOper ..)))
    · obtain rfl : other = cid := by
        by_contra hne
        rw [hstep, granted_of_ne hne, hnot] at hoper
        cases hoper
      exact ⟨given, secret, conf, rfl, hconf, hstep⟩

theorem Net.Answers.step {given : CStr} {conf : OperConf K} (h : s.net.Answers cid given conf) :
    Challenge.step encrypt s (.challenge cid ('+' :: given) secret) =
      Challenge.granted s cid conf := by
  rcases @step_challenge_cases K encrypt s cid ('+' :: given) secret with ⟨-, hnone⟩ |
    ⟨hplus, -⟩ | ⟨hplus, -⟩ | ⟨given', conf', heq, hconf, hstep⟩
  · exact absurd h (hnone given conf rfl)
  · exact absurd rfl (hplus given)
  · exact absurd rfl (hplus given)
  · cases heq
    have hfound := hconf.found
    rw [h.found, Option.some.injEq] at hfound
    rw [hstep, hfound]

theorem Inv.answerGiven (h : Inv all s) (i : Input K) :
    AnswerGiven s i (Challenge.step encrypt s i) := by
  intro other hnot hoper
  obtain ⟨given, secret, conf, rfl, hconf, -⟩ := step_grants hnot hoper
  obtain ⟨response, hresponse, hgiven⟩ := hconf.response
  obtain ⟨-, rsa, hledger, -⟩ := h.pending other response hresponse
  exact ⟨given, secret, _, rfl, hledger, rfl, hgiven⟩

theorem Inv.grantRight_iff (h : Inv all s) (i : Input K) :
    GrantRight s i (Challenge.step encrypt s i) ↔ KeyKept s i := by
  constructor
  · intro hright
    cases i with
    | rehash items => trivial
    | unoper cid => trivial
    | challenge cid arg secret =>
      rintro given conf rfl hconf
      rw [hconf.step] at hright
      obtain ⟨-, -, issued, found, -, hissued, -, -, hhead, -, hkey⟩ :=
        hright cid hconf.notOper (by rw [granted_self])
      rw [granted_self] at hhead
      cases hhead
      rw [hkey, hissued]
      rfl
  · intro hkept other hnot hoper
    obtain ⟨given, secret, issued, heq, hissued, hgranted, hgiven⟩ :=
      h.answerGiven i other hnot hoper
    obtain ⟨given', secret', conf, rfl, hconf, hstep⟩ := step_grants hnot hoper
    cases heq
    have hkey := hkept given conf rfl hconf
    rw [hissued] at hkey
    refine ⟨given, secret, issued, conf, rfl, hissued, hgranted, hgiven, ?_, ?_, hkey⟩
    · rw [hstep, granted_self]
      rfl
    · rw [hstep, granted_self]

theorem findExactNameConf_some {name user host : CStr} {conf : OperConf K}
    (h : net.findExactNameConf name user host = some conf) :
    conf ∈ net.operItems ∧ conf.named name = true := by
  unfold Net.findExactNameConf at h
  have hfits := @List.find?_some _ (fun conf : OperConf K => conf.fits name user host) _ _ h
  rw [OperConf.fits, Bool.and_eq_true] at hfits
  exact ⟨List.mem_of_find?_eq_some h, hfits.1⟩

theorem Inv.keyKept {list : List (OperConf K)} (h : Inv (· ∈ list) s) (hone : OneKey list)
    (i : Input K) : KeyKept s i := by
  cases i with
  | rehash items => trivial
  | unoper cid => trivial
  | challenge cid arg secret =>
    intro given conf _ hconf
    obtain ⟨response, hresponse, -⟩ := hconf.response
    obtain ⟨block, rsa, hledger, hblock, hname, hkey⟩ := h.pending cid response hresponse
    obtain ⟨hmem, hnamed⟩ := findExactNameConf_some s.net hconf.found
    rw [hname] at hnamed
    rw [hone conf (h.items conf hmem) block hblock hnamed, hkey, hledger]
    rfl

theorem Inv.guarded {list : List (OperConf K)} (hone : OneKey list) {inputs : List (Input K)}
    (hinputs : ∀ i ∈ inputs, ∀ conf ∈ i.items, conf ∈ list) (h : Inv (· ∈ list) s) :
    Run.Guarded (Challenge.step encrypt) KeyKept s inputs := by
  induction inputs generalizing s with
  | nil => trivial
  | cons i inputs ih =>
    refine ⟨h.keyKept hone i, ih (fun j hj => hinputs j (List.mem_cons_of_mem i hj)) ?_⟩
    exact h.step i (hinputs i List.mem_cons_self)

theorem Start.inv (start : Start K) {all : OperConf K → Prop}
    (hall : ∀ conf ∈ start.operItems, all conf) : Inv all start.session where
  items := hall
  pending cid response hresponse := by
    have hfresh : (start.session.net.users cid).response = none := start.fresh cid
    rw [hfresh] at hresponse
    cases hresponse

/-- In every run, `CHALLENGE` makes a client an operator only for the response of its last
challenge, and that makes one operator. The block has the key of the challenge just when no right
answer finds another block of the name, with another key or none; so it is where all blocks of
one name that the server has in the run have one key. -/
theorem challenge_grants_iff (encrypt : K → List UInt8 → Option (List UInt8)) (start : Start K)
    (inputs : List (Input K)) :
    (∀ js i, js ++ [i] <+: inputs →
      AnswerGiven (Run.exec (Challenge.step encrypt) start.session js) i
        (Run.exec (Challenge.step encrypt) start.session (js ++ [i]))) ∧
    ((∀ js i, js ++ [i] <+: inputs →
        GrantRight (Run.exec (Challenge.step encrypt) start.session js) i
          (Run.exec (Challenge.step encrypt) start.session (js ++ [i]))) ↔
      Run.Guarded (Challenge.step encrypt) KeyKept start.session inputs) ∧
    (OneKey (blocks start inputs) →
      Run.Guarded (Challenge.step encrypt) KeyKept start.session inputs) := by
  have hstart : Inv (fun _ => True) start.session := start.inv fun _ _ => trivial
  refine ⟨?_, ?_, fun hone => ?_⟩
  · refine (@Run.steps_iff_guarded _ _ (Challenge.step encrypt) (fun _ _ => True)
      (Inv fun _ => True) AnswerGiven (fun s i h _ => h.step i fun _ _ => trivial)
      (fun s i h => iff_of_true (h.answerGiven i) trivial) _ _ hstart).mpr (Run.guarded_true _ _)
  · exact @Run.steps_iff_guarded _ _ (Challenge.step encrypt) KeyKept (Inv fun _ => True) GrantRight
      (fun s i h _ => h.step i fun _ _ => trivial) (fun s i h => h.grantRight_iff i) _ _ hstart
  · refine Inv.guarded hone (fun i hi conf hconf => ?_) (start.inv fun conf hconf => ?_)
    · exact List.mem_append_right _ (List.mem_flatMap.mpr ⟨i, hi, hconf⟩)
    · exact List.mem_append_left _ hconf

def passwordBlock : OperConf Nat := ⟨2, some "god".toList, none, none, 10, none, 7⟩

def keyBlock : OperConf Nat :=
  ⟨1, some "god".toList, some "*".toList, some "*.example".toList, 10, some 5, 1⟩

/-- A server with both, and a client that the second is for. -/
def twoBlocks : Start Nat where
  operItems := [passwordBlock, keyBlock]
  clients := fun _ => 0
  illegal := fun _ => false
  users := fun _ =>
    ⟨"god".toList, "home.example".toList, "192.0.2.1".toList, false, 0, [], none, none⟩
  fresh := fun _ => rfl

def someSecret : List UInt8 := List.replicate 32 171

/-- The client asks for `god`, and gives the right response. -/
def askAndAnswer : List (Input Nat) :=
  [.challenge 1 "god".toList someSecret, .challenge 1 ('+' :: binaryToHex someSecret) []]

/-- The client has proved that it has the key, and gets the block that has none. -/
theorem other_block_granted :
    ((Run.exec (step fun _ secret => some secret) twoBlocks.session
        askAndAnswer).net.users 1).confs = [passwordBlock] ∧
      ((Run.exec (step fun _ secret => some secret) twoBlocks.session
        askAndAnswer).net.users 1).operFlags = 7 ∧
      (Run.exec (step fun _ secret => some secret) twoBlocks.session askAndAnswer).ledger 1 =
        some ⟨binaryToHex someSecret, 5, true⟩ ∧
      ¬∀ js i, js ++ [i] <+: askAndAnswer →
        GrantRight (Run.exec (step fun _ secret => some secret) twoBlocks.session js) i
          (Run.exec (step fun _ secret => some secret) twoBlocks.session (js ++ [i])) := by
  have hrun : ((Run.exec (step fun _ secret => some secret) twoBlocks.session
        askAndAnswer).net.users 1).confs = [passwordBlock] ∧
      ((Run.exec (step fun _ secret => some secret) twoBlocks.session
        askAndAnswer).net.users 1).operFlags = 7 ∧
      ((Run.exec (step fun _ secret => some secret) twoBlocks.session
        askAndAnswer).net.users 1).isOper = true ∧
      ((Run.exec (step fun _ secret => some secret) twoBlocks.session
        (askAndAnswer.take 1)).net.users 1).isOper = false := by
    decide +kernel
  obtain ⟨hconfs, hflags, hoper, hnot⟩ := hrun
  refine ⟨hconfs, hflags, rfl, fun h => ?_⟩
  have hright := h (askAndAnswer.take 1) (.challenge 1 ('+' :: binaryToHex someSecret) [])
    (List.prefix_refl _)
  obtain ⟨-, -, issued, conf, -, -, -, -, hhead, -, hkey⟩ := hright 1 hnot hoper
  rw [show askAndAnswer.take 1 ++ [.challenge 1 ('+' :: binaryToHex someSecret) []] = askAndAnswer
    from rfl, hconfs] at hhead
  cases hhead
  cases hkey

end Challenge

end Ircd
