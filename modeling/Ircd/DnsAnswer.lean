import Ircd.DnsName
import Ircd.Cidr

/-!
`proc_answer`: the answers of a name server are walked record by record.

A record that decides the walk is checked for its type and its `rd_length`, but not for being
inside the packet; a record of a type that is not known is left where its data begins; and a
walk that runs out of records returns success. `dns_answer_safe_iff` says for which packets
this does no harm, by the records as their `rd_length`s give them (`answerRecords`).
-/

namespace Ircd

/-! ### Requests -/

/-- `request_state`, with `IPV6`. -/
inductive ReqState
  | idle
  | ptr
  | a
  | aaaa
  | cname
  | int
  deriving DecidableEq, Repr

/-- The family of an address. -/
inductive ResFamily
  | unspec
  | inet
  | inet6
  deriving DecidableEq, Repr

/-- The address of a request, in network order. -/
structure ResAddr where
  family : ResFamily
  bytes : List UInt8
  deriving DecidableEq, Repr

/-- `struct reslist`; queries are addresses. -/
structure Reslist where
  id : Nat
  sent : Nat
  state : ReqState
  ttl : Nat
  type : Nat
  retries : Int
  sends : Nat
  resend : Bool
  sentat : Nat
  timeout : Nat
  addr : ResAddr
  name : Option CStr
  query : Nat
  deriving DecidableEq, Repr

def T_A : Nat := 1
def T_CNAME : Nat := 5
def T_PTR : Nat := 12
def T_AAAA : Nat := 28

def HFIXEDSZ : Nat := 12

/-- The size of a question behind its name. -/
def QFIXEDSZ : Nat := 4

/-- The size of a record behind its name, without its data. -/
def ANSWER_FIXED_SIZE : Nat := 10

/-! ### The walk -/

/-- `irc_ns_get16`. -/
def get16 (pkt : Packet) (src : Nat) : Except DnsFault Nat := do
  let high ← byteAt pkt src
  let low ← byteAt pkt (src + 1)
  .ok (high * 256 + low)

/-- `irc_ns_get32`. -/
def get32 (pkt : Packet) (src : Nat) : Except DnsFault Nat := do
  let high ← get16 pkt src
  let low ← get16 pkt (src + 2)
  .ok (high * 65536 + low)

/-- The source and the size of a `memcpy` from the packet. -/
def copyBytes (pkt : Packet) (src size : Nat) : Option (List UInt8) :=
  if src + size ≤ pkt.length then some ((pkt.drop src).take size) else none

/-- A record: where it stands, its type, where its data stands and its `rd_length`. -/
structure DnsRecord where
  pos : Nat
  type : Nat
  data : Nat
  len : Nat
  deriving DecidableEq, Repr

/-- Where the walk reads a record: all of it but the data, or one that is broken or cut. -/
inductive Visit
  | record (r : DnsRecord)
  | broken (pos : Nat)
  deriving DecidableEq, Repr

def Visit.pos : Visit → Nat
  | .record r => r.pos
  | .broken pos => pos

/-- What the `switch` on the type comes to. -/
inductive AnswerTurn
  | stop (result : Bool) (request : Reslist)
  | next (current : Nat) (request : Reslist)
  | overread
  deriving DecidableEq, Repr

def addressTurn (pkt : Packet) (request : Reslist) (r : DnsRecord) (family : ResFamily)
    (size : Nat) : AnswerTurn :=
  if request.type ≠ r.type then .stop false request
  else if r.len ≠ size then .stop false request
  else
    match copyBytes pkt r.data size with
    | none => .overread
    | some bytes => .stop true { request with addr := ⟨family, bytes⟩ }

def ptrTurn (pkt : Packet) (request : Reslist) (r : DnsRecord) : AnswerTurn :=
  if request.type ≠ T_PTR then .stop false request
  else
    match dnExpand pkt r.data with
    | .error .overread => .overread
    | .error .bad => .stop false request
    | .ok name => .stop true { request with name := some (strlcpy name.2 HOSTLEN) }

/-- The branch for an alias: only one is gone past. -/
def cnameTurn (pkt : Packet) (request : Reslist) (r : DnsRecord) : AnswerTurn :=
  if request.type ≠ T_PTR then .stop false request
  else if request.state = .cname then
    match dnExpand pkt r.data with
    | .error .overread => .overread
    | .error .bad => .stop false request
    | .ok _ => .stop true request
  else .next (r.data + r.len) { request with state := .cname }

/-- The `switch` on the type; a bogus type is only logged. -/
def answerTurn (pkt : Packet) (request : Reslist) (r : DnsRecord) : AnswerTurn :=
  if r.type = T_A then addressTurn pkt request r .inet 4
  else if r.type = T_AAAA then addressTurn pkt request r .inet6 16
  else if r.type = T_PTR then ptrTurn pkt request r
  else if r.type = T_CNAME then cnameTurn pkt request r
  else .next r.data request

/-- Type, time to live and `rd_length` of a record, behind its name. -/
def fixedPart (pkt : Packet) (src : Nat) : Except DnsFault (Nat × Nat × Nat) := do
  let type ← get16 pkt src
  let ttl ← get32 pkt (src + 4)
  let len ← get16 pkt (src + 8)
  .ok (type, ttl, len)

/-- The end of a walk: what is returned, the request, and where records were read. -/
structure AnswerEnd where
  result : Bool
  request : Reslist
  visits : List Visit
  deriving DecidableEq, Repr

/-- The loop over the answers; `none` if it reads at or behind the end of the packet. -/
def procLoop (pkt : Packet) : Nat → Nat → Reslist → Option AnswerEnd
  | 0, _, request => some ⟨true, request, []⟩
  | ancount + 1, current, request =>
    if current < pkt.length then
      match dnExpand pkt current with
      | .error .overread => none
      | .error .bad => some ⟨false, request, [.broken current]⟩
      | .ok (n, _) =>
        if current + n + ANSWER_FIXED_SIZE < pkt.length then
          match fixedPart pkt (current + n) with
          | .error _ => none
          | .ok (type, ttl, len) =>
            let r : DnsRecord := ⟨current, type, current + n + ANSWER_FIXED_SIZE, len⟩
            match answerTurn pkt { request with ttl := ttl } r with
            | .overread => none
            | .stop result request => some ⟨result, request, [.record r]⟩
            | .next current request =>
              (procLoop pkt ancount current request).map fun e =>
                { e with visits := .record r :: e.visits }
        else some ⟨true, request, [.broken current]⟩
    else some ⟨true, request, []⟩

/-- The loop over the questions, to where the answers are taken to begin. -/
def skipQuestions (pkt : Packet) : Nat → Nat → Option Nat
  | 0, current => some current
  | qdcount + 1, current =>
    match dnSkipname pkt current with
    | .error .overread => none
    | .error .bad => some current
    | .ok n => skipQuestions pkt qdcount (current + n + QFIXEDSZ)

/-- `proc_answer`, with the counts of the header. -/
def procAnswer (pkt : Packet) (qdcount ancount : Nat) (request : Reslist) : Option AnswerEnd :=
  match skipQuestions pkt qdcount HFIXEDSZ with
  | none => none
  | some current => procLoop pkt ancount current request

/-! ### What should hold -/

/-- Each record is read where the data of the one before ends. -/
def AtBoundaries (visits : List Visit) : Prop :=
  visits.IsChain fun v w => ∃ r, v = .record r ∧ w.pos = r.data + r.len

/-- The type of a query for an address, with the family and the size of the answer. -/
def answerAddress (type : Nat) : Option (ResFamily × Nat) :=
  if type = T_A then some (.inet, 4) else if type = T_AAAA then some (.inet6, 16) else none

/-- The last record has the type that was asked for and its size, is inside the packet, and
its address is stored. -/
def FoundAddress (pkt : Packet) (type : Nat) (family : ResFamily) (size : Nat) (e : AnswerEnd) :
    Prop :=
  ∃ r, e.visits.getLast? = some (.record r) ∧ r.type = type ∧ r.len = size ∧
    r.data + size ≤ pkt.length ∧ e.request.addr = ⟨family, (pkt.drop r.data).take size⟩

/-- The walk stays inside the packet and goes from record to record at their boundaries, and
success for an address means that one was found. -/
def WalksRight (pkt : Packet) (type : Nat) (run : Option AnswerEnd) : Prop :=
  ∃ e, run = some e ∧ AtBoundaries e.visits ∧
    ∀ family size, e.result = true → answerAddress type = some (family, size) →
      FoundAddress pkt type family size e

/-! ### The records of a packet -/

/-- Why there are no more records: all are counted, the packet ends, a record is cut by its
end, a name is broken, or reading a name goes over the end. -/
inductive AnswersEnd
  | counted
  | ended
  | cut
  | broken
  | overread
  deriving DecidableEq, Repr

/-- Up to `ancount` records from a place on, each behind the data of the one before. -/
def answerRecords (pkt : Packet) : Nat → Nat → List DnsRecord × AnswersEnd
  | 0, _ => ([], .counted)
  | ancount + 1, pos =>
    if pos < pkt.length then
      match dnExpand pkt pos with
      | .error .overread => ([], .overread)
      | .error .bad => ([], .broken)
      | .ok (n, _) =>
        if pos + n + ANSWER_FIXED_SIZE < pkt.length then
          match fixedPart pkt (pos + n) with
          | .error _ => ([], .overread)
          | .ok (type, _, len) =>
            let rest := answerRecords pkt ancount (pos + n + ANSWER_FIXED_SIZE + len)
            (⟨pos, type, pos + n + ANSWER_FIXED_SIZE, len⟩ :: rest.1, rest.2)
        else ([], .cut)
    else ([], .ended)

/-- A name can be read without going over the end of the packet. -/
def NameInside (pkt : Packet) (pos : Nat) : Prop := dnExpand pkt pos ≠ .error .overread

/-- The records that do no harm. The first one of a known type decides; its data is inside
the packet if it is taken. Those of other types before it have no data, unless no record is
counted behind; and for an address the records do not run out first. -/
def AnswersFit (pkt : Packet) (type : Nat) : Bool → List DnsRecord → AnswersEnd → Prop
  | _, [], fin => fin ≠ .overread ∧ (fin ≠ .broken → answerAddress type = none)
  | cname, r :: rs, fin =>
    if r.type = T_A then type = T_A → r.len = 4 → r.data + 4 ≤ pkt.length
    else if r.type = T_AAAA then type = T_AAAA → r.len = 16 → r.data + 16 ≤ pkt.length
    else if r.type = T_PTR then type = T_PTR → NameInside pkt r.data
    else if r.type = T_CNAME then
      type = T_PTR → if cname then NameInside pkt r.data else AnswersFit pkt type true rs fin
    else (r.len = 0 ∨ rs = [] ∧ fin = .counted) ∧ AnswersFit pkt type cname rs fin

/-- The names of the questions are skipped inside the packet, and the records behind them
fit. -/
def PacketFits (pkt : Packet) (qdcount ancount : Nat) (request : Reslist) : Prop :=
  ∃ pos, skipQuestions pkt qdcount HFIXEDSZ = some pos ∧
    AnswersFit pkt request.type (request.state = .cname) (answerRecords pkt ancount pos).1
      (answerRecords pkt ancount pos).2

/-! ### The turns of the walk -/

theorem walksRight_none (pkt : Packet) (type : Nat) : ¬WalksRight pkt type none := by
  rintro ⟨e, he, -⟩
  cases he

theorem walksRight_stop {pkt : Packet} {type : Nat} {result : Bool} (request : Reslist) (v : Visit)
    (h : result = true → answerAddress type = none) :
    WalksRight pkt type (some ⟨result, request, [v]⟩) := by
  refine ⟨_, rfl, List.IsChain.singleton v, fun family size hresult haddress => ?_⟩
  rw [h hresult] at haddress
  cases haddress

theorem walksRight_empty_iff (pkt : Packet) (type : Nat) (request : Reslist) (vs : List Visit)
    (hvs : vs = [] ∨ ∃ pos, vs = [.broken pos]) :
    WalksRight pkt type (some ⟨true, request, vs⟩) ↔ answerAddress type = none := by
  constructor
  · rintro ⟨e, he, -, hfound⟩
    obtain rfl := Option.some.inj he
    cases haddress : answerAddress type with
    | none => rfl
    | some a =>
      obtain ⟨r, hlast, -⟩ := hfound a.1 a.2 rfl haddress
      obtain rfl | ⟨pos, rfl⟩ := hvs <;> cases hlast
  · intro hnone
    refine ⟨_, rfl, ?_, fun family size _ haddress => ?_⟩
    · obtain rfl | ⟨pos, rfl⟩ := hvs
      · exact List.IsChain.nil
      · exact List.IsChain.singleton _
    · rw [hnone] at haddress
      cases haddress

/-- A walk that ends with its first turn. -/
def AnswerTurn.run (turn : AnswerTurn) (r : DnsRecord) : Option AnswerEnd :=
  match turn with
  | .stop result request => some ⟨result, request, [.record r]⟩
  | _ => none

theorem answerAddress_T_PTR : answerAddress T_PTR = none := by decide

theorem walksRight_addressTurn {pkt : Packet} {request : Reslist} {r : DnsRecord}
    {family : ResFamily} {size : Nat} (hr : answerAddress r.type = some (family, size)) :
    WalksRight pkt request.type ((addressTurn pkt request r family size).run r) ↔
      (request.type = r.type → r.len = size → r.data + size ≤ pkt.length) := by
  unfold addressTurn
  by_cases htype : request.type = r.type
  · rw [if_neg (not_not.mpr htype)]
    by_cases hlen : r.len = size
    · rw [if_neg (not_not.mpr hlen), copyBytes]
      by_cases hinside : r.data + size ≤ pkt.length
      · rw [if_pos hinside]
        refine iff_of_true ?_ fun _ _ => hinside
        refine ⟨_, rfl, List.IsChain.singleton _, fun family' size' _ haddress => ?_⟩
        rw [htype, hr] at haddress
        obtain ⟨rfl, rfl⟩ := Prod.mk.inj (Option.some.inj haddress)
        exact ⟨r, rfl, htype.symm, hlen, hinside, rfl⟩
      · rw [if_neg hinside]
        exact iff_of_false (walksRight_none pkt _) fun h => hinside (h htype hlen)
    · rw [if_pos hlen]
      exact iff_of_true (walksRight_stop _ _ (by simp)) fun _ h => absurd h hlen
  · rw [if_pos htype]
    exact iff_of_true (walksRight_stop _ _ (by simp)) fun h => absurd h htype

theorem walksRight_name {pkt : Packet} {type : Nat} {r : DnsRecord} {pos : Nat}
    {bad : Reslist} {found : Nat × CStr → Reslist} (htype : type = T_PTR) :
    WalksRight pkt type
        (AnswerTurn.run
          (match dnExpand pkt pos with
          | .error .overread => .overread
          | .error .bad => .stop false bad
          | .ok name => .stop true (found name)) r) ↔ NameInside pkt pos := by
  unfold NameInside
  cases hname : dnExpand pkt pos with
  | error e =>
    cases e with
    | overread => exact iff_of_false (walksRight_none pkt _) fun h => h rfl
    | bad => exact iff_of_true (walksRight_stop _ _ (by simp)) (by simp)
  | ok name =>
    refine iff_of_true (walksRight_stop _ _ fun _ => ?_) (by simp)
    rw [htype, answerAddress_T_PTR]

theorem walksRight_ptrTurn {pkt : Packet} {request : Reslist} {r : DnsRecord} :
    WalksRight pkt request.type ((ptrTurn pkt request r).run r) ↔
      (request.type = T_PTR → NameInside pkt r.data) := by
  unfold ptrTurn
  by_cases htype : request.type = T_PTR
  · rw [if_neg (not_not.mpr htype)]
    exact (walksRight_name htype).trans (imp_iff_right htype).symm
  · rw [if_pos htype]
    exact iff_of_true (walksRight_stop _ _ (by simp)) fun h => absurd h htype

theorem procLoop_head {pkt : Packet} {ancount current : Nat} {request : Reslist} {e : AnswerEnd}
    (h : procLoop pkt ancount current request = some e) :
    (∀ v, e.visits.head? = some v → v.pos = current) ∧
      (e.visits = [] ↔ ancount = 0 ∨ pkt.length ≤ current) := by
  cases ancount with
  | zero =>
    obtain rfl := Option.some.inj h
    simp
  | succ ancount =>
    rw [procLoop] at h
    by_cases hlt : current < pkt.length
    · rw [if_pos hlt] at h
      have hone : ∀ (v : Visit) (vs : List Visit), v.pos = current → e.visits = v :: vs →
          (∀ v, e.visits.head? = some v → v.pos = current) ∧
            (e.visits = [] ↔ ancount + 1 = 0 ∨ pkt.length ≤ current) := by
        intro v vs hv hvisits
        rw [hvisits]
        refine ⟨fun w hw => ?_, by simpa using hlt⟩
        rw [List.head?_cons] at hw
        rw [← Option.some.inj hw, hv]
      split at h
      · cases h
      · obtain rfl := Option.some.inj h
        exact hone _ _ rfl rfl
      · split at h
        · split at h
          · cases h
          · dsimp only at h
            split at h
            · cases h
            · obtain rfl := Option.some.inj h
              exact hone _ _ rfl rfl
            · obtain ⟨e', -, rfl⟩ := Option.map_eq_some_iff.mp h
              exact hone _ _ rfl rfl
        · obtain rfl := Option.some.inj h
          exact hone _ _ rfl rfl
    · rw [if_neg hlt] at h
      obtain rfl := Option.some.inj h
      simp [Nat.le_of_not_lt hlt]

theorem walksRight_cons {pkt : Packet} {type ancount current : Nat} {request : Reslist}
    {r : DnsRecord} (hr : answerAddress r.type = none) :
    WalksRight pkt type ((procLoop pkt ancount current request).map fun e =>
        { e with visits := .record r :: e.visits }) ↔
      WalksRight pkt type (procLoop pkt ancount current request) ∧
        (procLoop pkt ancount current request = none ∨ ancount = 0 ∨ pkt.length ≤ current ∨
          current = r.data + r.len) := by
  cases hrun : procLoop pkt ancount current request with
  | none => exact iff_of_false (walksRight_none pkt _) fun h => walksRight_none _ _ h.1
  | some e =>
    obtain ⟨hhead, hnil⟩ := procLoop_head hrun
    have hfound : ∀ family size, answerAddress type = some (family, size) →
        (FoundAddress pkt type family size { e with visits := .record r :: e.visits } ↔
          FoundAddress pkt type family size e) := by
      intro family size haddress
      unfold FoundAddress
      dsimp only
      cases hvisits : e.visits with
      | nil =>
        refine iff_of_false ?_ ?_
        · rintro ⟨r', hlast, htype, -⟩
          cases hlast
          rw [htype, haddress] at hr
          cases hr
        · rintro ⟨r', hlast, -⟩
          cases hlast
      | cons v vs => rw [List.getLast?_cons_cons]
    constructor
    · rintro ⟨e', he', hchain, haddress⟩
      obtain rfl := Option.some.inj he'
      have hrest : AtBoundaries e.visits ∧ (e.visits = [] ∨ current = r.data + r.len) := by
        dsimp only [AtBoundaries] at hchain
        cases hvisits : e.visits with
        | nil => exact ⟨List.IsChain.nil, Or.inl rfl⟩
        | cons v vs =>
          rw [hvisits, List.isChain_cons_cons] at hchain
          obtain ⟨⟨r', hr', hpos⟩, hchain⟩ := hchain
          cases hr'
          have hv := hhead v (by rw [hvisits, List.head?_cons])
          exact ⟨hchain, Or.inr (hv.symm.trans hpos)⟩
      refine ⟨⟨e, rfl, hrest.1, fun family size hresult htype => ?_⟩, ?_⟩
      · exact (hfound family size htype).mp (haddress family size hresult htype)
      · obtain hvisits | hgo := hrest.2
        · exact Or.inr ((hnil.mp hvisits).imp id Or.inl)
        · exact Or.inr (Or.inr (Or.inr hgo))
    · rintro ⟨⟨e', he', hchain, haddress⟩, hgoes⟩
      obtain rfl := Option.some.inj he'
      refine ⟨_, rfl, ?_, fun family size hresult htype => ?_⟩
      · dsimp only [AtBoundaries] at hchain ⊢
        cases hvisits : e.visits with
        | nil => exact List.IsChain.singleton _
        | cons v vs =>
          rw [hvisits] at hchain
          refine List.isChain_cons_cons.mpr ⟨⟨r, rfl, ?_⟩, hchain⟩
          have hv := hhead v (by rw [hvisits, List.head?_cons])
          have hne : e.visits ≠ [] := by
            rw [hvisits]
            exact List.cons_ne_nil v vs
          obtain hnone | hzero | hend | hgo := hgoes
          · cases hnone
          · exact absurd (hnil.mpr (Or.inl hzero)) hne
          · exact absurd (hnil.mpr (Or.inr hend)) hne
          · exact hv.trans hgo
      · exact (hfound family size htype).mpr (haddress family size hresult htype)

/-! ### The walk and the records -/

theorem byteAt_of_lt {pkt : Packet} {i : Nat} (h : i < pkt.length) :
    ∃ n, byteAt pkt i = .ok n := ⟨_, by rw [byteAt, List.getElem?_eq_getElem h]⟩

theorem fixedPart_of_lt {pkt : Packet} {src : Nat} (h : src + ANSWER_FIXED_SIZE < pkt.length) :
    ∃ part, fixedPart pkt src = .ok part := by
  have hsize : ANSWER_FIXED_SIZE = 10 := rfl
  have h16 : ∀ i, i + 1 < pkt.length → ∃ n, get16 pkt i = .ok n := by
    intro i hi
    obtain ⟨high, hhigh⟩ := byteAt_of_lt (Nat.lt_of_succ_lt hi)
    obtain ⟨low, hlow⟩ := byteAt_of_lt hi
    exact ⟨_, by rw [get16, hhigh, hlow]; rfl⟩
  obtain ⟨type, htype⟩ := h16 src (by omega)
  obtain ⟨high, hhigh⟩ := h16 (src + 4) (by omega)
  obtain ⟨low, hlow⟩ := h16 (src + 4 + 2) (by omega)
  obtain ⟨len, hlen⟩ := h16 (src + 8) (by omega)
  exact ⟨_, by rw [fixedPart, htype, get32, hhigh, hlow, hlen]; rfl⟩

theorem answerRecords_eq_nil {pkt : Packet} {ancount pos : Nat}
    (h : (answerRecords pkt ancount pos).1 = [] ∧ (answerRecords pkt ancount pos).2 = .counted) :
    ancount = 0 := by
  cases ancount with
  | zero => rfl
  | succ ancount =>
    exfalso
    revert h
    rw [answerRecords]
    split
    · split
      · simp
      · simp
      · split
        · split <;> simp
        · simp
    · simp

def AnswerTurn.goOn (pkt : Packet) (ancount : Nat) (r : DnsRecord) : AnswerTurn → Option AnswerEnd
  | .overread => none
  | .stop result request => some ⟨result, request, [.record r]⟩
  | .next current request =>
    (procLoop pkt ancount current request).map fun e =>
      { e with visits := .record r :: e.visits }

theorem goOn_of_deciding {pkt : Packet} {ancount : Nat} {r : DnsRecord} {turn : AnswerTurn}
    (h : ∀ current request, turn ≠ .next current request) :
    turn.goOn pkt ancount r = turn.run r := by
  cases turn with
  | overread => rfl
  | stop result request => rfl
  | next current request => exact absurd rfl (h current request)

theorem addressTurn_ne_next (pkt : Packet) (request : Reslist) (r : DnsRecord)
    (family : ResFamily) (size : Nat) (current : Nat) (request' : Reslist) :
    addressTurn pkt request r family size ≠ .next current request' := by
  unfold addressTurn
  split
  · simp
  · split
    · simp
    · split <;> simp

theorem ptrTurn_ne_next (pkt : Packet) (request : Reslist) (r : DnsRecord) (current : Nat)
    (request' : Reslist) : ptrTurn pkt request r ≠ .next current request' := by
  unfold ptrTurn
  split
  · simp
  · split <;> simp

theorem walksRight_turn_iff {pkt : Packet} {ancount : Nat}
    (ih : ∀ current (request : Reslist),
      WalksRight pkt request.type (procLoop pkt ancount current request) ↔
        AnswersFit pkt request.type (request.state = .cname)
          (answerRecords pkt ancount current).1 (answerRecords pkt ancount current).2)
    (request : Reslist) {r : DnsRecord} (hdata : r.data < pkt.length) :
    WalksRight pkt request.type ((answerTurn pkt request r).goOn pkt ancount r) ↔
      AnswersFit pkt request.type (request.state = .cname)
        (r :: (answerRecords pkt ancount (r.data + r.len)).1)
        (answerRecords pkt ancount (r.data + r.len)).2 := by
  rw [AnswersFit]
  by_cases hA : r.type = T_A
  · have hturn : answerTurn pkt request r = addressTurn pkt request r .inet 4 := by
      rw [answerTurn, if_pos hA]
    have haddress : answerAddress r.type = some (.inet, 4) := by
      rw [hA]
      rfl
    rw [if_pos hA, hturn, goOn_of_deciding (addressTurn_ne_next pkt request r _ _), walksRight_addressTurn haddress,
      hA]
  rw [if_neg hA]
  by_cases hAAAA : r.type = T_AAAA
  · have hturn : answerTurn pkt request r = addressTurn pkt request r .inet6 16 := by
      rw [answerTurn, if_neg hA, if_pos hAAAA]
    have haddress : answerAddress r.type = some (.inet6, 16) := by
      rw [hAAAA]
      rfl
    rw [if_pos hAAAA, hturn, goOn_of_deciding (addressTurn_ne_next pkt request r _ _),
      walksRight_addressTurn haddress, hAAAA]
  rw [if_neg hAAAA]
  have hnone : answerAddress r.type = none := by rw [answerAddress, if_neg hA, if_neg hAAAA]
  by_cases hPTR : r.type = T_PTR
  · have hturn : answerTurn pkt request r = ptrTurn pkt request r := by
      rw [answerTurn, if_neg hA, if_neg hAAAA, if_pos hPTR]
    rw [if_pos hPTR, hturn, goOn_of_deciding (ptrTurn_ne_next pkt request r), walksRight_ptrTurn]
  rw [if_neg hPTR]
  by_cases hCNAME : r.type = T_CNAME
  · have hturn : answerTurn pkt request r = cnameTurn pkt request r := by
      rw [answerTurn, if_neg hA, if_neg hAAAA, if_neg hPTR, if_pos hCNAME]
    rw [if_pos hCNAME, hturn, cnameTurn]
    by_cases htype : request.type = T_PTR
    · rw [if_neg (not_not.mpr htype), imp_iff_right htype]
      by_cases hstate : request.state = .cname
      · rw [if_pos hstate, if_pos (decide_eq_true hstate), goOn_of_deciding]
        · exact walksRight_name htype
        · intro current request'
          split <;> simp
      · -- the one alias that is gone past
        rw [if_neg hstate, if_neg (by simpa using hstate)]
        refine (walksRight_cons hnone).trans ?_
        rw [and_iff_left (Or.inr (Or.inr (Or.inr rfl)))]
        have hrest := ih (r.data + r.len) { request with state := .cname }
        simpa using hrest
    · rw [if_pos htype]
      exact iff_of_true (walksRight_stop _ _ (by simp)) fun h => absurd h htype
  · have hturn : answerTurn pkt request r = .next r.data request := by
      rw [answerTurn, if_neg hA, if_neg hAAAA, if_neg hPTR, if_neg hCNAME]
    rw [if_neg hCNAME, hturn]
    refine (walksRight_cons hnone).trans ?_
    by_cases hlen : r.len = 0
    · rw [and_iff_left (Or.inr (Or.inr (Or.inr (by rw [hlen, Nat.add_zero])))),
        and_iff_right (Or.inl hlen), hlen, Nat.add_zero]
      exact ih r.data request
    · cases ancount with
      | zero =>
        rw [and_iff_left (Or.inr (Or.inl rfl)), and_iff_right (Or.inr ⟨rfl, rfl⟩)]
        exact ih r.data request
      | succ ancount =>
        -- a record is counted behind, and the walk reads it where the data begins
        refine iff_of_false ?_ ?_
        · rintro ⟨hright, hnone | hzero | hend | hgo⟩
          · rw [hnone] at hright
            exact walksRight_none pkt _ hright
          · cases hzero
          · omega
          · omega
        · rintro ⟨hzero | hcounted, -⟩
          · exact hlen hzero
          · cases answerRecords_eq_nil hcounted

theorem walksRight_procLoop_iff (pkt : Packet) (ancount current : Nat) (request : Reslist) :
    WalksRight pkt request.type (procLoop pkt ancount current request) ↔
      AnswersFit pkt request.type (request.state = .cname) (answerRecords pkt ancount current).1
        (answerRecords pkt ancount current).2 := by
  induction ancount generalizing current request with
  | zero =>
    have hempty := walksRight_empty_iff pkt request.type request [] (Or.inl rfl)
    simpa [procLoop, answerRecords, AnswersFit] using hempty
  | succ ancount ih =>
    rw [procLoop, answerRecords]
    by_cases hlt : current < pkt.length
    · rw [if_pos hlt, if_pos hlt]
      cases hname : dnExpand pkt current with
      | error e =>
        cases e with
        | overread =>
          exact iff_of_false (walksRight_none pkt _) fun h => absurd rfl h.1
        | bad =>
          refine iff_of_true (walksRight_stop _ _ (by simp)) ⟨by simp, ?_⟩
          exact fun h => absurd rfl h
      | ok name =>
        obtain ⟨n, text⟩ := name
        dsimp only
        by_cases hfixed : current + n + ANSWER_FIXED_SIZE < pkt.length
        · rw [if_pos hfixed, if_pos hfixed]
          obtain ⟨⟨type, ttl, len⟩, hpart⟩ := fixedPart_of_lt hfixed
          rw [hpart]
          dsimp only
          have hturn := walksRight_turn_iff ih { request with ttl := ttl }
            (r := ⟨current, type, current + n + ANSWER_FIXED_SIZE, len⟩) hfixed
          exact hturn
        · rw [if_neg hfixed, if_neg hfixed]
          have hempty := walksRight_empty_iff pkt request.type request [.broken current]
            (Or.inr ⟨current, rfl⟩)
          simpa [AnswersFit] using hempty
    · rw [if_neg hlt, if_neg hlt]
      have hempty := walksRight_empty_iff pkt request.type request [] (Or.inl rfl)
      simpa [AnswersFit] using hempty

/-- `proc_answer` is right exactly for the packets that fit. -/
theorem dns_answer_safe_iff (pkt : Packet) (qdcount ancount : Nat) (request : Reslist) :
    WalksRight pkt request.type (procAnswer pkt qdcount ancount request) ↔
      PacketFits pkt qdcount ancount request := by
  unfold procAnswer PacketFits
  cases hskip : skipQuestions pkt qdcount HFIXEDSZ with
  | none =>
    refine iff_of_false (walksRight_none pkt _) ?_
    rintro ⟨pos, hpos, -⟩
    cases hpos
  | some current =>
    refine (walksRight_procLoop_iff pkt ancount current request).trans ?_
    constructor
    · exact fun h => ⟨current, rfl, h⟩
    · rintro ⟨pos, hpos, h⟩
      obtain rfl := Option.some.inj hpos
      exact h

def addressQuery : Reslist :=
  ⟨7, 1, .a, 0, T_A, 3, 1, true, 0, 4, ⟨.unspec, []⟩, some "host".toList, 1⟩

/-- A header, and an answer of some type with a root name and four bytes of data, of which
the packet holds `data`. -/
def answerPacket (type : UInt8) (data : List UInt8) : Packet :=
  List.replicate 12 0 ++ [0, 0, type, 0, 1, 0, 0, 0, 60, 0, 4] ++ data

/-- An address that is cut is copied over the end of the packet, and an answer of a type that
is not known is success. -/
theorem dns_answer_unsafe :
    procAnswer (answerPacket 1 [192]) 0 1 addressQuery = none ∧
      procAnswer (answerPacket 99 [1, 2, 3, 4]) 0 1 addressQuery =
        some ⟨true, { addressQuery with ttl := 60 }, [.record ⟨12, 99, 23, 4⟩]⟩ ∧
      ¬(∀ pkt qdcount ancount request,
        WalksRight pkt request.type (procAnswer pkt qdcount ancount request)) := by
  have hcut : procAnswer (answerPacket 1 [192]) 0 1 addressQuery = none := by decide +kernel
  refine ⟨hcut, by decide +kernel, fun h => ?_⟩
  have hright := h (answerPacket 1 [192]) 0 1 addressQuery
  rw [hcut] at hright
  exact walksRight_none _ _ hright

end Ircd
