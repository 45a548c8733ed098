import Ircd.World
import Ircd.Lib.Ring
import Ircd.Lib.Run
import Ircd.Lib.Threads
import Mathlib.Data.List.Find

/-!
The nick history of `whowas.c`: a ring of slots, threaded by the hash chains and by
the lists of the clients, with the link fields of both.

`logStep` keeps the additions themselves, the newest first, without a ring and
without lists. `whowas_consistent` says that after any calls the slots hold the
newest additions, that the lists are those of the slots, and that `get_history` looks
up the additions.
-/

namespace Ircd

open Function List
open DTable (Threads listOf)

/-- The sizes that `configure` sets: `NICKNAMEHISTORYLENGTH` and `NICKLEN`. -/
structure WhowasSizes where
  NICKNAMEHISTORYLENGTH : Nat
  NICKLEN : Nat
  historyLength_pos : 0 < NICKNAMEHISTORYLENGTH

/-- What `struct Client` has for the history. -/
structure HistoryClient where
  status : Status
  name : CStr
  username : CStr
  host : CStr
  info : CStr
  servptr : Option Cid
  deriving DecidableEq, Repr

/-- `struct Whowas` without its links; `none` is the `hashv` of a slot that was never
filled. -/
structure WhowasEntry where
  hashv : Option Nat
  logoff : Int
  name : CStr
  username : CStr
  hostname : CStr
  realname : CStr
  servername : CStr
  online : Option Cid
  deriving DecidableEq, Repr

/-- The clients, `WHOWAS` with `WHOWASHASH`, and the `whowas` lists of the clients. -/
structure WhowasState where
  ircdRandomKey : Nat
  currentTime : Int
  clients : Cid → Option HistoryClient
  slots : Nat → WhowasEntry
  hash : DTable Nat Nat
  clist : DTable Cid Nat
  whowasNext : Nat

namespace WhowasState

/-- `init_whowas`, with no client yet. -/
def init (key : Nat) (now : Int) : WhowasState where
  ircdRandomKey := key
  currentTime := now
  clients := fun _ => none
  slots := fun _ => ⟨none, 0, [], [], [], [], [], none⟩
  hash := ⟨fun _ => ⟨none, none⟩, fun _ => none⟩
  clist := ⟨fun _ => ⟨none, none⟩, fun _ => none⟩
  whowasNext := 0

/-- The start of `add_history`: the next slot leaves the lists that it is in. -/
def dropOld (s : WhowasState) : WhowasState :=
  match (s.slots s.whowasNext).hashv with
  | none => s
  | some hashv =>
    { s with
      clist :=
        match (s.slots s.whowasNext).online with
        | some c => s.clist.del c s.whowasNext
        | none => s.clist
      hash := s.hash.del hashv s.whowasNext }

def serverName (s : WhowasState) (srv : Cid) : CStr :=
  match s.clients srv with
  | some x => x.name
  | none => []

/-- What `add_history` writes into a slot. -/
def entryOf (sizes : WhowasSizes) (s : WhowasState) (c : Cid) (x : HistoryClient) (srv : Cid)
    (online : Bool) : WhowasEntry where
  hashv := some (strhash s.ircdRandomKey x.name)
  logoff := s.currentTime
  name := strlcpy x.name sizes.NICKLEN
  username := x.username
  hostname := x.host
  realname := x.info
  servername := strlcpy (s.serverName srv) (HOSTLEN + 1)
  online := if online then some c else none

/-- The rest of `add_history`: the next slot is filled and linked. -/
def fillNext (sizes : WhowasSizes) (s : WhowasState) (c : Cid) (x : HistoryClient) (srv : Cid)
    (online : Bool) : WhowasState :=
  { s with
    slots := update s.slots s.whowasNext (s.entryOf sizes c x srv online)
    clist := if online then s.clist.add c s.whowasNext else s.clist
    hash := s.hash.add (strhash s.ircdRandomKey x.name) s.whowasNext
    whowasNext :=
      if s.whowasNext + 1 = sizes.NICKNAMEHISTORYLENGTH then 0 else s.whowasNext + 1 }

/-- `add_history`. -/
def addHistory (sizes : WhowasSizes) (s : WhowasState) (c : Cid) (online : Bool) : WhowasState :=
  match s.clients c with
  | none => s
  | some x =>
    match x.servptr with
    | none => s
    | some srv => s.dropOld.fillNext sizes c x srv online

/-- The loop of `off_history`. -/
def offHistoryLoop (c : Cid) : Nat → Option Nat → WhowasState → WhowasState
  | 0, _, s => s
  | _ + 1, none, s => s
  | n + 1, some temp, s =>
    offHistoryLoop c n (s.clist.nodes temp).next
      { s with
        slots := update s.slots temp { s.slots temp with online := none }
        clist := s.clist.del c temp }

/-- `off_history`. A client's list has no more than all slots. -/
def offHistory (sizes : WhowasSizes) (s : WhowasState) (c : Cid) : WhowasState :=
  offHistoryLoop c sizes.NICKNAMEHISTORYLENGTH (s.clist.head c) s

/-- The loop of `get_history`, with fuel; without a slot left it gives `NULL`. -/
def getHistoryLoop (s : WhowasState) (nick : CStr) (timelimit : Int) :
    Nat → Option Nat → Option (Option Cid)
  | _, none => some none
  | 0, some _ => none
  | n + 1, some temp =>
    if ¬ircEq nick (s.slots temp).name then
      s.getHistoryLoop nick timelimit n (s.hash.nodes temp).next
    else if (s.slots temp).logoff < timelimit then
      s.getHistoryLoop nick timelimit n (s.hash.nodes temp).next
    else some (s.slots temp).online

/-- `get_history`. -/
def getHistory (s : WhowasState) (fuel : Nat) (nick : CStr) (timelimit : Int) :
    Option (Option Cid) :=
  s.getHistoryLoop nick (s.currentTime - timelimit) fuel
    (s.hash.head (strhash s.ircdRandomKey nick))

/-- The part of `exit_one_client` for the history, and the end of the client. -/
def exitOneClient (sizes : WhowasSizes) (s : WhowasState) (c : Cid) : WhowasState :=
  let s' :=
    match s.clients c with
    | some x =>
      if x.status = Status.client then (s.addHistory sizes c false).offHistory sizes c else s
    | none => s
  { s' with clients := update s'.clients c none }

end WhowasState

/-- What happens around the history. `update` is any assignment to the fields of a
client elsewhere. -/
inductive WhowasOp where
  | makeClient (c : Cid)
  | update (c : Cid) (x : HistoryClient)
  | addHistory (c : Cid) (online : Bool)
  | offHistory (c : Cid)
  | exitOneClient (c : Cid)
  | setTime (now : Int)

namespace WhowasState

/-- One call. A new client is zeroed, and its status is `STAT_UNKNOWN`. -/
def step (sizes : WhowasSizes) (s : WhowasState) : WhowasOp → WhowasState
  | .makeClient c =>
    { s with
      clients := update s.clients c
        (some ⟨.unknown, [], "unknown".toList, [], [], none⟩)
      clist := { s.clist with head := update s.clist.head c none } }
  | .update c x => { s with clients := update s.clients c (some x) }
  | .addHistory c online => s.addHistory sizes c online
  | .offHistory c => s.offHistory sizes c
  | .exitOneClient c => s.exitOneClient sizes c
  | .setTime now => { s with currentTime := now }

/-- What the callers keep to: a new client has memory of its own, the calls are for
clients that exist, `add_history` for registered users (`whowas.h`), a registered user
stays one until it exits, and its nick comes from a buffer of `NICKLEN`. -/
def Admissible (sizes : WhowasSizes) (s : WhowasState) : WhowasOp → Prop
  | .makeClient c => s.clients c = none
  | .update c x =>
    (∃ y, s.clients c = some y ∧ (y.status = .client → x.status = .client)) ∧
      (x.status = .client → x.name.length < sizes.NICKLEN)
  | .addHistory c _ => ∃ x, s.clients c = some x ∧ x.status = .client
  | .offHistory c => s.clients c ≠ none
  | .exitOneClient c => s.clients c ≠ none
  | .setTime _ => True

/-- The chain of a hash value, as the `next` pointers lead along it. -/
def chain (sizes : WhowasSizes) (s : WhowasState) (k : Nat) : List Nat :=
  s.hash.walk sizes.NICKNAMEHISTORYLENGTH k

/-- The list of a client, as the `cnext` pointers lead along it. -/
def clientList (sizes : WhowasSizes) (s : WhowasState) (c : Cid) : List Nat :=
  s.clist.walk sizes.NICKNAMEHISTORYLENGTH c

end WhowasState

/-! ### The additions -/

/-- One more addition in front, unless the client has no server. -/
def logAdd (sizes : WhowasSizes) (s : WhowasState) (log : List WhowasEntry) (c : Cid) (online : Bool) :
    List WhowasEntry :=
  match s.clients c with
  | none => log
  | some x =>
    match x.servptr with
    | none => log
    | some srv => s.entryOf sizes c x srv online :: log

/-- The client is no longer that of any addition. -/
def logOff (log : List WhowasEntry) (c : Cid) : List WhowasEntry :=
  log.map fun e => if e.online = some c then { e with online := none } else e

/-- What a call does to the additions. -/
def logStep (sizes : WhowasSizes) (s : WhowasState) (log : List WhowasEntry) :
    WhowasOp → List WhowasEntry
  | .addHistory c online => logAdd sizes s log c online
  | .offHistory c => logOff log c
  | .exitOneClient c =>
    match s.clients c with
    | some x => if x.status = .client then logOff (logAdd sizes s log c false) c else log
    | none => log
  | _ => log

/-- The client of the newest addition under this nick since `timelimit`, among those that
a ring keeps. -/
def newestClient (sizes : WhowasSizes) (log : List WhowasEntry) (nick : CStr) (timelimit : Int) :
    Option Cid :=
  ((log.take sizes.NICKNAMEHISTORYLENGTH).find? fun e =>
    ircEq nick e.name && decide (timelimit ≤ e.logoff)).bind WhowasEntry.online

def historyStep (sizes : WhowasSizes) (p : WhowasState × List WhowasEntry) (op : WhowasOp) :
    WhowasState × List WhowasEntry :=
  (p.1.step sizes op, logStep sizes p.1 p.2 op)

/-- The history keeps the additions: the slots are the newest ones, each filled slot is
in the chain of its nick and in no other, and in the list of its client, which exists, and
in no other. A lookup gives the client of the newest addition, and a slot that is to be
filled leaves its lists before. -/
structure KeepsHistory (sizes : WhowasSizes) (s : WhowasState) (log : List WhowasEntry) : Prop where
  filled : ∀ i < sizes.NICKNAMEHISTORYLENGTH, ((s.slots i).hashv ≠ none ↔ i < log.length)
  newest : (Ring.order sizes.NICKNAMEHISTORYLENGTH log.length).map s.slots =
    log.take sizes.NICKNAMEHISTORYLENGTH
  chained : ∀ i k, i ∈ s.chain sizes k ↔
    (i < sizes.NICKNAMEHISTORYLENGTH ∧ i < log.length) ∧
      k = strhash s.ircdRandomKey (s.slots i).name
  once_chained : ∀ k, (s.chain sizes k).Nodup
  listed : ∀ i c, i ∈ s.clientList sizes c ↔
    (i < sizes.NICKNAMEHISTORYLENGTH ∧ i < log.length) ∧ (s.slots i).online = some c
  once_listed : ∀ c, (s.clientList sizes c).Nodup
  living : ∀ i c, (s.slots i).online = some c → s.clients c ≠ none
  found : ∀ fuel nick window, sizes.NICKNAMEHISTORYLENGTH ≤ fuel →
    s.getHistory fuel nick window = some (newestClient sizes log nick (s.currentTime - window))
  unchained : ∀ k, s.dropOld.chain sizes k = (s.chain sizes k).erase s.whowasNext
  unlisted : ∀ c, s.dropOld.clientList sizes c = (s.clientList sizes c).erase s.whowasNext

namespace WhowasState

/-! ### The invariant -/

/-- The slots that are filled, the newest first. -/
abbrev order (sizes : WhowasSizes) (log : List WhowasEntry) : List Nat :=
  Ring.order sizes.NICKNAMEHISTORYLENGTH log.length

/-- The slots are the newest additions, and both kinds of lists have them in this order. -/
structure Inv (sizes : WhowasSizes) (s : WhowasState) (log : List WhowasEntry) : Prop where
  next : s.whowasNext = log.length % sizes.NICKNAMEHISTORYLENGTH
  newest : (order sizes log).map s.slots = log.take sizes.NICKNAMEHISTORYLENGTH
  fresh : ∀ i ∉ order sizes log, (s.slots i).hashv = none ∧ (s.slots i).online = none
  hashed : ∀ e ∈ log, e.hashv = some (strhash s.ircdRandomKey e.name)
  chains : s.hash.Threads (order sizes log) fun i => (s.slots i).hashv
  lists : s.clist.Threads (order sizes log) fun i => (s.slots i).online
  users : ∀ e ∈ log, ∀ c, e.online = some c → ∃ x, s.clients c = some x ∧ x.status = .client
  names : ∀ c x, s.clients c = some x → x.status = .client → x.name.length < sizes.NICKLEN

variable {sizes : WhowasSizes} {s : WhowasState} {log : List WhowasEntry} {c : Cid} {i n : Nat}

@[simp] theorem order_nil (sizes : WhowasSizes) : order sizes [] = [] := Ring.order_zero _

theorem inv_init (sizes : WhowasSizes) (key : Nat) (now : Int) : Inv sizes (init key now) [] where
  next := (Nat.zero_mod _).symm
  newest := by simp
  fresh _ _ := ⟨rfl, rfl⟩
  hashed _ he := by cases he
  chains := by
    rw [order_nil]
    exact DTable.threads_empty _ _
  lists := by
    rw [order_nil]
    exact DTable.threads_empty _ _
  users _ he := by cases he
  names _ _ hx := by cases hx

theorem Inv.slot_mem (h : Inv sizes s log) (hi : i ∈ order sizes log) : s.slots i ∈ log := by
  have hmem := mem_map_of_mem (f := s.slots) hi
  rw [h.newest] at hmem
  exact mem_of_mem_take hmem

theorem Inv.slot_hashv (h : Inv sizes s log) (hi : i ∈ order sizes log) :
    (s.slots i).hashv = some (strhash s.ircdRandomKey (s.slots i).name) :=
  h.hashed _ (h.slot_mem hi)

theorem Inv.filled_iff (h : Inv sizes s log) : (s.slots i).hashv ≠ none ↔ i ∈ order sizes log := by
  constructor
  · intro hi
    by_contra hout
    exact hi (h.fresh i hout).1
  · intro hi
    rw [h.slot_hashv hi]
    exact Option.some_ne_none _

/-! ### The next slot is filled -/

theorem Inv.dropOld (h : Inv sizes s log) :
    ∃ hash clist, s.dropOld = { s with hash := hash, clist := clist } ∧
      hash.Threads ((order sizes log).erase s.whowasNext) (fun i => (s.slots i).hashv) ∧
      clist.Threads ((order sizes log).erase s.whowasNext) fun i => (s.slots i).online := by
  cases hk : (s.slots s.whowasNext).hashv with
  | none =>
    have hout : s.whowasNext ∉ order sizes log := fun hi => h.filled_iff.mpr hi hk
    rw [WhowasState.dropOld, hk, erase_of_not_mem hout]
    exact ⟨s.hash, s.clist, rfl, h.chains, h.lists⟩
  | some k =>
    have hmem : s.whowasNext ∈ order sizes log := h.filled_iff.mp (by rw [hk]; simp)
    rw [WhowasState.dropOld, hk]
    refine ⟨_, _, rfl, h.chains.take hmem hk, ?_⟩
    cases honline : (s.slots s.whowasNext).online with
    | none => exact h.lists.erase honline
    | some c => exact h.lists.take hmem honline

theorem Inv.order_cons (h : Inv sizes s log) (e : WhowasEntry) :
    order sizes (e :: log) = s.whowasNext :: (order sizes log).erase s.whowasNext := by
  rw [h.next]
  exact Ring.order_succ sizes.historyLength_pos log.length

theorem Inv.fillNext (h : Inv sizes s log) {x : HistoryClient} (hx : s.clients c = some x)
    (huser : x.status = .client) (srv : Cid) (online : Bool) :
    Inv sizes (s.dropOld.fillNext sizes c x srv online)
      (s.entryOf sizes c x srv online :: log) := by
  obtain ⟨hash, clist, hdrop, hchains, hlists⟩ := h.dropOld
  rw [hdrop]
  set e := s.entryOf sizes c x srv online with he
  have hout : s.whowasNext ∉ (order sizes log).erase s.whowasNext :=
    (Ring.nodup_order _ _).not_mem_erase
  have hsame : ∀ i ∈ (order sizes log).erase s.whowasNext,
      Function.update s.slots s.whowasNext e i = s.slots i := fun i hi =>
    update_of_ne (ne_of_mem_of_not_mem hi hout) _ _
  have hname : strhash s.ircdRandomKey x.name =
      strhash s.ircdRandomKey (strlcpy x.name sizes.NICKLEN) := by
    have hlen := h.names c x hx huser
    rw [strlcpy, take_of_length_le (by omega)]
  constructor
  · have hnext := Ring.next_eq sizes.historyLength_pos log.length
    rw [← h.next] at hnext
    exact hnext
  · have htake : ((order sizes log).erase s.whowasNext).map s.slots =
        log.take (sizes.NICKNAMEHISTORYLENGTH - 1) := by
      rw [h.next, ← Ring.take_order sizes.historyLength_pos, map_take, h.newest,
        take_take, Nat.min_eq_left (Nat.sub_le _ _)]
    have hcell : (order sizes (e :: log)).map (Function.update s.slots s.whowasNext e) =
        (e :: log).take sizes.NICKNAMEHISTORYLENGTH := by
      rw [h.order_cons, map_cons, update_self, map_congr_left hsame, htake]
      obtain ⟨m, hm⟩ := Nat.exists_eq_succ_of_ne_zero sizes.historyLength_pos.ne'
      rw [hm]
      rfl
    exact hcell
  · intro i hi
    rw [h.order_cons, mem_cons, not_or] at hi
    obtain ⟨hne, hi⟩ := hi
    have hslot : Function.update s.slots s.whowasNext e i = s.slots i :=
      update_of_ne hne _ _
    have hold := h.fresh i fun hmem => hi ((mem_erase_of_ne hne).mpr hmem)
    rw [← hslot] at hold
    exact hold
  · intro e' he'
    rcases List.mem_cons.mp he' with rfl | he'
    · exact congrArg some hname
    · exact h.hashed e' he'
  · rw [h.order_cons]
    refine (hchains.add hout (strhash s.ircdRandomKey x.name)).congr fun i hi => ?_
    change (Function.update s.slots s.whowasNext e i).hashv = _
    by_cases hi : i = s.whowasNext
    · rw [hi, update_self, update_self]
      rfl
    · rw [update_of_ne hi, update_of_ne hi]
  · rw [h.order_cons]
    cases online with
    | false =>
      refine DTable.Threads.skip (hlists.congr fun i hi => ?_) hout ?_
      · exact congrArg WhowasEntry.online (hsame i hi)
      · change (Function.update s.slots s.whowasNext e s.whowasNext).online = none
        rw [update_self]
        rfl
    | true =>
      refine (hlists.add hout c).congr fun i hi => ?_
      change (Function.update s.slots s.whowasNext e i).online = _
      by_cases hi : i = s.whowasNext
      · rw [hi, update_self, update_self]
        rfl
      · rw [update_of_ne hi, update_of_ne hi]
  · intro e' he' d hd
    rcases List.mem_cons.mp he' with rfl | he'
    · cases online with
      | false => cases hd
      | true =>
        obtain rfl : c = d := Option.some.inj hd
        exact ⟨x, hx, huser⟩
    · exact h.users e' he' d hd
  · exact h.names

theorem Inv.addHistory (h : Inv sizes s log)
    (hc : ∃ x, s.clients c = some x ∧ x.status = .client) (online : Bool) :
    Inv sizes (s.addHistory sizes c online) (logAdd sizes s log c online) := by
  obtain ⟨x, hx, huser⟩ := hc
  unfold WhowasState.addHistory logAdd
  rw [hx]
  dsimp only
  cases x.servptr with
  | none => exact h
  | some srv => exact h.fillNext hx huser srv online

/-! ### A client leaves the history -/

def slotsOff (slots : Nat → WhowasEntry) (c : Cid) (i : Nat) : WhowasEntry :=
  if (slots i).online = some c then { slots i with online := none } else slots i

theorem offHistoryLoop_eq {order : List Nat} {n : Nat} {l : List Nat}
    (ht : s.clist.Threads order fun i => (s.slots i).online)
    (hl : listOf order (fun i => (s.slots i).online) c = l) (hn : l.length ≤ n)
    (hfresh : ∀ i ∉ order, (s.slots i).online = none) :
    ∃ clist, offHistoryLoop c n l.head? s =
        { s with slots := slotsOff s.slots c, clist := clist } ∧
      clist.Threads order fun i => (slotsOff s.slots c i).online := by
  induction l generalizing s n with
  | nil =>
    have hnone : ∀ i, (s.slots i).online ≠ some c := by
      intro i hi
      have hmem : i ∈ listOf order (fun i => (s.slots i).online) c := by
        refine DTable.mem_listOf.mpr ⟨?_, hi⟩
        by_contra hout
        rw [hfresh i hout] at hi
        cases hi
      rw [hl] at hmem
      cases hmem
    have hslots : slotsOff s.slots c = s.slots := funext fun i => if_neg (hnone i)
    refine ⟨s.clist, ?_, by rwa [hslots]⟩
    rw [hslots]
    cases n <;> rfl
  | cons i l ih =>
    cases n with
    | zero => cases hn
    | succ n =>
      have hmem : i ∈ order ∧ (s.slots i).online = some c := by
        have hin : i ∈ listOf order (fun i => (s.slots i).online) c := by
          rw [hl]
          exact mem_cons_self
        exact DTable.mem_listOf.mp hin
      set s₁ : WhowasState :=
        { s with
          slots := update s.slots i { s.slots i with online := none }
          clist := s.clist.del c i } with hs₁
      have hloc : (fun j => (s₁.slots j).online) =
          update (fun j => (s.slots j).online) i none := by
        funext j
        by_cases hj : j = i
        · rw [hj, update_self]
          simp [hs₁]
        · rw [update_of_ne hj]
          simp [hs₁, hj]
      have hnext : (s.clist.nodes i).next = l.head? := by
        have hlist : DList.IsList ⟨s.clist.nodes, s.clist.head c, (i :: l).getLast?⟩
            ([] ++ i :: l) := by
          have hlinked := ht.list c
          rw [hl] at hlinked
          exact hlinked
        exact hlist.next
      have hoff : slotsOff s₁.slots c = slotsOff s.slots c := by
        funext j
        by_cases hj : j = i
        · rw [hj]
          simp [slotsOff, hs₁, hmem.2]
        · simp [slotsOff, hs₁, hj]
      obtain ⟨clist, hrun, hthreads⟩ := ih (s := s₁) (n := n)
        (by rw [hloc]; exact ht.del hmem.1 hmem.2)
        (by rw [hloc, DTable.listOf_update_none ht.nodup, hl, erase_cons_head])
        (Nat.le_of_succ_le_succ hn) (fun j hj => by
          have hne : j ≠ i := fun hji => hj (hji ▸ hmem.1)
          rw [congrFun hloc j, update_of_ne hne]
          exact hfresh j hj)
      rw [head?_cons, offHistoryLoop, hnext]
      refine ⟨clist, hrun.trans ?_, ?_⟩
      · rw [hoff]
      · rwa [hoff] at hthreads

@[simp] theorem slotsOff_hashv (slots : Nat → WhowasEntry) (c : Cid) (i : Nat) :
    (slotsOff slots c i).hashv = (slots i).hashv := by
  unfold slotsOff
  split <;> rfl

theorem length_logOff (log : List WhowasEntry) (c : Cid) : (logOff log c).length = log.length :=
  length_map _

theorem mem_logOff {e : WhowasEntry} (he : e ∈ logOff log c) :
    ∃ e' ∈ log, e.hashv = e'.hashv ∧ e.name = e'.name ∧
      ∀ d, e.online = some d → d ≠ c ∧ e'.online = some d := by
  obtain ⟨e', he', rfl⟩ := List.mem_map.mp he
  refine ⟨e', he', ?_⟩
  split
  · exact ⟨rfl, rfl, fun d hd => by cases hd⟩
  · next hne =>
      exact ⟨rfl, rfl, fun d hd => ⟨fun hdc => hne (hdc ▸ hd), hd⟩⟩

theorem Inv.offHistory (h : Inv sizes s log) (c : Cid) :
    (∃ clist, s.offHistory sizes c = { s with slots := slotsOff s.slots c, clist := clist }) ∧
      Inv sizes (s.offHistory sizes c) (logOff log c) := by
  have hlength : (listOf (order sizes log) (fun i => (s.slots i).online) c).length ≤
      sizes.NICKNAMEHISTORYLENGTH := by
    refine (length_filter_le _ _).trans ?_
    rw [Ring.length_order]
    exact Nat.min_le_right _ _
  obtain ⟨clist, hrun, hthreads⟩ := offHistoryLoop_eq (c := c) h.lists rfl hlength
    fun i hi => (h.fresh i hi).2
  have heq : s.offHistory sizes c = { s with slots := slotsOff s.slots c, clist := clist } := by
    rw [← hrun, WhowasState.offHistory, h.lists.head]
  have horder : order sizes (logOff log c) = order sizes log := by
    rw [order, length_logOff]
  refine ⟨⟨clist, heq⟩, ?_⟩
  rw [heq]
  constructor
  · rw [length_logOff]
    exact h.next
  · rw [horder, logOff, ← map_take, ← h.newest, map_map]
    rfl
  · intro i hi
    rw [horder] at hi
    obtain ⟨hhashv, honline⟩ := h.fresh i hi
    have hslot : slotsOff s.slots c i = s.slots i := if_neg (by rw [honline]; simp)
    change (slotsOff s.slots c i).hashv = none ∧ (slotsOff s.slots c i).online = none
    rw [hslot]
    exact ⟨hhashv, honline⟩
  · intro e he
    obtain ⟨e', he', hhashv, hname, -⟩ := mem_logOff he
    rw [hhashv, hname]
    exact h.hashed e' he'
  · rw [horder]
    exact h.chains.congr fun i _ => slotsOff_hashv s.slots c i
  · rw [horder]
    exact hthreads
  · intro e he d hd
    obtain ⟨e', he', -, -, honline⟩ := mem_logOff he
    exact h.users e' he' d (honline d hd).2
  · exact h.names

/-! ### The other calls -/

theorem Inv.update (h : Inv sizes s log) {x : HistoryClient}
    (hx : (∀ y, s.clients c = some y → y.status = .client → x.status = .client) ∧
      (x.status = .client → x.name.length < sizes.NICKLEN)) :
    Inv sizes { s with clients := Function.update s.clients c (some x) } log where
  next := h.next
  newest := h.newest
  fresh := h.fresh
  hashed := h.hashed
  chains := h.chains
  lists := h.lists
  users e he d hd := by
    obtain ⟨y, hy, huser⟩ := h.users e he d hd
    by_cases hdc : d = c
    · subst hdc
      exact ⟨x, update_self _ _ _, hx.1 y hy huser⟩
    · exact ⟨y, (update_of_ne hdc _ _).trans hy, huser⟩
  names d y hy huser := by
    by_cases hdc : d = c
    · subst hdc
      obtain rfl : x = y := by simpa using hy
      exact hx.2 huser
    · exact h.names d y ((update_of_ne hdc _ _).symm.trans hy) huser

theorem Inv.free (h : Inv sizes s log) (hc : ∀ e ∈ log, e.online ≠ some c) :
    Inv sizes { s with clients := Function.update s.clients c none } log where
  next := h.next
  newest := h.newest
  fresh := h.fresh
  hashed := h.hashed
  chains := h.chains
  lists := h.lists
  users e he d hd := by
    have hdc : d ≠ c := fun hdc => hc e he (hdc ▸ hd)
    obtain ⟨y, hy, huser⟩ := h.users e he d hd
    exact ⟨y, (update_of_ne hdc _ _).trans hy, huser⟩
  names d y hy huser := by
    by_cases hdc : d = c
    · subst hdc
      simp at hy
    · exact h.names d y ((update_of_ne hdc _ _).symm.trans hy) huser

theorem Inv.exitOneClient (h : Inv sizes s log) (c : Cid) :
    Inv sizes (s.exitOneClient sizes c) (logStep sizes s log (.exitOneClient c)) := by
  rw [WhowasState.exitOneClient, logStep]
  cases hx : s.clients c with
  | none =>
    dsimp only
    refine h.free fun e he hc => ?_
    obtain ⟨x, hx', -⟩ := h.users e he c hc
    rw [hx] at hx'
    cases hx'
  | some x =>
    dsimp only
    by_cases huser : x.status = .client
    · rw [if_pos huser, if_pos huser]
      have hoff := ((h.addHistory ⟨x, hx, huser⟩ false).offHistory c).2
      refine hoff.free fun e he hc => ?_
      obtain ⟨e', -, -, -, honline⟩ := mem_logOff he
      exact (honline c hc).1 rfl
    · rw [if_neg huser, if_neg huser]
      refine h.free fun e he hc => ?_
      obtain ⟨y, hy, huser'⟩ := h.users e he c hc
      rw [hx] at hy
      exact huser (Option.some.inj hy ▸ huser')

theorem Inv.makeClient (h : Inv sizes s log) (hc : s.clients c = none) :
    Inv sizes (s.step sizes (.makeClient c)) log := by
  have hnone : ∀ e ∈ log, e.online ≠ some c := by
    intro e he honline
    obtain ⟨x, hx, -⟩ := h.users e he c honline
    rw [hc] at hx
    cases hx
  have hempty : s.clist.head c = none := by
    rw [h.lists.head, head?_eq_none_iff, eq_nil_iff_forall_not_mem]
    intro i hi
    obtain ⟨hmem, honline⟩ := DTable.mem_listOf.mp hi
    exact hnone _ (h.slot_mem hmem) honline
  have hhead : Function.update s.clist.head c none = s.clist.head := by
    rw [← hempty, update_eq_self]
  rw [WhowasState.step, hhead]
  refine h.update ⟨fun y hy _ => ?_, fun huser => ?_⟩
  · rw [hc] at hy
    cases hy
  · cases huser

theorem Inv.step (h : Inv sizes s log) {op : WhowasOp} (hop : s.Admissible sizes op) :
    Inv sizes (s.step sizes op) (logStep sizes s log op) := by
  cases op with
  | makeClient c => exact h.makeClient hop
  | update c x =>
    obtain ⟨⟨y, hy, hkeep⟩, hname⟩ := hop
    refine h.update ⟨fun z hz => ?_, hname⟩
    rw [hy] at hz
    exact Option.some.inj hz ▸ hkeep
  | addHistory c online => exact h.addHistory hop online
  | offHistory c => exact (h.offHistory c).2
  | exitOneClient c => exact h.exitOneClient c
  | setTime now =>
    exact ⟨h.next, h.newest, h.fresh, h.hashed, h.chains, h.lists, h.users, h.names⟩

/-! ### Lookups -/

theorem getHistoryLoop_eq (nick : CStr) (timelimit : Int) {p q : Option Nat} {l : List Nat}
    (hseg : DList.Seg s.hash.nodes p l q) (hq : q = none) (hn : l.length ≤ n) :
    s.getHistoryLoop nick timelimit n l.head? =
      some ((l.find? fun i => ircEq nick (s.slots i).name &&
        decide (timelimit ≤ (s.slots i).logoff)).bind fun i => (s.slots i).online) := by
  induction l generalizing p n with
  | nil => cases n <;> rfl
  | cons i l ih =>
    obtain ⟨hi, hl⟩ := hseg
    cases n with
    | zero => cases hn
    | succ n =>
      have hnext : (s.hash.nodes i).next = l.head? := by
        rw [hi, hq, Option.or_none]
      have hrest := ih hl (Nat.le_of_succ_le_succ hn)
      rw [head?_cons, getHistoryLoop, hnext, hrest, find?_cons]
      by_cases hname : ircEq nick (s.slots i).name = true
      · by_cases hold : (s.slots i).logoff < timelimit
        · simp [hname, hold, Int.not_le.mpr hold]
        · simp [hname, hold, Int.not_lt.mp hold]
      · simp [hname]

theorem Inv.getHistory (h : Inv sizes s log) {fuel : Nat}
    (hfuel : sizes.NICKNAMEHISTORYLENGTH ≤ fuel) (nick : CStr) (window : Int) :
    s.getHistory fuel nick window =
      some (newestClient sizes log nick (s.currentTime - window)) := by
  set k := strhash s.ircdRandomKey nick with hk
  set young : WhowasEntry → Bool := fun e =>
    ircEq nick e.name && decide (s.currentTime - window ≤ e.logoff) with hyoung
  have hlength : (listOf (order sizes log) (fun i => (s.slots i).hashv) k).length ≤ fuel := by
    refine ((length_filter_le _ _).trans ?_).trans hfuel
    rw [Ring.length_order]
    exact Nat.min_le_right _ _
  have hloop := getHistoryLoop_eq nick (s.currentTime - window) (h.chains.seg k) rfl hlength
  have hall : (order sizes log).find? (young ∘ s.slots) =
      (listOf (order sizes log) (fun i => (s.slots i).hashv) k).find? (young ∘ s.slots) := by
    rw [listOf, find?_filter]
    refine find?_congr fun i hi => ?_
    cases hi' : (young ∘ s.slots) i with
    | false => simp
    | true =>
      have hname := (Bool.and_eq_true_iff.mp hi').1
      rw [h.slot_hashv hi, ← strhash_eq_of_ircEq hname]
      simp [hk]
  rw [WhowasState.getHistory, ← hk, h.chains.head, hloop, newestClient, ← h.newest, find?_map,
    ← hyoung, hall, Option.bind_map]
  rfl

/-! ### Runs -/

theorem Inv.keepsHistory (h : Inv sizes s log) : KeepsHistory sizes s log := by
  have hlength : (order sizes log).length ≤ sizes.NICKNAMEHISTORYLENGTH := by
    rw [Ring.length_order]
    exact Nat.min_le_right _ _
  have hmem : ∀ i, i ∈ order sizes log ↔ i < sizes.NICKNAMEHISTORYLENGTH ∧ i < log.length :=
    fun i => Ring.mem_order sizes.historyLength_pos
  have hchain : ∀ k, s.chain sizes k = listOf (order sizes log) (fun i => (s.slots i).hashv) k :=
    fun k => h.chains.walk_eq hlength k
  have hlist : ∀ c, s.clientList sizes c =
      listOf (order sizes log) (fun i => (s.slots i).online) c :=
    fun c => h.lists.walk_eq hlength c
  obtain ⟨hash, clist, hdrop, hchains, hlists⟩ := h.dropOld
  have hlength' : ((order sizes log).erase s.whowasNext).length ≤ sizes.NICKNAMEHISTORYLENGTH :=
    (length_erase_le).trans hlength
  constructor
  · intro i hi
    rw [h.filled_iff, hmem, and_iff_right hi]
  · exact h.newest
  · intro i k
    rw [hchain, DTable.mem_listOf, hmem]
    refine and_congr_right fun hi => ?_
    rw [h.slot_hashv ((hmem i).mpr hi), Option.some_inj, eq_comm]
  · intro k
    rw [hchain]
    exact DTable.nodup_listOf h.chains.nodup _ k
  · intro i c
    rw [hlist, DTable.mem_listOf, hmem]
  · intro c
    rw [hlist]
    exact DTable.nodup_listOf h.lists.nodup _ c
  · intro i c honline
    have hi : i ∈ order sizes log := by
      by_contra hi
      rw [(h.fresh i hi).2] at honline
      cases honline
    obtain ⟨x, hx, -⟩ := h.users _ (h.slot_mem hi) c honline
    rw [hx]
    exact Option.some_ne_none x
  · intro fuel nick window hfuel
    exact h.getHistory hfuel nick window
  · intro k
    rw [hchain, hdrop, ← DTable.listOf_erase h.chains.nodup]
    exact hchains.walk_eq hlength' k
  · intro c
    rw [hlist, hdrop, ← DTable.listOf_erase h.lists.nodup]
    exact hlists.walk_eq hlength' c

end WhowasState

variable {sizes : WhowasSizes} in
/-- After any calls the history keeps the additions. -/
theorem whowas_consistent (key : Nat) (now : Int) {ops : List WhowasOp}
    (hops : Run.Guarded (historyStep sizes) (fun p op => p.1.Admissible sizes op)
      (WhowasState.init key now, []) ops) :
    KeepsHistory sizes
      (Run.exec (historyStep sizes) (WhowasState.init key now, []) ops).1
      (Run.exec (historyStep sizes) (WhowasState.init key now, []) ops).2 := by
  have hstep : ∀ (p : WhowasState × List WhowasEntry) (op : WhowasOp), p.1.Inv sizes p.2 →
      p.1.Admissible sizes op → (historyStep sizes p op).1.Inv sizes (historyStep sizes p op).2 :=
    fun p op hp hop => hp.step hop
  have hinv := Run.inv_exec hstep (WhowasState.inv_init sizes key now) hops
  exact hinv.keepsHistory

def twoSlots : WhowasSizes := ⟨2, 10, by decide⟩

def historyUser (nick : CStr) : HistoryClient :=
  ⟨.client, nick, "user".toList, "host".toList, "info".toList, some 0⟩

/-- A user changes its nick three times, so that its first slot is filled again, and exits. -/
def nickChanges : List WhowasOp :=
  [.makeClient 1, .update 1 (historyUser "a".toList), .addHistory 1 true,
    .update 1 (historyUser "b".toList), .addHistory 1 true,
    .update 1 (historyUser "c".toList), .addHistory 1 true,
    .update 1 (historyUser "d".toList), .exitOneClient 1]

theorem whowas_consistent_nickChanges :
    KeepsHistory twoSlots
      (Run.exec (historyStep twoSlots) (WhowasState.init 7 100, []) nickChanges).1
      (Run.exec (historyStep twoSlots) (WhowasState.init 7 100, []) nickChanges).2 := by
  apply whowas_consistent
  have hnew : ∀ nick : CStr, nick.length < 10 → ((historyUser nick).status = .client →
      (historyUser nick).name.length < twoSlots.NICKLEN) := fun nick hlen _ => hlen
  refine ⟨rfl, ⟨⟨_, rfl, fun _ => rfl⟩, hnew _ (by decide)⟩, ⟨_, rfl, rfl⟩,
    ⟨⟨_, rfl, fun _ => rfl⟩, hnew _ (by decide)⟩, ⟨_, rfl, rfl⟩,
    ⟨⟨_, rfl, fun _ => rfl⟩, hnew _ (by decide)⟩, ⟨_, rfl, rfl⟩,
    ⟨⟨_, rfl, fun _ => rfl⟩, hnew _ (by decide)⟩, ?_, trivial⟩
  exact Option.some_ne_none (historyUser "d".toList)

end Ircd
