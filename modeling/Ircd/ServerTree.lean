import Ircd.WorldMessages

/-!
The tree of servers.

Servers come in over three paths, a direct link, SERVER and SID, and each has its
own test for a server that is known already. The tree itself holds on every run
(`Sound.serverTree`). What can go wrong is the search for a server: SID looks for
the identifier as it was received and stores it cut to `IDLEN`, and `find_server`
takes a name of three characters that starts with a digit for an identifier
(`Unambiguous`).
-/

namespace Ircd

open Function List
open Buckets (Files)

variable {w v : World} {b c d s t : Cid} {x : Client} {cf : ServerConfig}

/-! ### Runs of links, introductions and exits -/

/-- What can happen to the servers of a network without users. -/
inductive ServerInput where
  | connect (sockhost : CStr)
  /-- A connection is accepted as a server. -/
  | link (client : Cid) (name id : CStr)
  | server (client : Cid) (sender : CStr) (params : List CStr)
  | sid (client : Cid) (sender : CStr) (params : List CStr)
  /-- SQUIT, or any other reason to exit. -/
  | exit (target : Cid)

/-- PASS brings an identifier only to a server that has one itself. -/
def ServerInput.op (self : Identity) : ServerInput → Op
  | .connect sockhost => .connect sockhost
  | .link client name id => .link client name (if self.id = [] then [] else id)
  | .server client sender params => .message client sender .server params
  | .sid client sender params => .message client sender .sid params
  | .exit target => .exit target

namespace World

/-- One step of a network without users. -/
def serverStep (cf : ServerConfig) (self : Identity) (w : World) (i : ServerInput) : World :=
  w.step cf (i.op self)

def uplink (w : World) (c : Cid) : Cid := (w.clients c).servptr

/-- The servers on the way to this one. -/
def hops (w : World) (c : Cid) (k : Nat) : List Cid := (List.range k).map fun i => w.uplink^[i] c

/-- The servers are a tree with names and identifiers of their own. -/
structure ServerTree (w : World) : Prop where
  listed : ∀ c ∈ w.globalServList, c ≠ me → ∀ s, c ∈ (w.serv s).servers ↔ s = w.uplink c
  path : ∀ c ∈ w.globalServList, ∃ k, w.uplink^[k] c = me ∧ (w.hops c k ++ [me]).Nodup ∧
    (∀ d ∈ w.hops c k, d ∈ w.globalServList ∧ (w.clients d).from = (w.clients c).from) ∧
    (c ≠ me → (w.hops c k).getLast? = some (w.clients c).from)
  names : ∀ c ∈ w.globalServList, ∀ d ∈ w.globalServList, c ≠ d →
    matchMask (w.clients c).name (w.clients d).name = false
  ids : ∀ c ∈ w.globalServList, ∀ d ∈ w.globalServList, c ≠ d → (w.clients c).id ≠ [] →
    (w.clients c).id ≠ (w.clients d).id
  byId : ∀ c ∈ w.globalServList, (w.clients c).id ≠ [] → w.hashFindId (w.clients c).id = some c
  byName : ∀ c ∈ w.globalServList, w.findServer (w.clients c).name = some c

/-- `find_server` takes the text for an identifier. -/
def looksLikeId (name : CStr) : Bool := startsWithDigit name && name.length == IRC_MAXSID

/-- A new server with this name and identifier is told from every known one. -/
structure Unambiguous (w : World) (name id : CStr) : Prop where
  untaken : id ≠ [] → w.hashFindId id = none
  nameAsId : looksLikeId name = true → ircEq name id = false → w.hashFindId name = none
  idAsName : looksLikeId id = true → w.findServerName id = none

/-- The name and identifier that `mr_server` stores for a link that it accepts. -/
def linked (w : World) (client : Cid) (name id : CStr) : Option (CStr × CStr) :=
  let x := w.clients client
  let id := strlcpy id (IDLEN + 1)
  if !(!x.isDefunct && x.myConnect && x.isUnknown && x.name.isEmpty && x.id.isEmpty) then none
  else if bogusHost name || decide (HOSTLEN < name.length) then none
  else if ((w.clients me).hasID && !id.isEmpty && (w.hashFindId id).isSome) ||
      (w.serverExists name).isSome then none
  else some (strlcpy name (HOSTLEN + 1), id)

/-- The name and identifier that `ms_server` and `ms_sid` store for a server that
passes their common tests. -/
def introduced (cf : ServerConfig) (w : World) (client : Cid) (name id info : CStr) :
    Option (CStr × CStr) :=
  if !name.contains '.' || decide (HOSTLEN < name.length) || info.isEmpty ||
      !itemCovers cf.hubItems (w.clients client).name name ||
      itemCovers cf.leafItems (w.clients client).name name then none
  else some (strlcpy name (HOSTLEN + 1), strlcpy id (IDLEN + 1))

/-- The name and identifier of the server that a line brings in. -/
def introducedBy (cf : ServerConfig) (w : World) (client source : Cid) (cmd : ServerCommand)
    (parv : List CStr) : Option (CStr × CStr) :=
  if parv.length < cmd.parameters || !(w.clients source).isServer ||
      (w.serverExists (param parv 1)).isSome then none
  else
    match cmd with
    | .server => w.introduced cf client (param parv 1) [] (param parv 3)
    | .sid =>
      if (w.hashFindId (param parv 3)).isSome then none
      else w.introduced cf client (param parv 1) (param parv 3) (param parv 4)
    | _ => none

/-- The name and identifier of the server that a step brings in. -/
def newServer (cf : ServerConfig) (w : World) : Op → Option (CStr × CStr)
  | .link client name id => w.linked client name id
  | .message client sender cmd params =>
    let x := w.clients client
    if x.isDefunct || !x.myConnect || !x.isServer then none
    else
      (w.lineSource client sender).bind fun source =>
        w.introducedBy cf client source cmd ((w.clients source).name :: params)
  | _ => none

end World

/-! ### The list of servers -/

/-- The list holds this server and the live ones, each told from the others, and
no other client has a name. -/
structure Enlisted (w : World) : Prop where
  mem : ∀ {c}, c ∈ w.globalServList ↔
    c = me ∨ (w.clients c).isDead = false ∧ (w.clients c).isServer = true
  nodup : w.globalServList.Nodup
  unnamed : ∀ c, (w.clients c).isDead = false → (w.clients c).isServer = false → c ≠ me →
    (w.clients c).name = [] ∧ (w.clients c).id = []
  named : (w.clients me).name ≠ []
  root : (w.clients me).servptr = me
  distinct : ∀ c ∈ w.globalServList, ∀ d ∈ w.globalServList, c ≠ d →
    matchMask (w.clients c).name (w.clients d).name = false
  ids : ∀ c ∈ w.globalServList, ∀ d ∈ w.globalServList, c ≠ d → (w.clients c).id ≠ [] →
    ircEq (w.clients c).id (w.clients d).id = false
  apart : ∀ c ∈ w.globalServList, ∀ d ∈ w.globalServList,
    World.looksLikeId (w.clients c).name = true → ircEq (w.clients c).name (w.clients d).id = true →
      c = d

theorem Enlisted.fewer (h : Enlisted w)
    (hrecord : ∀ d, d = me ∨ (v.clients d).isDead = false →
      (v.clients d).name = (w.clients d).name ∧ (v.clients d).id = (w.clients d).id ∧
        (v.clients d).servptr = (w.clients d).servptr ∧ (v.clients d).status = (w.clients d).status)
    (hdead : ∀ d, (w.clients d).isDead = true → (v.clients d).isDead = true)
    (hsub : v.globalServList.Sublist w.globalServList)
    (mem : ∀ {c}, c ∈ v.globalServList ↔
      c = me ∨ (v.clients c).isDead = false ∧ (v.clients c).isServer = true) : Enlisted v := by
  have hkept : ∀ d ∈ v.globalServList,
      (v.clients d).name = (w.clients d).name ∧ (v.clients d).id = (w.clients d).id := by
    intro d hd
    obtain ⟨hname, hid, _⟩ := hrecord d ((mem.mp hd).imp id And.left)
    exact ⟨hname, hid⟩
  obtain ⟨hname, -, hroot, -⟩ := hrecord me (.inl rfl)
  refine ⟨mem, h.nodup.sublist hsub, ?_, by rw [hname]; exact h.named, by rw [hroot]; exact h.root,
    ?_, ?_, ?_⟩
  · intro c hd hs hme
    obtain ⟨hname, hid, _, hstatus⟩ := hrecord c (.inr hd)
    rw [hname, hid]
    have hlive : (w.clients c).isDead = false := by
      by_contra hw
      simp [hdead c (Bool.not_eq_false _ ▸ hw)] at hd
    exact h.unnamed c hlive (by rw [← hs]; simp [Client.isServer, hstatus]) hme
  · intro c hc d hd hne
    rw [(hkept c hc).1, (hkept d hd).1]
    exact h.distinct c (hsub.subset hc) d (hsub.subset hd) hne
  · intro c hc d hd hne
    rw [(hkept c hc).2, (hkept d hd).2]
    exact h.ids c (hsub.subset hc) d (hsub.subset hd) hne
  · intro c hc d hd
    rw [(hkept c hc).1, (hkept d hd).2]
    exact h.apart c (hsub.subset hc) d (hsub.subset hd)

theorem globalServList_leaveServer (w : World) (c : Cid) :
    (w.leaveServer c).globalServList =
      if (w.clients c).isServer then w.globalServList.erase c else w.globalServList := by
  simp only [World.leaveServer, World.unlinkServer, World.unlinkUser]
  split_ifs <;> rfl

theorem globalServList_exitOneClient (w : World) (c : Cid) :
    (w.exitOneClient c).globalServList =
      if (w.clients c).isServer then w.globalServList.erase c else w.globalServList := by
  rw [← globalServList_leaveServer]
  simp only [World.exitOneClient, World.updateClientExitStats]
  split_ifs <;> rfl

theorem globalServList_closeLocal (w : World) (c : Cid) :
    (w.closeLocal c).globalServList = w.globalServList := by
  simp only [World.closeLocal]
  split_ifs <;> simp [World.onClient, World.onCount]

theorem Enlisted.exitOneClient (h : Enlisted w) (hw : Coherent w) : Enlisted
    (w.exitOneClient c) := by
  obtain ⟨hcl, _⟩ := exitOneClient_fields w c
  have hrecord : ∀ d, ∃ fl, (w.exitOneClient c).clients d = { w.clients d with flags := fl } := by
    intro d
    by_cases hd : d = c
    · exact ⟨_, by rw [hcl, hd, update_self]; rfl⟩
    · exact ⟨(w.clients d).flags, by rw [hcl, update_of_ne hd]⟩
  have hstatus : ∀ d, ((w.exitOneClient c).clients d).isServer = (w.clients d).isServer := by
    intro d
    obtain ⟨fl, hd⟩ := hrecord d
    rw [hd]
    rfl
  have hself : ((w.exitOneClient c).clients c).isDead = true := by
    rw [hcl, update_self]
    exact Client.isDead_setDead
  have hne : ∀ d, d ≠ c → (w.exitOneClient c).clients d = w.clients d := by
    intro d hd
    rw [hcl, update_of_ne hd]
  refine h.fewer (fun d _ => ?_) (fun d hd => ?_) ?_ fun {d} => ?_
  · obtain ⟨fl, hd⟩ := hrecord d
    rw [hd]
    exact ⟨rfl, rfl, rfl, rfl⟩
  · by_cases hdc : d = c
    · rw [hdc]
      exact hself
    · rwa [hne d hdc]
  · rw [globalServList_exitOneClient]
    split_ifs
    · exact erase_sublist
    · exact List.Sublist.refl _
  · rw [globalServList_exitOneClient]
    cases hs : (w.clients c).isServer with
    | true =>
      have hcm : c ≠ me := hw.not_me hs
      rw [if_pos rfl, h.nodup.mem_erase_iff, h.mem]
      by_cases hdc : d = c
      · subst hdc
        simp [hself, hcm]
      · simp [hdc, hne d hdc]
    | false =>
      rw [if_neg (by simp), h.mem]
      by_cases hdc : d = c
      · subst hdc
        simp [hself, hs]
      · rw [hne d hdc]

theorem Enlisted.closeLocal (h : Enlisted w) : Enlisted (w.closeLocal c) := by
  obtain ⟨hcl, _⟩ := closeLocal_fields w c
  have hrecord : ∀ d, ((w.closeLocal c).clients d).SamePlace (w.clients d) := by
    intro d
    by_cases hd : d = c
    · rw [hcl, hd, update_self]
      exact Client.samePlace_setFlag (by decide)
    · rw [hcl, update_of_ne hd]
      exact ⟨rfl, rfl, rfl, rfl, rfl, rfl, rfl⟩
  refine h.fewer (fun d _ => ⟨(hrecord d).name, (hrecord d).id, (hrecord d).servptr,
    (hrecord d).status⟩) (fun d hd => (hrecord d).dead.trans hd) ?_ fun {d} => ?_
  · rw [globalServList_closeLocal]
  · rw [globalServList_closeLocal, h.mem, (hrecord d).dead, (hrecord d).isServer]

theorem steady_enlisted : Steady Enlisted where
  exit hw h _ _ _ := h.exitOneClient hw
  exitLocal hw h _ _ _ := h.closeLocal.exitOneClient hw.closeLocal
  close _ h _ _ := h.closeLocal
  check _ h _ _ _ _ := ⟨h.mem, h.nodup, h.unnamed, h.named, h.root, h.distinct, h.ids, h.apart⟩

theorem Coherent.exitClient_me (h : Coherent w) (hroot : (w.clients me).servptr = me)
    (hc : (w.clients c).isDead = false) (hme : c ≠ me) :
    (w.exitClient c).clients me = w.clients me := by
  have hpos : me < c := Nat.pos_of_ne_zero hme
  have hone : ∀ u : World, (u.exitOneClient c).clients me = u.clients me := fun u => by
    rw [(exitOneClient_fields u c).1, update_of_ne hme.symm]
  have hclose : (w.closeLocal c).clients me = w.clients me := by
    rw [(closeLocal_fields w c).1, update_of_ne hme.symm]
  have hsame : ((w.closeLocal c).clients c).SamePlace (w.clients c) := by
    rw [(closeLocal_fields w c).1, update_self]
    exact Client.samePlace_setFlag (by decide)
  have hfuel : ∀ n : Nat, n < n + 1 + c := fun n =>
    Nat.lt_of_lt_of_le (Nat.lt_succ_self n) (Nat.le_add_right _ _)
  rcases World.exitClient_cases w c with heq | ⟨_, heq⟩ | ⟨_, heq⟩ <;> rw [heq]
  · rw [hone]
    split_ifs with hs
    · obtain ⟨_, _, hsh, _⟩ := h.closeLocal.recurseRemoveClients steady_true
        ((w.closeLocal c).next + 1) trivial (hsame.dead.trans hc) (hsame.isServer.trans hs)
          (hfuel _)
      rw [hsh.kept me (by rw [hclose, hroot]; exact hpos), hclose]
    · exact hclose
  · rw [hone]
    split_ifs with hs
    · obtain ⟨_, _, hsh, _⟩ := h.recurseRemoveClients steady_true (w.next + 1) trivial hc hs
          (hfuel _)
      exact hsh.kept me (by rw [hroot]; exact hpos)
    · rfl

/-- What every run keeps. -/
structure Sound (w : World) : Prop where
  coherent : Coherent w
  enlisted : Enlisted w
  live : (w.clients me).isDead = false

theorem Sound.exitClient (h : Sound w) (hc : (w.clients c).isDead = false) (hme : c ≠ me) :
    Sound (w.exitClient c) := by
  obtain ⟨hcoherent, henlisted⟩ := h.coherent.exitClient steady_enlisted h.enlisted hc
  refine ⟨hcoherent, henlisted, ?_⟩
  rw [h.coherent.exitClient_me h.enlisted.root hc hme]
  exact h.live

theorem Sound.ne_me_of_server (h : Sound w) (hc : (w.clients c).isServer = true) : c ≠ me :=
  h.coherent.not_me hc

/-! ### The searches find the servers -/

theorem matchMask_of_ircEq {m n : CStr} (h : ircEq m n = true) : matchMask m n = true := by
  rw [matchMask_iff]
  have hlower := map_toLower_of_ircEq h
  clear h
  induction m generalizing n with
  | nil =>
    rw [map_nil, eq_comm, map_eq_nil_iff] at hlower
    rw [hlower]
    exact .nil
  | cons a m ih =>
    cases n with
    | nil => simp at hlower
    | cons b n =>
      rw [map_cons, map_cons, List.cons.injEq] at hlower
      have hrest := ih hlower.2
      by_cases hstar : a = '*'
      · subst hstar
        exact .star [b] isStar_star hrest
      · refine .one (isStar_eq_false hstar) ?_ hrest
        simp [ircMask, maskCharOk, hlower.1]

theorem Enlisted.of_name (h : Enlisted w) (hc : (w.clients c).isDead = false)
    (hname : (w.clients c).name ≠ []) : c ∈ w.globalServList := by
  rw [h.mem]
  by_contra hnot
  rw [not_or, not_and, Bool.not_eq_true] at hnot
  exact hname (h.unnamed c hc (hnot.2 hc) hnot.1).1

theorem Enlisted.of_id (h : Enlisted w) (hc : (w.clients c).isDead = false)
    (hid : (w.clients c).id ≠ []) : c ∈ w.globalServList := by
  rw [h.mem]
  by_contra hnot
  rw [not_or, not_and, Bool.not_eq_true] at hnot
  exact hid (h.unnamed c hc (hnot.2 hc) hnot.1).2

theorem ne_nil_of_ircEq {m n : CStr} (h : ircEq m n = true) (hm : m ≠ []) : n ≠ [] := by
  rintro rfl
  have := congrArg List.length (ircEq_iff.mp h)
  exact hm (by simpa using this)

theorem Sound.live_of_mem (h : Sound w) (hc : c ∈ w.globalServList) : (w.clients c).isDead =
    false := by
  rcases h.enlisted.mem.mp hc with rfl | hc
  · exact h.live
  · exact hc.1

theorem Sound.named_of_mem (h : Sound w) (hc : c ∈ w.globalServList) : (w.clients c).name ≠ [] := by
  rcases h.enlisted.mem.mp hc with rfl | hc
  · exact h.enlisted.named
  · intro hname
    have := (h.coherent.fits c).dotted hc.1 hc.2
    simp [hname] at this

theorem Sound.mem_of_hashFindId (h : Sound w) {id : CStr} (hid : id ≠ [])
    (hfind : w.hashFindId id = some c) : c ∈ w.globalServList ∧
      ircEq id (w.clients c).id = true := by
  obtain ⟨hlive, heq⟩ := h.coherent.hashFindId_some hfind
  exact ⟨h.enlisted.of_id hlive (ne_nil_of_ircEq heq hid), heq⟩

theorem Sound.hashFindId_id (h : Sound w) (hc : c ∈ w.globalServList) (hid : (w.clients c).id ≠ [])
    :
    w.hashFindId (w.clients c).id = some c := by
  have hmem : c ∈ w.idTable (strhash w.ircdRandomKey (w.clients c).id) :=
    h.coherent.ids.mem.mpr (Client.idBucket_eq_some_iff.mpr ⟨h.live_of_mem hc, hid, rfl⟩)
  cases hfind : w.hashFindId (w.clients c).id with
  | none =>
    have := List.find?_eq_none.mp hfind c hmem
    exact absurd (ircEq_refl _) this
  | some d =>
    obtain ⟨hd, heq⟩ := h.mem_of_hashFindId hid hfind
    by_contra hne
    have hne : c ≠ d := fun e => hne (congrArg some e.symm)
    simp [h.enlisted.ids c hc d hd hne hid] at heq

theorem Sound.findServerName_some (h : Sound w) {name : CStr} (hne : name ≠ [])
    (hfind : w.findServerName name = some c) :
    c ∈ w.globalServList ∧ ircEq name (w.clients c).name = true := by
  have hlive := h.coherent.findServerName_some hfind
  have heq := find?_some hfind
  simp only [Bool.and_eq_true] at heq
  exact ⟨h.enlisted.of_name hlive (ne_nil_of_ircEq heq.2 hne), heq.2⟩

theorem Sound.findServerName_name (h : Sound w) (hc : c ∈ w.globalServList) :
    w.findServerName (w.clients c).name = some c := by
  have hmem : c ∈ w.clientTable (strhash w.ircdRandomKey (w.clients c).name) :=
    h.coherent.names.mem.mpr
      (Client.nameBucket_eq_some_iff.mpr ⟨h.live_of_mem hc, h.named_of_mem hc, rfl⟩)
  cases hfind : w.findServerName (w.clients c).name with
  | none =>
    have := List.find?_eq_none.mp hfind c hmem
    have hkind : (w.clients c).isServer || (w.clients c).isMe := by
      rcases h.enlisted.mem.mp hc with rfl | hc
      · simp [Client.isMe, ((h.coherent.fits me).self rfl).1]
      · simp [hc.2]
    simp [hkind, ircEq_refl] at this
  | some d =>
    obtain ⟨hd, heq⟩ := h.findServerName_some (h.named_of_mem hc) hfind
    by_contra hne
    have hne : c ≠ d := fun e => hne (congrArg some e.symm)
    have hmatch := matchMask_of_ircEq heq
    rw [h.enlisted.distinct c hc d hd hne] at hmatch
    cases hmatch

theorem Sound.findServer_name (h : Sound w) (hc : c ∈ w.globalServList) :
    w.findServer (w.clients c).name = some c := by
  have hname := h.findServerName_name hc
  cases hlook : World.looksLikeId (w.clients c).name with
  | false =>
    simp only [World.findServer]
    rw [World.looksLikeId] at hlook
    simp [hlook, hname]
  | true =>
    have hfind : w.hashFindId (w.clients c).name = none ∨
        w.hashFindId (w.clients c).name = some c := by
      cases hfind : w.hashFindId (w.clients c).name with
      | none => exact .inl rfl
      | some d =>
        obtain ⟨hd, heq⟩ := h.mem_of_hashFindId (h.named_of_mem hc) hfind
        exact .inr (congrArg some (h.enlisted.apart c hc d hd hlook heq).symm)
    simp only [World.findServer]
    rw [World.looksLikeId] at hlook
    rcases hfind with hfind | hfind
    · simp [hlook, hfind, hname]
    · simp [hlook, hfind]

/-! ### The tree -/

theorem World.hops_succ (w : World) (c : Cid) (k : Nat) :
    w.hops c (k + 1) = c :: w.hops (w.uplink c) k := by
  simp only [World.hops, range_succ_eq_map, map_cons, map_map]
  rfl

theorem Sound.path (h : Sound w) (c : Cid) (hc : c ∈ w.globalServList) :
    ∃ k, w.uplink^[k] c = me ∧ (w.hops c k ++ [me]).Nodup ∧
      (∀ d ∈ w.hops c k, d ≤ c ∧ d ∈ w.globalServList ∧ (w.clients d).from = (w.clients c).from) ∧
      (c ≠ me → (w.hops c k).getLast? = some (w.clients c).from) := by
  induction c using Nat.strongRecOn with
  | _ c ih =>
    rcases h.enlisted.mem.mp hc with rfl | ⟨hlive, hserver⟩
    · exact ⟨0, rfl, by simp [World.hops], by simp [World.hops], fun hme => absurd rfl hme⟩
    · have hreg : (w.clients c).isRegistered = true := by simp [Client.isRegistered, hserver]
      have hfits := h.coherent.fits c
      have hcme := h.ne_me_of_server hserver
      obtain ⟨hlt, hup⟩ := hfits.uplink hlive hreg
      by_cases hdirect : w.uplink c = me
      · have hconn : (w.clients c).myConnect = true := by
          by_contra hconn
          exact (hfits.behind hlive hreg (Bool.not_eq_true _ ▸ hconn)).1 hdirect
        refine ⟨1, hdirect, ?_, ?_, fun _ => ?_⟩
        · simpa [World.hops] using hcme
        · intro d hd
          obtain rfl : d = c := by simpa [World.hops] using hd
          exact ⟨Nat.le_refl _, hc, rfl⟩
        · simp [World.hops, hfits.direct hlive hconn]
      · have hconn : (w.clients c).myConnect = false := by
          by_contra hconn
          exact hdirect (hfits.localUplink hlive hreg (Bool.not_eq_false _ ▸ hconn))
        have hfrom : (w.clients (w.uplink c)).from = (w.clients c).from :=
          (hfits.behind hlive hreg hconn).2
        have hmem : w.uplink c ∈ w.globalServList := h.enlisted.mem.mpr hup
        obtain ⟨k, hend, hnodup, hon, hlast⟩ := ih (w.uplink c) hlt hmem
        have hhops := w.hops_succ c k
        refine ⟨k + 1, hend, ?_, ?_, fun _ => ?_⟩
        · rw [hhops, cons_append, nodup_cons]
          refine ⟨fun hin => ?_, hnodup⟩
          rcases List.mem_append.mp hin with hin | hin
          · exact Nat.not_le_of_lt hlt (hon c hin).1
          · exact hcme (List.mem_singleton.mp hin)
        · intro d hd
          rw [hhops] at hd
          rcases List.mem_cons.mp hd with rfl | hd
          · exact ⟨Nat.le_refl _, hc, rfl⟩
          · obtain ⟨hle, hin, hdir⟩ := hon d hd
            exact ⟨Nat.le_of_lt (Nat.lt_of_le_of_lt hle hlt), hin, hdir.trans hfrom⟩
        · have hlast := hlast hdirect
          rw [hhops, getLast?_cons, hlast, hfrom]
          rfl

theorem Sound.serverTree (h : Sound w) : w.ServerTree where
  listed c hc hme s := by
    rcases h.enlisted.mem.mp hc with hself | ⟨hlive, hserver⟩
    · exact absurd hself hme
    · rw [h.coherent.servers.mem, Client.serverOf_eq_some_iff]
      constructor
      · rintro ⟨_, _, hup⟩
        exact hup.symm
      · intro hup
        exact ⟨hlive, hserver, hup.symm⟩
  path c hc := by
    obtain ⟨k, hend, hnodup, hon, hlast⟩ := h.path c hc
    exact ⟨k, hend, hnodup, fun d hd => (hon d hd).2, hlast⟩
  names := h.enlisted.distinct
  ids c hc d hd hne hid heq := by
    have := h.enlisted.ids c hc d hd hne hid
    rw [heq, ircEq_refl] at this
    cases this
  byId c hc hid := h.hashFindId_id hc hid
  byName c hc := h.findServer_name hc

/-! ### A server comes in -/

/-- `v` is `w` with the new server `c`, whose record is `x`. -/
structure Added (c : Cid) (x : Client) (w v : World) : Prop where
  clients : v.clients = update w.clients c x
  key : v.ircdRandomKey = w.ircdRandomKey
  table : v.clientTable = Buckets.add w.clientTable (strhash w.ircdRandomKey x.name) c
  idTable : v.idTable =
    if x.id = [] then w.idTable else Buckets.add w.idTable (strhash w.ircdRandomKey x.id) c
  list : v.globalServList = c :: w.globalServList
  dead : x.isDead = false
  server : x.isServer = true
  dotted : x.name ≠ []
  unlisted : c ∉ w.globalServList
  distinct : ∀ d ∈ w.globalServList, matchMask x.name (w.clients d).name = false ∧
    matchMask (w.clients d).name x.name = false

section Added

variable {name id : CStr}

theorem Added.self (h : Added c x w v) : v.clients c = x := by
  rw [h.clients, update_self]

theorem Added.of_ne (h : Added c x w v) (hd : d ≠ c) : v.clients d = w.clients d := by
  rw [h.clients, update_of_ne hd]

theorem find_added {tbl tbl' : Nat → List Cid} {loc : Cid → Option Nat} (ht : Files tbl loc)
    (hloc : loc c = none) {k k' : Nat} (hadd : tbl' = Buckets.add tbl k' c) {p q : Cid → Bool}
    (hpq : ∀ d, d ≠ c → q d = p d) (hk : q c = true → k = k') :
    (tbl' k).find? q = if q c then some c else (tbl k).find? p := by
  cases hq : q c with
  | true =>
    rw [hadd, hk hq]
    simp [Buckets.add, hq]
  | false =>
    rw [if_neg (by simp)]
    exact find_newcomer ht hloc (.inr ⟨k', hadd⟩) hpq hq k

theorem Sound.not_filed (hw : Sound w) (h : Added c x w v) :
    (w.clients c).nameBucket w.ircdRandomKey = none ∧
      (w.clients c).idBucket w.ircdRandomKey = none := by
  constructor
  · by_contra hb
    obtain ⟨k, hk⟩ := Option.ne_none_iff_exists'.mp hb
    obtain ⟨hlive, hname, _⟩ := Client.nameBucket_eq_some_iff.mp hk
    exact h.unlisted (hw.enlisted.of_name hlive hname)
  · by_contra hb
    obtain ⟨k, hk⟩ := Option.ne_none_iff_exists'.mp hb
    obtain ⟨hlive, hid, _⟩ := Client.idBucket_eq_some_iff.mp hk
    exact h.unlisted (hw.enlisted.of_id hlive hid)

theorem Sound.hashFindId_added (hw : Sound w) (h : Added c x w v) (id : CStr) :
    v.hashFindId id = if x.id ≠ [] ∧ ircEq id x.id = true then some c else w.hashFindId id := by
  by_cases hid : x.id = []
  · have hsame : v.hashFindId id = w.hashFindId id := by
      simp only [World.hashFindId, h.key, h.idTable, hid, if_true]
      refine find?_congr fun d hd => ?_
      rw [h.of_ne]
      rintro rfl
      have := hw.coherent.ids.mem.mp hd
      simp [(hw.not_filed h).2] at this
    rw [hsame, if_neg fun hc => hc.1 hid]
  · have hadd := h.idTable
    rw [if_neg hid] at hadd
    have := find_added (k := strhash w.ircdRandomKey id) (p := fun d => ircEq id (w.clients d).id)
      (q := fun d => ircEq id (v.clients d).id) hw.coherent.ids (hw.not_filed h).2 hadd
      (fun d hd => by rw [h.of_ne hd]) fun hq => strhash_eq_of_ircEq (by rwa [h.self] at hq)
    simp only [World.hashFindId, h.key]
    rw [this, h.self]
    simp [hid]

theorem Sound.hashFindId_none (h : Sound w) (hfind : w.hashFindId id = none)
    (hd : d ∈ w.globalServList) (hid : id ≠ []) : ircEq id (w.clients d).id = false := by
  by_contra heq
  rw [Bool.not_eq_false] at heq
  have hmem : d ∈ w.idTable (strhash w.ircdRandomKey id) :=
    h.coherent.ids.mem.mpr (Client.idBucket_eq_some_iff.mpr
      ⟨h.live_of_mem hd, ne_nil_of_ircEq heq hid, (strhash_eq_of_ircEq heq).symm⟩)
  exact List.find?_eq_none.mp hfind d hmem heq

theorem Sound.findServerName_none (h : Sound w) (hfind : w.findServerName name = none)
    (hd : d ∈ w.globalServList) : ircEq name (w.clients d).name = false := by
  by_contra heq
  rw [Bool.not_eq_false] at heq
  have hmem : d ∈ w.clientTable (strhash w.ircdRandomKey name) :=
    h.coherent.names.mem.mpr (Client.nameBucket_eq_some_iff.mpr
      ⟨h.live_of_mem hd, h.named_of_mem hd, (strhash_eq_of_ircEq heq).symm⟩)
  have hnot := List.find?_eq_none.mp hfind d hmem
  have hkind : (w.clients d).isServer || (w.clients d).isMe := by
    rcases h.enlisted.mem.mp hd with rfl | hd
    · simp [Client.isMe, ((h.coherent.fits me).self rfl).1]
    · simp [hd.2]
  simp [hkind, heq] at hnot

theorem isDigit_of_toUpper {a b : Char} (h : toUpper a = toUpper b) (ha : isDigit a = true) :
    isDigit b = true := by
  have hlt : a.toNat < 0x41 := by
    simp only [isDigit, Bool.and_eq_true, decide_eq_true_eq] at ha
    exact Nat.lt_of_le_of_lt (show a.toNat ≤ '9'.toNat from ha.2) (by decide)
  have hself : toUpper a = a := (toUpper_eq_iff hlt).mpr rfl
  rw [hself] at h
  rwa [(toUpper_eq_iff hlt).mp h.symm]

theorem World.looksLikeId_of_ircEq {m n : CStr} (h : ircEq m n = true)
    (hm : World.looksLikeId m = true) : World.looksLikeId n = true := by
  have hupper := ircEq_iff.mp h
  have hlen : m.length = n.length := by simpa using congrArg List.length hupper
  simp only [World.looksLikeId, Bool.and_eq_true, startsWithDigit] at hm ⊢
  refine ⟨?_, hlen ▸ hm.2⟩
  cases m with
  | nil => simp at hm
  | cons a m =>
    cases n with
    | nil => simp at hlen
    | cons b n =>
      rw [map_cons, map_cons, List.cons.injEq] at hupper
      exact isDigit_of_toUpper hupper.1 hm.1

theorem Sound.me_mem (h : Sound w) : me ∈ w.globalServList := h.enlisted.mem.mpr (.inl rfl)

theorem Sound.ne_me_of_added (hw : Sound w) (h : Added c x w v) : c ≠ me := by
  rintro rfl
  exact h.unlisted hw.me_mem

theorem Added.ne_of_mem (h : Added c x w v) (hd : d ∈ w.globalServList) : d ≠ c := by
  rintro rfl
  exact h.unlisted hd

theorem Sound.added (hw : Sound w) (h : Added c x w v) (hv : Coherent v)
    (hu : World.Unambiguous w x.name x.id) : Sound v := by
  have hcme := hw.ne_me_of_added h
  have hself := h.self
  have hold : ∀ d ∈ w.globalServList, v.clients d = w.clients d :=
    fun d hd => h.of_ne (h.ne_of_mem hd)
  have hmem : ∀ d, d ∈ v.globalServList → d = c ∨ d ∈ w.globalServList := by
    intro d hd
    rwa [h.list, mem_cons] at hd
  have hme : v.clients me = w.clients me := h.of_ne hcme.symm
  refine ⟨hv, ?_, ?_⟩
  · constructor
    · intro d
      rw [h.list, mem_cons]
      by_cases hd : d = c
      · simp [hd, hself, h.dead, h.server]
      · rw [h.of_ne hd, hw.enlisted.mem]
        simp [hd]
    · rw [h.list, nodup_cons]
      exact ⟨h.unlisted, hw.enlisted.nodup⟩
    · intro d hlive hserver hne
      by_cases hd : d = c
      · rw [hd, hself, h.server] at hserver
        cases hserver
      · rw [h.of_ne hd] at hlive hserver ⊢
        exact hw.enlisted.unnamed d hlive hserver hne
    · rw [hme]
      exact hw.enlisted.named
    · rw [hme]
      exact hw.enlisted.root
    · intro d hd e he hne
      rcases hmem d hd with rfl | hd <;> rcases hmem e he with rfl | he
      · exact absurd rfl hne
      · rw [hself, hold e he]
        exact (h.distinct e he).1
      · rw [hself, hold d hd]
        exact (h.distinct d hd).2
      · rw [hold d hd, hold e he]
        exact hw.enlisted.distinct d hd e he hne
    · intro d hd e he hne hid
      rcases hmem d hd with rfl | hd <;> rcases hmem e he with rfl | he
      · exact absurd rfl hne
      · rw [hself] at hid ⊢
        rw [hold e he]
        exact hw.hashFindId_none (hu.untaken hid) he hid
      · rw [hold d hd] at hid ⊢
        rw [hself]
        by_contra heq
        have heq := ircEq_symm (Bool.not_eq_false _ ▸ heq)
        have hnone := hw.hashFindId_none (hu.untaken (ne_nil_of_ircEq (ircEq_symm heq) hid)) hd
          (ne_nil_of_ircEq (ircEq_symm heq) hid)
        rw [heq] at hnone
        cases hnone
      · rw [hold d hd] at hid ⊢
        rw [hold e he]
        exact hw.enlisted.ids d hd e he hne hid
    · intro d hd e he hlook heq
      rcases hmem d hd with rfl | hd <;> rcases hmem e he with rfl | he
      · rfl
      · -- the new name is the identifier of a known server
        rw [hself] at hlook heq
        rw [hold e he] at heq
        exfalso
        cases hsame : ircEq x.name x.id with
        | true =>
          have hid := ne_nil_of_ircEq hsame h.dotted
          have hnone := hw.hashFindId_none (hu.untaken hid) he hid
          rw [ircEq_trans (ircEq_symm hsame) heq] at hnone
          cases hnone
        | false =>
          have hnone := hw.hashFindId_none (hu.nameAsId hlook hsame) he h.dotted
          rw [heq] at hnone
          cases hnone
      · -- the new identifier is the name of a known server
        rw [hold d hd] at hlook heq
        rw [hself] at heq
        exfalso
        have hnone := hw.findServerName_none
          (hu.idAsName (World.looksLikeId_of_ircEq heq hlook)) hd
        rw [ircEq_symm heq] at hnone
        cases hnone
      · rw [hold d hd] at hlook heq
        rw [hold e he] at heq
        exact hw.enlisted.apart d hd e he hlook heq
  · rw [hme]
    exact hw.live

theorem World.findServer_of_id {name : CStr} (hlook : World.looksLikeId name = true)
    (hfind : w.hashFindId name = some d) : w.findServer name = some d := by
  simp only [World.findServer]
  rw [World.looksLikeId] at hlook
  simp [hlook, hfind]

theorem Sound.ambiguous (hw : Sound w) (h : Added c x w v)
    (hu : ¬World.Unambiguous w x.name x.id) : ¬v.ServerTree := by
  intro htree
  have hself := h.self
  have hc : c ∈ v.globalServList := by
    rw [h.list]
    exact mem_cons_self
  have hold : ∀ d ∈ w.globalServList, v.clients d = w.clients d ∧ d ∈ v.globalServList ∧ c ≠ d := by
    intro d hd
    refine ⟨h.of_ne (h.ne_of_mem hd), ?_, (h.ne_of_mem hd).symm⟩
    rw [h.list]
    exact mem_cons_of_mem _ hd
  refine hu ⟨fun hid => ?_, fun hlook hname => ?_, fun hlook => ?_⟩
  · by_contra htaken
    obtain ⟨d, hfind⟩ := Option.ne_none_iff_exists'.mp htaken
    obtain ⟨hd, heq⟩ := hw.mem_of_hashFindId hid hfind
    obtain ⟨hsame, hdv, hne⟩ := hold d hd
    have hsearch := htree.byId d hdv (by rw [hsame]; exact ne_nil_of_ircEq heq hid)
    rw [hsame, hw.hashFindId_added h, if_pos ⟨hid, ircEq_symm heq⟩] at hsearch
    exact hne (Option.some.inj hsearch)
  · by_contra htaken
    obtain ⟨d, hfind⟩ := Option.ne_none_iff_exists'.mp htaken
    obtain ⟨hd, -⟩ := hw.mem_of_hashFindId h.dotted hfind
    have hsearch := htree.byName c hc
    have hwrong : v.hashFindId x.name = some d := by
      rw [hw.hashFindId_added h, if_neg (by simp [hname]), hfind]
    rw [hself, World.findServer_of_id hlook hwrong] at hsearch
    exact (hold d hd).2.2 (Option.some.inj hsearch).symm
  · by_contra htaken
    obtain ⟨d, hfind⟩ := Option.ne_none_iff_exists'.mp htaken
    have hid : x.id ≠ [] := by
      intro hnil
      simp [hnil, World.looksLikeId, startsWithDigit] at hlook
    obtain ⟨hd, heq⟩ := hw.findServerName_some hid hfind
    obtain ⟨hsame, hdv, hne⟩ := hold d hd
    have hsearch := htree.byName d hdv
    have hwrong : v.hashFindId (w.clients d).name = some c := by
      rw [hw.hashFindId_added h, if_pos ⟨hid, ircEq_symm heq⟩]
    rw [hsame, World.findServer_of_id (World.looksLikeId_of_ircEq heq hlook) hwrong] at hsearch
    exact hne (Option.some.inj hsearch)

end Added

end Ircd
