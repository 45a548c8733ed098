import Ircd.WorldRun

/-!
The invariant of a server: the tables and lists hold the live clients, each
where it belongs, and every registered client hangs below this server.

`Coherent.put` is the one lemma about changes: a client record is replaced, and
the tables follow. What a step does to the tables is then a matter of the chains
alone (`Buckets.Files`).
-/

namespace Ircd

open Function
open Buckets

/-! ### What a client record says about its place -/

namespace Client

/-- `IsServer` or `IsClient`. -/
def isRegistered (x : Client) : Bool := x.isServer || x.isClient

/-- The chain of `clientTable` where a client stands. -/
def nameBucket (key : Nat) (x : Client) : Option Nat :=
  if x.isDead || x.name.isEmpty then none else some (strhash key x.name)

/-- The chain of `idTable` where a client stands. -/
def idBucket (key : Nat) (x : Client) : Option Nat :=
  if x.isDead || x.id.isEmpty then none else some (strhash key x.id)

/-- The server that lists the client among its users. -/
def userOf (x : Client) : Option Cid := if !x.isDead && x.isClient then some x.servptr else none

/-- The server that lists the client among its servers. -/
def serverOf (x : Client) : Option Cid := if !x.isDead && x.isServer then some x.servptr else none

theorem userOf_eq_some_iff {x : Client} {s : Cid} :
    x.userOf = some s ↔ x.isDead = false ∧ x.isClient = true ∧ x.servptr = s := by
  simp [userOf, and_assoc]

theorem serverOf_eq_some_iff {x : Client} {s : Cid} :
    x.serverOf = some s ↔ x.isDead = false ∧ x.isServer = true ∧ x.servptr = s := by
  simp [serverOf, and_assoc]

/-- Two records that agree on what decides the place of a client. -/
structure SamePlace (x y : Client) : Prop where
  dead : x.isDead = y.isDead
  status : x.status = y.status
  name : x.name = y.name
  id : x.id = y.id
  «from» : x.from = y.from
  servptr : x.servptr = y.servptr
  conn : x.myConnect = y.myConnect

variable {x y : Client}

theorem SamePlace.isServer (h : SamePlace x y) : x.isServer = y.isServer := by
  simp [Client.isServer, h.status]

theorem SamePlace.isClient (h : SamePlace x y) : x.isClient = y.isClient := by
  simp [Client.isClient, h.status]

theorem SamePlace.isRegistered (h : SamePlace x y) : x.isRegistered = y.isRegistered := by
  simp [Client.isRegistered, h.isServer, h.isClient]

theorem SamePlace.nameBucket (h : SamePlace x y) (key : Nat) : x.nameBucket key = y.nameBucket
    key := by
  simp [Client.nameBucket, h.dead, h.name]

theorem SamePlace.idBucket (h : SamePlace x y) (key : Nat) : x.idBucket key = y.idBucket key := by
  simp [Client.idBucket, h.dead, h.id]

theorem SamePlace.userOf (h : SamePlace x y) : x.userOf = y.userOf := by
  simp [Client.userOf, h.dead, h.isClient, h.servptr]

theorem SamePlace.serverOf (h : SamePlace x y) : x.serverOf = y.serverOf := by
  simp [Client.serverOf, h.dead, h.isServer, h.servptr]

@[simp] theorem isServer_setFlag (flag : Flag) : (x.setFlag flag).isServer = x.isServer := rfl
@[simp] theorem isClient_setFlag (flag : Flag) : (x.setFlag flag).isClient = x.isClient := rfl
@[simp] theorem myConnect_setFlag (flag : Flag) : (x.setFlag flag).myConnect = x.myConnect := rfl

@[simp] theorem isDead_setDead : (x.setFlag .deadsocket).isDead = true := by
  simp [isDead, setFlag]

@[simp] theorem nameBucket_setDead (key : Nat) : (x.setFlag .deadsocket).nameBucket key = none := by
  simp [nameBucket]

@[simp] theorem idBucket_setDead (key : Nat) : (x.setFlag .deadsocket).idBucket key = none := by
  simp [idBucket]

@[simp] theorem userOf_setDead : (x.setFlag .deadsocket).userOf = none := by simp [userOf]

@[simp] theorem serverOf_setDead : (x.setFlag .deadsocket).serverOf = none := by simp [serverOf]

theorem samePlace_setFlag {flag : Flag} (h : flag ≠ .deadsocket) : SamePlace (x.setFlag flag) x
    where
  dead := by simp [isDead, setFlag, h.symm]
  status := rfl
  name := rfl
  id := rfl
  «from» := rfl
  servptr := rfl
  conn := rfl

theorem isClient_of_isServer (h : x.isServer = true) : x.isClient = false := by
  simp only [isServer, beq_iff_eq] at h
  simp [isClient, h]

end Client

/-! ### The invariant -/

/-- A client record that fits the others: a connection is its own direction, and
a registered client is behind this server or behind an older live server that is
reached the same way. -/
structure Fits (cl : Clients) (c : Cid) (x : Client) : Prop where
  self : c = me → x.status = .me ∧ x.from = me ∧ x.myConnect = true
  single : x.status = .me → c = me
  direct : x.isDead = false → x.myConnect = true → x.from = c
  uplink : x.isDead = false → x.isRegistered = true → x.servptr < c ∧
    (x.servptr = me ∨ (cl x.servptr).isDead = false ∧ (cl x.servptr).isServer = true)
  localUplink : x.isDead = false → x.isRegistered = true → x.myConnect = true → x.servptr = me
  behind : x.isDead = false → x.isRegistered = true → x.myConnect = false →
    x.servptr ≠ me ∧ (cl x.servptr).from = x.from
  dotted : x.isDead = false → x.isServer = true → '.' ∈ x.name

theorem Fits.samePlace {cl : Clients} {c : Cid} {x y : Client} (h : Fits cl c y)
    (hxy : x.SamePlace y) : Fits cl c x where
  self hc := by rw [hxy.status, hxy.from, hxy.conn]; exact h.self hc
  single hx := h.single (hxy.status ▸ hx)
  direct hd hm := by rw [hxy.from]; exact h.direct (hxy.dead ▸ hd) (hxy.conn ▸ hm)
  uplink hd hr := by
    rw [hxy.servptr]
    exact h.uplink (hxy.dead ▸ hd) (hxy.isRegistered ▸ hr)
  localUplink hd hr hm := by
    rw [hxy.servptr]
    exact h.localUplink (hxy.dead ▸ hd) (hxy.isRegistered ▸ hr) (hxy.conn ▸ hm)
  behind hd hr hm := by
    rw [hxy.servptr, hxy.from]
    exact h.behind (hxy.dead ▸ hd) (hxy.isRegistered ▸ hr) (hxy.conn ▸ hm)
  dotted hd hs := by rw [hxy.name]; exact h.dotted (hxy.dead ▸ hd) (hxy.isServer ▸ hs)

theorem Fits.dead {cl : Clients} {c : Cid} {x : Client} (hdead : x.isDead = true)
    (self : c = me → x.status = .me ∧ x.from = me ∧ x.myConnect = true)
    (single : x.status = .me → c = me) : Fits cl c x where
  self := self
  single := single
  direct hd := by simp [hdead] at hd
  uplink hd := by simp [hdead] at hd
  localUplink hd := by simp [hdead] at hd
  behind hd := by simp [hdead] at hd
  dotted hd := by simp [hdead] at hd

/-- The invariant of a server. -/
structure Coherent (w : World) : Prop where
  fits : ∀ c, Fits w.clients c (w.clients c)
  pos : me < w.next
  fresh : ∀ c, w.next ≤ c → (w.clients c).isDead = true
  names : Files w.clientTable fun c => (w.clients c).nameBucket w.ircdRandomKey
  ids : Files w.idTable fun c => (w.clients c).idBucket w.ircdRandomKey
  users : Files (fun s => (w.serv s).users) fun c => (w.clients c).userOf
  servers : Files (fun s => (w.serv s).servers) fun c => (w.clients c).serverOf
  exited : ∀ c ∈ w.deadList, c < w.next ∧ (w.clients c).isDead = true

section Coherent

variable {w w' : World} {c d : Cid} {x : Client}

theorem comp_update {α : Type*} (f : Client → α) (cl : Clients) (c : Cid) (x : Client) :
    (fun d => f (update cl c x d)) = update (fun d => f (cl d)) c (f x) :=
  Function.comp_update f cl c x

theorem fits_update {cl : Clients} (h : ∀ c, Fits cl c (cl c)) (fits : Fits cl c x)
    (kept : ∀ d, d ≠ c → (cl d).isDead = false → (cl d).isRegistered = true →
      (cl d).servptr = c → c ≠ me → x.isDead = false ∧ x.isServer = true ∧ x.from = (cl c).from)
    (d : Cid) : Fits (update cl c x) d (update cl c x d) := by
  by_cases hd : d = c
  · subst hd
    rw [update_self]
    have hne : x.isDead = false → x.isRegistered = true → x.servptr ≠ d :=
      fun h₁ h₂ => Nat.ne_of_lt (fits.uplink h₁ h₂).1
    refine { fits with uplink := ?_, behind := ?_ }
    · intro h₁ h₂
      rw [update_of_ne (hne h₁ h₂)]
      exact fits.uplink h₁ h₂
    · intro h₁ h₂ h₃
      rw [update_of_ne (hne h₁ h₂)]
      exact fits.behind h₁ h₂ h₃
  · rw [update_of_ne hd]
    refine { h d with uplink := ?_, behind := ?_ }
    · intro h₁ h₂
      obtain ⟨hlt, hup⟩ := (h d).uplink h₁ h₂
      refine ⟨hlt, hup.imp id fun hs => ?_⟩
      by_cases hc : (cl d).servptr = c
      · by_cases hm : c = me
        · have hself := (h me).self rfl
          rw [hc, hm] at hs
          simp [Client.isServer, hself.1] at hs
        · obtain ⟨ha, hb, _⟩ := kept d hd h₁ h₂ hc hm
          rw [hc, update_self]
          exact ⟨ha, hb⟩
      · rwa [update_of_ne hc]
    · intro h₁ h₂ h₃
      obtain ⟨hne, hfrom⟩ := (h d).behind h₁ h₂ h₃
      refine ⟨hne, ?_⟩
      by_cases hc : (cl d).servptr = c
      · obtain ⟨_, _, hx⟩ := kept d hd h₁ h₂ hc (hc ▸ hne)
        rw [hc, update_self, hx, ← hc, hfrom]
      · rwa [update_of_ne hc]

theorem Coherent.put (h : Coherent w) (hcl : w'.clients = update w.clients c x)
    (hkey : w'.ircdRandomKey = w.ircdRandomKey) (hc : c < w'.next) (hle : w.next ≤ w'.next)
    (fits : Fits w.clients c x)
    (kept : ∀ d, d ≠ c → (w.clients d).isDead = false → (w.clients d).isRegistered = true →
      (w.clients d).servptr = c → c ≠ me →
        x.isDead = false ∧ x.isServer = true ∧ x.from = (w.clients c).from)
    (names : Files w'.clientTable (update
      (fun c => (w.clients c).nameBucket w.ircdRandomKey) c (x.nameBucket w.ircdRandomKey)))
    (ids : Files w'.idTable (update
      (fun c => (w.clients c).idBucket w.ircdRandomKey) c (x.idBucket w.ircdRandomKey)))
    (users : Files (fun s => (w'.serv s).users) (update
      (fun c => (w.clients c).userOf) c x.userOf))
    (servers : Files (fun s => (w'.serv s).servers) (update
      (fun c => (w.clients c).serverOf) c x.serverOf))
    (exited : ∀ d ∈ w'.deadList, d ∈ w.deadList ∧ d ≠ c ∨ d = c ∧ x.isDead = true) : Coherent w'
      where
  fits d := by
    rw [hcl]
    exact fits_update h.fits fits kept d
  pos := Nat.lt_of_lt_of_le h.pos hle
  fresh d hd := by
    have hne : d ≠ c := Nat.ne_of_gt (Nat.lt_of_lt_of_le hc hd)
    rw [hcl, update_of_ne hne]
    exact h.fresh d (Nat.le_trans hle hd)
  names := by rwa [hcl, hkey, comp_update fun x => x.nameBucket w.ircdRandomKey]
  ids := by rwa [hcl, hkey, comp_update fun x => x.idBucket w.ircdRandomKey]
  users := by rwa [hcl, comp_update Client.userOf]
  servers := by rwa [hcl, comp_update Client.serverOf]
  exited d hd := by
    rcases exited d hd with ⟨hmem, hne⟩ | ⟨rfl, hdead⟩
    · obtain ⟨hlt, hdead⟩ := h.exited d hmem
      rw [hcl, update_of_ne hne]
      exact ⟨Nat.lt_of_lt_of_le hlt hle, hdead⟩
    · rw [hcl, update_self]
      exact ⟨hc, hdead⟩

theorem Coherent.lt_next (h : Coherent w) (hc : (w.clients c).isDead = false) : c < w.next := by
  by_contra hle
  simp [h.fresh c (Nat.le_of_not_lt hle)] at hc

end Coherent

/-! ### What the parts of an exit do -/

namespace World

variable (w : World) (c s : Cid)

theorem users_onServ (f : Serv → Serv) :
    (fun s => ((w.onServ c f).serv s).users) =
      update (fun s => (w.serv s).users) c (f (w.serv c)).users :=
  Function.comp_update Serv.users w.serv c (f (w.serv c))

theorem servers_onServ (f : Serv → Serv) :
    (fun s => ((w.onServ c f).serv s).servers) =
      update (fun s => (w.serv s).servers) c (f (w.serv c)).servers :=
  Function.comp_update Serv.servers w.serv c (f (w.serv c))

theorem users_onServ_same {f : Serv → Serv} (hf : ∀ r, (f r).users = r.users) :
    (fun s => ((w.onServ c f).serv s).users) = fun s => (w.serv s).users := by
  rw [users_onServ, hf]
  exact update_eq_self c _

theorem servers_onServ_same {f : Serv → Serv} (hf : ∀ r, (f r).servers = r.servers) :
    (fun s => ((w.onServ c f).serv s).servers) = fun s => (w.serv s).servers := by
  rw [servers_onServ, hf]
  exact update_eq_self c _

section LeaveServer

@[simp] theorem leaveServer_clients : (w.leaveServer c).clients = w.clients := by
  simp only [leaveServer, unlinkServer, unlinkUser]
  split_ifs <;> rfl

@[simp] theorem leaveServer_next : (w.leaveServer c).next = w.next := by
  simp only [leaveServer, unlinkServer, unlinkUser]
  split_ifs <;> rfl

@[simp] theorem leaveServer_key : (w.leaveServer c).ircdRandomKey = w.ircdRandomKey := by
  simp only [leaveServer, unlinkServer, unlinkUser]
  split_ifs <;> rfl

@[simp] theorem leaveServer_clientTable : (w.leaveServer c).clientTable = w.clientTable := by
  simp only [leaveServer, unlinkServer, unlinkUser]
  split_ifs <;> rfl

@[simp] theorem leaveServer_idTable : (w.leaveServer c).idTable = w.idTable := by
  simp only [leaveServer, unlinkServer, unlinkUser]
  split_ifs <;> rfl

@[simp] theorem leaveServer_deadList : (w.leaveServer c).deadList = w.deadList := by
  simp only [leaveServer, unlinkServer, unlinkUser]
  split_ifs <;> rfl

@[simp] theorem leaveServer_currentTime : (w.leaveServer c).currentTime = w.currentTime := by
  simp only [leaveServer, unlinkServer, unlinkUser]
  split_ifs <;> rfl

@[simp] theorem leaveServer_count : (w.leaveServer c).count = w.count := by
  simp only [leaveServer, unlinkServer, unlinkUser]
  split_ifs <;> rfl

theorem users_unlinkUser :
    (fun s => ((w.unlinkUser c).serv s).users) =
      Buckets.del (fun s => (w.serv s).users) (w.clients c).servptr c := by
  simp only [unlinkUser]
  split_ifs
  · exact users_onServ w _ (Serv.delUser c)
  · exact (users_onServ_same _ _ (f := Serv.addDepUsers (-1)) fun _ => rfl).trans
      (users_onServ w _ (Serv.delUser c))

theorem servers_unlinkUser :
    (fun s => ((w.unlinkUser c).serv s).servers) = fun s => (w.serv s).servers := by
  simp only [unlinkUser]
  split_ifs
  · exact servers_onServ_same w _ (f := Serv.delUser c) fun _ => rfl
  · exact (servers_onServ_same _ _ (f := Serv.addDepUsers (-1)) fun _ => rfl).trans
      (servers_onServ_same w _ (f := Serv.delUser c) fun _ => rfl)

theorem servers_unlinkServer :
    (fun s => ((w.unlinkServer c).serv s).servers) =
      Buckets.del (fun s => (w.serv s).servers) (w.clients c).servptr c := by
  simp only [unlinkServer]
  split_ifs
  · exact servers_onServ w _ (Serv.delServer c)
  · exact (servers_onServ_same _ _ (f := Serv.addDepServers (-1)) fun _ => rfl).trans
      (servers_onServ w _ (Serv.delServer c))

theorem users_unlinkServer :
    (fun s => ((w.unlinkServer c).serv s).users) = fun s => (w.serv s).users := by
  simp only [unlinkServer]
  split_ifs
  · exact users_onServ_same w _ (f := Serv.delServer c) fun _ => rfl
  · exact (users_onServ_same _ _ (f := Serv.addDepServers (-1)) fun _ => rfl).trans
      (users_onServ_same w _ (f := Serv.delServer c) fun _ => rfl)

end LeaveServer

end World

section Exit

variable {w : World} {c : Cid}

theorem Coherent.users_leaveServer (h : Coherent w) :
    Files (fun s => ((w.leaveServer c).serv s).users)
      (update (fun c => (w.clients c).userOf) c none) := by
  simp only [World.leaveServer]
  split_ifs with hs hu
  · rw [World.users_unlinkServer]
    exact h.users.absent (by simp [Client.userOf, Client.isClient_of_isServer hs])
  · rw [World.users_unlinkUser]
    exact h.users.del fun k hk => by simp [Client.userOf] at hk; exact hk.2.symm
  · exact h.users.absent (by simp [Client.userOf, hu])

theorem Coherent.servers_leaveServer (h : Coherent w) :
    Files (fun s => ((w.leaveServer c).serv s).servers)
      (update (fun c => (w.clients c).serverOf) c none) := by
  simp only [World.leaveServer]
  split_ifs with hs hu
  · rw [World.servers_unlinkServer]
    exact h.servers.del fun k hk => by simp [Client.serverOf] at hk; exact hk.2.symm
  · rw [World.servers_unlinkUser]
    exact h.servers.absent (by simp [Client.serverOf, hs])
  · exact h.servers.absent (by simp [Client.serverOf, hs])

theorem exitOneClient_fields (w : World) (c : Cid) :
    (w.exitOneClient c).clients =
        update w.clients c ((w.clients c).setFlag .deadsocket) ∧
      (w.exitOneClient c).ircdRandomKey = w.ircdRandomKey ∧ (w.exitOneClient c).next = w.next ∧
      (w.exitOneClient c).deadList = c :: w.deadList ∧
      (w.exitOneClient c).serv = (w.leaveServer c).serv ∧
      (w.exitOneClient c).assertsHold = (w.leaveServer c).assertsHold ∧
      (w.exitOneClient c).currentTime = w.currentTime := by
  simp only [World.exitOneClient, World.updateClientExitStats]
  split_ifs <;> simp [World.onClient, World.onCount, World.hashDelClient, World.hashDelId]

theorem clientTable_exitOneClient (w : World) (c : Cid) :
    (w.exitOneClient c).clientTable =
      if (w.clients c).name = [] then w.clientTable
      else Buckets.del w.clientTable (strhash w.ircdRandomKey (w.clients c).name) c := by
  simp only [World.exitOneClient, World.updateClientExitStats]
  split_ifs <;>
    simp_all [World.onClient, World.onCount, World.hashDelClient, World.hashDelId]

theorem idTable_exitOneClient (w : World) (c : Cid) :
    (w.exitOneClient c).idTable =
      if (w.clients c).id = [] then w.idTable
      else Buckets.del w.idTable (strhash w.ircdRandomKey (w.clients c).id) c := by
  simp only [World.exitOneClient, World.updateClientExitStats]
  split_ifs <;>
    simp_all [World.onClient, World.onCount, World.hashDelClient, World.hashDelId, Client.hasID]

theorem Coherent.servptr_ne (h : Coherent w) (hu : (w.serv c).users = [])
    (hs : (w.serv c).servers = [])
    {d : Cid} (hd : (w.clients d).isDead = false) (hr : (w.clients d).isRegistered = true) :
    (w.clients d).servptr ≠ c := by
  intro hup
  rcases Bool.or_eq_true _ _ ▸ hr with hserver | hclient
  · have : d ∈ (w.serv c).servers := h.servers.mem.mpr (by simp [Client.serverOf, hd, hserver, hup])
    simp [hs] at this
  · have : d ∈ (w.serv c).users := h.users.mem.mpr (by simp [Client.userOf, hd, hclient, hup])
    simp [hu] at this

theorem Coherent.exitOneClient (h : Coherent w) (hc : (w.clients c).isDead = false)
    (leaf : (w.clients c).isServer = true → (w.serv c).users = [] ∧ (w.serv c).servers = []) :
    Coherent (w.exitOneClient c) := by
  obtain ⟨hcl, hkey, hnext, hdead, hserv, _⟩ := exitOneClient_fields w c
  have hfits := h.fits c
  refine h.put hcl hkey (hnext ▸ h.lt_next hc) (Nat.le_of_eq hnext.symm)
    (Fits.dead Client.isDead_setDead hfits.self hfits.single) ?_ ?_ ?_ ?_ ?_ ?_
  · -- whatever is behind `c` shows that `c` is a server, and then nothing is
    intro d _ hd hr hup hme
    rcases ((h.fits d).uplink hd hr).2 with hself | ⟨_, hserver⟩
    · exact absurd (hup.symm.trans hself) hme
    · obtain ⟨hu, hs⟩ := leaf (hup ▸ hserver)
      exact absurd hup (h.servptr_ne hu hs hd hr)
  · rw [clientTable_exitOneClient, Client.nameBucket_setDead]
    split_ifs with hname
    · exact h.names.absent (by simp [Client.nameBucket, hname])
    · exact h.names.del fun k hk => by
        simp only [Client.nameBucket] at hk
        grind
  · rw [idTable_exitOneClient, Client.idBucket_setDead]
    split_ifs with hid
    · exact h.ids.absent (by simp [Client.idBucket, hid])
    · exact h.ids.del fun k hk => by
        simp only [Client.idBucket] at hk
        grind
  · rw [hserv, Client.userOf_setDead]
    exact h.users_leaveServer
  · rw [hserv, Client.serverOf_setDead]
    exact h.servers_leaveServer
  · intro d hd
    rcases List.mem_cons.mp (hdead ▸ hd) with rfl | hmem
    · exact .inr ⟨rfl, Client.isDead_setDead⟩
    · refine .inl ⟨hmem, ?_⟩
      rintro rfl
      simp [(h.exited d hmem).2] at hc

end Exit

end Ircd
