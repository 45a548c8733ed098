import Ircd.ServerTree

/-!
Links, introductions and exits keep the servers a tree.

Each step brings in one server or none (`Sound.step`). A new server that is told
from the known ones keeps what every run keeps, and one that is not makes a search
find the wrong server (`Sound.added`, `Sound.ambiguous`).
-/

namespace Ircd

open Function
open Buckets (Files)

variable {w v : World} {b c d s t : Cid} {x : Client} {cf : ServerConfig}

/-! ### The operations -/

/-- A connection that has sent neither a name nor an identifier. -/
structure Blank (w : World) (c : Cid) : Prop where
  live : (w.clients c).isDead = false
  closing : (w.clients c).isClosing = false
  conn : (w.clients c).myConnect = true
  status : (w.clients c).status = .unknown
  name : (w.clients c).name = []
  id : (w.clients c).id = []

theorem Blank.isServer (h : Blank w c) : (w.clients c).isServer = false := by
  simp [Client.isServer, h.status]

theorem Sound.ne_me_of_blank (hw : Sound w) (h : Blank w c) : c ≠ me := by
  rintro rfl
  have := ((hw.coherent.fits me).self rfl).1
  rw [h.status] at this
  cases this

theorem Sound.unlisted_of_blank (hw : Sound w) (h : Blank w c) : c ∉ w.globalServList := by
  rw [hw.enlisted.mem]
  rintro (hme | ⟨-, hserver⟩)
  · exact hw.ne_me_of_blank h hme
  · rw [h.isServer] at hserver
    cases hserver

theorem Sound.rejectLink (hw : Sound w) (h : Blank w c) (id : CStr) :
    Sound ((w.onClient c fun x => { x with id := id }).exitClient c) := by
  have hcme := hw.ne_me_of_blank h
  set u := w.onClient c fun x => { x with id := id } with hu
  have hself : u.clients c = { w.clients c with id := id } := by simp [hu, World.onClient]
  have hother : ∀ d, d ≠ c → u.clients d = w.clients d := fun d hd => by
    simp [hu, World.onClient, update_of_ne hd]
  have hexit : u.exitClient c = (u.closeLocal c).exitOneClient c := by
    have hclosing : (u.clients c).isClosing = false := by rw [hself]; exact h.closing
    have hconn : (u.clients c).myConnect = true := by rw [hself]; exact h.conn
    have hserver : (u.clients c).isServer = false := by rw [hself]; exact h.isServer
    simp only [World.exitClient]
    rw [hclosing, hconn, hserver]
    rfl
  obtain ⟨hcl, hnext, hkey, hct, hid, hserv, hdl, _⟩ := closeLocal_fields u c
  obtain ⟨hcl', hkey', hnext', hdl', hserv', _⟩ := exitOneClient_fields (u.closeLocal c) c
  set y : Client := (((u.clients c).setFlag .closing).setFlag .deadsocket) with hy
  have hyself : (u.closeLocal c).clients c = (u.clients c).setFlag .closing := by
    rw [hcl, update_self]
  have hclients : (u.exitClient c).clients = update w.clients c y := by
    rw [hexit, hcl', hyself, hcl, update_idem, hu]
    exact update_idem _ _ _
  have hyd : y.isDead = true := Client.isDead_setDead
  have hys : y.status = .unknown := by
    rw [hy, hself]
    exact h.status
  have hleave : (u.exitClient c).serv = w.serv := by
    rw [hexit, hserv']
    have hkind : ((u.closeLocal c).clients c).isServer = false ∧
        ((u.closeLocal c).clients c).isClient = false := by
      rw [hyself, hself]
      simp [Client.isServer, Client.isClient, Client.setFlag, h.status]
    simp only [World.leaveServer]
    rw [hkind.1, hkind.2]
    exact hserv
  have hname : ((u.closeLocal c).clients c).name = [] := by
    rw [hyself, hself]
    exact h.name
  have hlist : (u.exitClient c).globalServList = w.globalServList := by
    rw [hexit, globalServList_exitOneClient, globalServList_closeLocal, hyself, hself]
    simp [Client.isServer, Client.setFlag, h.status, hu, World.onClient]
  have hcoherent := hw.coherent
  refine ⟨?_, ?_, ?_⟩
  · refine hcoherent.put hclients ?_ ?_ ?_ (Fits.dead hyd (fun e => absurd e hcme) fun e => ?_) ?_
      ?_
      ?_ ?_ ?_ ?_
    · rw [hexit, hkey', hkey, hu]
      rfl
    · rw [hexit, hnext', hnext]
      exact hcoherent.lt_next h.live
    · rw [hexit, hnext', hnext]
      exact Nat.le_refl _
    · rw [hys] at e
      cases e
    · intro d _ hd hr hup hme
      exact absurd (hcoherent.nothing_behind (fun _ => h.isServer) hd hr hup) hme
    · rw [hexit, clientTable_exitOneClient, if_pos hname, hct]
      rw [show y.nameBucket w.ircdRandomKey = none by simp [Client.nameBucket, hyd]]
      exact hcoherent.names.absent (by simp [Client.nameBucket, h.name])
    · have hnone : (w.clients c).idBucket w.ircdRandomKey = none := by
        simp [Client.idBucket, h.id]
      rw [hexit, idTable_exitOneClient, hid]
      rw [show y.idBucket w.ircdRandomKey = none by simp [Client.idBucket, hyd]]
      split_ifs
      · exact hcoherent.ids.absent hnone
      · refine hcoherent.ids.del fun k hk => ?_
        rw [hnone] at hk
        cases hk
    · rw [hleave, show y.userOf = none by simp [Client.userOf, hyd]]
      exact hcoherent.users.absent (by simp [Client.userOf, Client.isClient, h.status])
    · rw [hleave, show y.serverOf = none by simp [Client.serverOf, hyd]]
      exact hcoherent.servers.absent (by simp [Client.serverOf, h.isServer])
    · intro d hd
      rw [hexit, hdl', hdl] at hd
      rcases List.mem_cons.mp hd with rfl | hd
      · exact .inr ⟨rfl, hyd⟩
      · refine .inl ⟨hd, ?_⟩
        rintro rfl
        have := (hcoherent.exited d hd).2
        rw [h.live] at this
        cases this
  · have hne : ∀ d, d ≠ c → (u.exitClient c).clients d = w.clients d := fun d hd => by
      rw [hclients, update_of_ne hd]
    have hdead : ((u.exitClient c).clients c).isDead = true := by
      rw [hclients, update_self]
      exact hyd
    refine hw.enlisted.fewer (fun d hd => ?_) (fun d hd => ?_) ?_ fun {d} => ?_
    · have hdc : d ≠ c := by
        rintro rfl
        rcases hd with hme | hlive
        · exact hcme hme
        · rw [hdead] at hlive
          cases hlive
      rw [hne d hdc]
      exact ⟨rfl, rfl, rfl, rfl⟩
    · by_cases hdc : d = c
      · rw [hdc]
        exact hdead
      · rwa [hne d hdc]
    · rw [hlist]
    · rw [hlist, hw.enlisted.mem]
      by_cases hdc : d = c
      · subst hdc
        simp [hdead, h.isServer]
      · rw [hne d hdc]
  · rw [hclients, update_of_ne hcme.symm]
    exact hw.live

/-- The record of a link after `server_estab`. -/
def World.linkRecord (w : World) (c : Cid) (name id : CStr) : Client :=
  { w.clients c with id := id, name := name, servptr := me, status := .server }

/-- What `mr_server` leaves of a link that it accepts. -/
def World.acceptLink (w : World) (c : Cid) (name id : CStr) : World :=
  ((w.onClient c fun x => { x with id := id }).onClient c fun x =>
    { x with name := name }).serverEstab c

theorem World.acceptLink_clients (w : World) (c : Cid) (name id : CStr) :
    (w.acceptLink c name id).clients = update w.clients c (w.linkRecord c name id) := by
  simp only [World.acceptLink, World.serverEstab]
  split_ifs <;>
    simp [World.makeServer, World.hashAddClient, World.hashAddId, World.onServ, World.onClient,
      World.linkRecord]

theorem World.acceptLink_serv (w : World) (c : Cid) (name id : CStr) :
    (w.acceptLink c name id).serv = ((w.onServ me (Serv.addServer c)).makeServer c).serv := by
  simp only [World.acceptLink, World.serverEstab]
  split_ifs <;> rfl

theorem World.acceptLink_tables (w : World) (c : Cid) (name id : CStr) :
    (w.acceptLink c name id).ircdRandomKey = w.ircdRandomKey ∧
      (w.acceptLink c name id).clientTable =
        Buckets.add w.clientTable (strhash w.ircdRandomKey name) c ∧
      (w.acceptLink c name id).idTable =
        (if id = [] then w.idTable
        else Buckets.add w.idTable (strhash w.ircdRandomKey id) c) ∧
      (w.acceptLink c name id).globalServList = c :: w.globalServList ∧
      (w.acceptLink c name id).next = w.next ∧ (w.acceptLink c name id).deadList = w.deadList := by
  simp only [World.acceptLink, World.serverEstab]
  split_ifs <;>
    simp_all [World.makeServer, World.hashAddClient, World.hashAddId, World.onServ, World.onClient,
      Client.hasID]

theorem World.distinct_of_serverExists {name : CStr} (h : w.serverExists name = none) :
    ∀ d ∈ w.globalServList, matchMask name (w.clients d).name = false ∧
      matchMask (w.clients d).name name = false := by
  intro d hd
  have := List.find?_eq_none.mp h d hd
  rw [Bool.or_eq_true, not_or, Bool.not_eq_true, Bool.not_eq_true] at this
  exact ⟨this.2, this.1⟩

theorem Sound.acceptLink (hw : Sound w) (h : Blank w c) {name : CStr} (id : CStr)
    (hexists : w.serverExists name = none) (hdot : '.' ∈ name) :
    Added c (w.linkRecord c name id) w (w.acceptLink c name id) ∧
      Coherent (w.acceptLink c name id) := by
  have hcme := hw.ne_me_of_blank h
  have hcl := w.acceptLink_clients c name id
  have hserv := w.acceptLink_serv c name id
  obtain ⟨hkey, hct, hid, hlist, hnext, hdead⟩ := w.acceptLink_tables c name id
  have hlive : (w.linkRecord c name id).isDead = false := h.live
  have hserver : (w.linkRecord c name id).isServer = true := rfl
  have hne : name ≠ [] := List.ne_nil_of_mem hdot
  refine ⟨⟨hcl, hkey, hct, hid, hlist, hlive, hserver, hne, hw.unlisted_of_blank h,
    World.distinct_of_serverExists hexists⟩, ?_⟩
  have hcoherent := hw.coherent
  obtain ⟨husers, hservers⟩ := hcoherent.lists_empty hcme fun _ => h.isServer
  have hpos : me < c := Nat.pos_of_ne_zero hcme
  refine hcoherent.place (fun _ => h.isServer) hcl hkey (hnext ▸ hcoherent.lt_next h.live)
    (Nat.le_of_eq hnext.symm) hdead (.inl h.live) ?_ ?_ ?_ ?_ ?_
  · refine ⟨fun e => absurd e hcme, fun e => by simp [World.linkRecord] at e,
      fun _ _ => (hcoherent.fits c).direct h.live h.conn, fun _ _ => ⟨hpos, .inl rfl⟩,
      fun _ _ _ => rfl, fun _ _ e => ?_, fun _ _ => hdot⟩
    exact absurd (h.conn.symm.trans e) (by simp)
  · rw [hct, show (w.linkRecord c name id).nameBucket w.ircdRandomKey =
      some (strhash w.ircdRandomKey name) from
        Client.nameBucket_eq_some_iff.mpr ⟨hlive, hne, rfl⟩]
    exact hcoherent.names.add (by simp [Client.nameBucket, h.name])
  · have hnone : (w.clients c).idBucket w.ircdRandomKey = none := by simp [Client.idBucket, h.id]
    rw [hid]
    split_ifs with hnil
    · rw [show (w.linkRecord c name id).idBucket w.ircdRandomKey = none by
        simp [Client.idBucket, World.linkRecord, hnil]]
      exact hcoherent.ids.absent hnone
    · rw [show (w.linkRecord c name id).idBucket w.ircdRandomKey =
        some (strhash w.ircdRandomKey id) from
          Client.idBucket_eq_some_iff.mpr ⟨hlive, hnil, rfl⟩]
      exact hcoherent.ids.add hnone
  · rw [hserv, show (w.linkRecord c name id).userOf = none by
      simp [Client.userOf, Client.isClient, World.linkRecord]]
    have hsame : (fun s => (((w.onServ me (Serv.addServer c)).makeServer c).serv s).users) =
        fun s => (w.serv s).users := by
      rw [World.makeServer, World.users_onServ,
        World.users_onServ_same _ _ (f := Serv.addServer c) fun _ => rfl]
      exact update_eq_self_iff.mpr husers.symm
    rw [hsame]
    exact hcoherent.users.absent (by simp [Client.userOf, Client.isClient, h.status])
  · rw [hserv, show (w.linkRecord c name id).serverOf = some me from
      Client.serverOf_eq_some_iff.mpr ⟨hlive, hserver, rfl⟩]
    have hsame : (fun s => (((w.onServ me (Serv.addServer c)).makeServer c).serv s).servers) =
        Buckets.add (fun s => (w.serv s).servers) me c := by
      rw [World.makeServer, World.servers_onServ, World.servers_onServ]
      refine update_eq_self_iff.mpr ?_
      rw [update_of_ne hcme]
      exact hservers.symm
    rw [hsame]
    exact hcoherent.servers.add (by simp [Client.serverOf, h.isServer])

/-- The record of a server behind `source`. -/
def introRecord (client source : Cid) (name id : CStr) : Client :=
  { (default : Client) with
    username := "unknown".toList, «from» := client, name := name, id := id
    servptr := source, status := .server }

theorem World.addServer_clients (w : World) (client source : Cid) (name id : CStr) :
    (w.addServer client source name id).clients = update w.clients w.next
      (introRecord client source (strlcpy name (HOSTLEN + 1)) (strlcpy id (IDLEN + 1))) := by
  simp only [World.addServer]
  split_ifs <;>
    simp [World.makeServer, World.makeClient, World.hashAddClient, World.hashAddId, World.onServ,
      World.onClient, introRecord]

theorem World.addServer_serv (w : World) (client source : Cid) (name id : CStr) :
    (w.addServer client source name id).serv =
      (((w.makeServer w.next).onServ source (Serv.addServer w.next)).onServ client
        (Serv.addDepServers 1)).serv := by
  simp only [World.addServer]
  split_ifs <;> rfl

theorem World.addServer_tables (w : World) (client source : Cid) (name id : CStr) :
    (w.addServer client source name id).ircdRandomKey = w.ircdRandomKey ∧
      (w.addServer client source name id).clientTable = Buckets.add w.clientTable
        (strhash w.ircdRandomKey (strlcpy name (HOSTLEN + 1))) w.next ∧
      (w.addServer client source name id).idTable =
        (if strlcpy id (IDLEN + 1) = [] then w.idTable
        else Buckets.add w.idTable (strhash w.ircdRandomKey (strlcpy id (IDLEN + 1))) w.next) ∧
      (w.addServer client source name id).globalServList = w.next :: w.globalServList ∧
      (w.addServer client source name id).next = w.next + 1 ∧
      (w.addServer client source name id).deadList = w.deadList := by
  have hid : strlcpy id (IDLEN + 1) = [] ↔ id = [] := by
    refine ⟨fun h => ?_, fun h => by simp [h, strlcpy]⟩
    by_contra hne
    exact strlcpy_ne_nil hne (by decide) h
  simp only [World.addServer, hid]
  split_ifs <;>
    simp_all [World.makeServer, World.makeClient, World.hashAddClient, World.hashAddId,
      World.onServ,
      World.onClient]

theorem Sound.addServer (hw : Sound w) {client source : Cid} {name : CStr} (id : CStr)
    (hlive : (w.clients source).isDead = false) (hserver : (w.clients source).isServer = true)
    (hfrom : (w.clients source).from = client) (hexists : w.serverExists name = none)
    (hdot : '.' ∈ name) (hlen : name.length ≤ HOSTLEN) :
    Added w.next (introRecord client source (strlcpy name (HOSTLEN + 1)) (strlcpy id (IDLEN + 1))) w
        (w.addServer client source name id) ∧
      Coherent (w.addServer client source name id) := by
  have hname : strlcpy name (HOSTLEN + 1) = name := List.take_of_length_le hlen
  have hcl := w.addServer_clients client source name id
  have hserv := w.addServer_serv client source name id
  obtain ⟨hkey, hct, hid, hlist, hnext, hdl⟩ := w.addServer_tables client source name id
  rw [hname] at hcl hct ⊢
  set id' := strlcpy id (IDLEN + 1) with hid'
  have hne : name ≠ [] := List.ne_nil_of_mem hdot
  have hcoherent := hw.coherent
  have hdead := hcoherent.fresh w.next (Nat.le_refl _)
  have hunlisted : w.next ∉ w.globalServList := by
    intro hin
    rw [hw.live_of_mem hin] at hdead
    cases hdead
  refine ⟨⟨hcl, hkey, hct, hid, hlist, rfl, rfl, hne, hunlisted,
    World.distinct_of_serverExists hexists⟩, ?_⟩
  have hlt := hcoherent.lt_next hlive
  have hcme : w.next ≠ me := Nat.ne_of_gt hcoherent.pos
  have hsne : source ≠ w.next := Nat.ne_of_lt hlt
  have hlists := hcoherent.lists_empty hcme fun h => absurd (hdead.symm.trans h) (by simp)
  refine hcoherent.place (c := w.next) (fun h => absurd (hdead.symm.trans h) (by simp)) hcl hkey
    (hnext ▸ Nat.lt_succ_self _) (hnext ▸ Nat.le_succ _) hdl (.inr (Nat.le_refl _)) ?_ ?_ ?_ ?_ ?_
  · refine ⟨fun e => absurd e hcme, fun e => by simp [introRecord] at e,
      fun _ e => by simp [introRecord, Client.myConnect, default] at e,
      fun _ _ => ⟨hlt, .inr ⟨hlive, hserver⟩⟩,
      fun _ _ e => by simp [introRecord, Client.myConnect, default] at e,
      fun _ _ _ => ⟨hw.ne_me_of_server hserver, hfrom⟩, fun _ _ => hdot⟩
  · rw [hct, show (introRecord client source name id').nameBucket w.ircdRandomKey =
      some (strhash w.ircdRandomKey name) from
        Client.nameBucket_eq_some_iff.mpr ⟨rfl, hne, rfl⟩]
    exact hcoherent.names.add (by simp [Client.nameBucket, hdead])
  · have hnone : (w.clients w.next).idBucket w.ircdRandomKey = none := by
      simp [Client.idBucket, hdead]
    rw [hid]
    split_ifs with hnil
    · rw [show (introRecord client source name id').idBucket w.ircdRandomKey = none by
        simp [Client.idBucket, introRecord, hnil]]
      exact hcoherent.ids.absent hnone
    · rw [show (introRecord client source name id').idBucket w.ircdRandomKey =
        some (strhash w.ircdRandomKey id') from
          Client.idBucket_eq_some_iff.mpr ⟨rfl, hnil, rfl⟩]
      exact hcoherent.ids.add hnone
  · rw [hserv, show (introRecord client source name id').userOf = none by
      simp [Client.userOf, Client.isClient, introRecord]]
    have hsame : (fun s => ((((w.makeServer w.next).onServ source (Serv.addServer w.next)).onServ
        client (Serv.addDepServers 1)).serv s).users) = fun s => (w.serv s).users := by
      rw [World.users_onServ_same _ _ (f := Serv.addDepServers 1) fun _ => rfl,
        World.users_onServ_same _ _ (f := Serv.addServer w.next) fun _ => rfl, World.makeServer,
        World.users_onServ]
      exact update_eq_self_iff.mpr hlists.1.symm
    rw [hsame]
    exact hcoherent.users.absent (by simp [Client.userOf, hdead])
  · rw [hserv, show (introRecord client source name id').serverOf = some source from
      Client.serverOf_eq_some_iff.mpr ⟨rfl, rfl, rfl⟩]
    have hmade : (fun s => ((w.makeServer w.next).serv s).servers) = fun s =>
        (w.serv s).servers := by
      rw [World.makeServer, World.servers_onServ]
      exact update_eq_self_iff.mpr hlists.2.symm
    have hsame : (fun s => ((((w.makeServer w.next).onServ source (Serv.addServer w.next)).onServ
        client (Serv.addDepServers 1)).serv s).servers) =
          Buckets.add (fun s => (w.serv s).servers) source w.next := by
      rw [World.servers_onServ_same _ _ (f := Serv.addDepServers 1) fun _ => rfl,
        World.servers_onServ, hmade]
      simp only [Buckets.add]
      congr 2
      exact congrArg (w.next :: ·) (congrFun hmade source)
    rw [hsame]
    exact hcoherent.servers.add (by simp [Client.serverOf, hdead])

theorem Sound.connect (hw : Sound w) (sockhost : CStr) : Sound (w.makeLocalClient sockhost) := by
  have hdead := hw.coherent.fresh w.next (Nat.le_refl _)
  have hself : (w.makeLocalClient sockhost).clients w.next =
      { (default : Client) with
        username := "unknown".toList, host := sockhost, sockhost := sockhost,
        «from» := w.next, localClient := some ⟨0, 0⟩ } := by
    simp [World.makeLocalClient]
  have hother : ∀ d, d ≠ w.next → (w.makeLocalClient sockhost).clients d = w.clients d := by
    intro d hd
    simp [World.makeLocalClient, update_of_ne hd]
  have hme : (w.makeLocalClient sockhost).clients me = w.clients me :=
    hother me (Nat.ne_of_lt hw.coherent.pos)
  have hlisted : ∀ d ∈ w.globalServList, (w.makeLocalClient sockhost).clients d = w.clients d := by
    intro d hd
    refine hother d ?_
    rintro rfl
    rw [hw.live_of_mem hd] at hdead
    cases hdead
  have h := hw.enlisted
  refine ⟨hw.coherent.makeLocalClient sockhost, ⟨fun {d} => ?_, h.nodup, fun d hlive hserver hne =>
    ?_,
    ?_, ?_, fun c hc d hd => ?_, fun c hc d hd => ?_, fun c hc d hd => ?_⟩, ?_⟩
  · change d ∈ w.globalServList ↔ _
    rw [h.mem]
    by_cases hd : d = w.next
    · rw [hd, hself, hdead]
      simp [Client.isServer, default]
    · rw [hother d hd]
  · by_cases hd : d = w.next
    · rw [hd, hself]
      exact ⟨rfl, rfl⟩
    · rw [hother d hd] at hlive hserver ⊢
      exact h.unnamed d hlive hserver hne
  · rw [hme]
    exact h.named
  · rw [hme]
    exact h.root
  · rw [hlisted c hc, hlisted d hd]
    exact h.distinct c hc d hd
  · rw [hlisted c hc, hlisted d hd]
    exact h.ids c hc d hd
  · rw [hlisted c hc, hlisted d hd]
    exact h.apart c hc d hd
  · rw [hme]
    exact hw.live

/-! ### One step -/

/-- What a step that brings in the server `new`, or none, leaves. -/
def Outcome (w v : World) : Option (CStr × CStr) → Prop
  | none => Sound v
  | some (name, id) => ∃ c x, Added c x w v ∧ Coherent v ∧ x.name = name ∧ x.id = id

theorem Sound.live_of_findSender (hw : Sound w) {client : Cid} {sender : CStr}
    (h : findSender w.directory client sender = some s) : (w.clients s).isDead = false := by
  simp only [findSender] at h
  cases hperson : findPerson w.directory (w.directory.clients client) sender with
  | none =>
    rw [hperson] at h
    exact hw.coherent.findServer_some h
  | some who =>
    rw [hperson, Option.some.injEq] at h
    subst h
    simp only [findPerson, Option.filter_eq_some_iff] at hperson
    obtain ⟨hfind, -⟩ := hperson
    split_ifs at hfind
    · rw [Option.filter_eq_some_iff] at hfind
      exact (hw.coherent.hashFindId_some hfind.1).1
    · exact (hw.coherent.findClient_some hfind).1

theorem Sound.lineSource_some (hw : Sound w) {client : Cid} {sender : CStr}
    (hlive : (w.clients client).isDead = false) (h : w.lineSource client sender = some s) :
    (w.clients s).isDead = false ∧ (w.clients s).from = client := by
  simp only [World.lineSource, Option.filter_eq_some_iff, beq_iff_eq] at h
  obtain ⟨hsource, hfrom⟩ := h
  refine ⟨?_, hfrom⟩
  split_ifs at hsource with hsender
  · rw [Option.some.injEq] at hsource
    rwa [← hsource]
  · exact hw.live_of_findSender hsource

theorem dot_mem_of_not_bogus {name : CStr} (h : bogusHost name = false) : '.' ∈ name := by
  simp only [bogusHost, Bool.or_eq_false_iff, Bool.not_eq_false'] at h
  simpa using h.2

theorem Sound.mrServer (hw : Sound w) (h : Blank w c) (name id : CStr)
    (hdefunct : (w.clients c).isDefunct = false) :
    Outcome w (w.mrServer c name id) (w.linked c name id) := by
  have hcme := hw.ne_me_of_blank h
  have hguard : (!(!(w.clients c).isDefunct && (w.clients c).myConnect && (w.clients c).isUnknown &&
      (w.clients c).name.isEmpty && (w.clients c).id.isEmpty)) = false := by
    simp [hdefunct, h.conn, h.name, h.id, Client.isUnknown, h.status]
  set id' := strlcpy id (IDLEN + 1) with hid'
  have hself : (w.onClient c fun x => { x with id := id' }).clients c =
      { w.clients c with id := id' } := by
    simp [World.onClient]
  have hme : (w.onClient c fun x => { x with id := id' }).clients me = w.clients me := by
    simp [World.onClient, update_of_ne hcme.symm]
  have hexists : (w.onClient c fun x => { x with id := id' }).serverExists name =
      w.serverExists name := by
    simp only [World.serverExists]
    refine List.find?_congr fun d hd => ?_
    have hne : d ≠ c := by
      rintro rfl
      exact hw.unlisted_of_blank h hd
    simp [World.onClient, update_of_ne hne]
  have hfind : (w.onClient c fun x => { x with id := id' }).hashFindId id' = w.hashFindId id' := by
    simp only [World.hashFindId]
    refine List.find?_congr fun d hd => ?_
    have hne : d ≠ c := by
      rintro rfl
      have := (Client.idBucket_eq_some_iff.mp (hw.coherent.ids.mem.mp hd)).2.1
      exact this h.id
    simp [World.onClient, update_of_ne hne]
  simp only [World.mrServer, World.linked]
  rw [hguard, if_neg Bool.false_ne_true, hself, hme, hexists]
  simp only [Client.hasID, ← hid']
  rw [hfind]
  by_cases hbogus : bogusHost name || decide (HOSTLEN < name.length)
  · rw [if_pos hbogus, if_pos hbogus]
    exact hw.exitClient h.live hcme
  · rw [if_neg hbogus, if_neg hbogus]
    split_ifs with hknown
    · exact hw.rejectLink h id'
    · rw [Bool.or_eq_true, not_or, Bool.not_eq_true, Bool.not_eq_true, decide_eq_false_iff_not]
        at hbogus
      rw [Bool.or_eq_true, not_or, Option.not_isSome_iff_eq_none] at hknown
      have hname : strlcpy name (HOSTLEN + 1) = name :=
        List.take_of_length_le (Nat.le_of_not_lt hbogus.2)
      rw [hname]
      obtain ⟨hadded, hcoherent⟩ :=
        hw.acceptLink h id' hknown.2 (dot_mem_of_not_bogus hbogus.1)
      exact ⟨c, _, hadded, hcoherent, rfl, rfl⟩

theorem Sound.introduceServer (hw : Sound w) (cf : ServerConfig) {client source : Cid}
    {name : CStr} (id info : CStr)
    (hclient : (w.clients client).isDead = false) (hcme : client ≠ me)
    (hlive : (w.clients source).isDead = false) (hserver : (w.clients source).isServer = true)
    (hfrom : (w.clients source).from = client) (hexists : w.serverExists name = none) :
    Outcome w (w.introduceServer cf client source name id info)
      (w.introduced cf client name id info) := by
  have hexit := hw.exitClient hclient hcme
  have hsquit := hw.exitClient hlive (hw.ne_me_of_server hserver)
  simp only [World.introduceServer, World.introduced]
  by_cases hbad : (!name.contains '.' || decide (HOSTLEN < name.length)) = true
  · rw [if_pos hbad, if_pos (by simp only [hbad, Bool.true_or])]
    exact hexit
  rw [if_neg hbad]
  by_cases hinfo : info = []
  · rw [if_pos hinfo, if_pos (by simp [hinfo])]
    exact hw
  rw [if_neg hinfo]
  by_cases hhub : (!itemCovers cf.hubItems (w.clients client).name name) = true
  · rw [if_pos hhub, if_pos (by simp only [hhub, Bool.or_true, Bool.true_or])]
    exact hsquit
  rw [if_neg hhub]
  by_cases hleaf : itemCovers cf.leafItems (w.clients client).name name = true
  · rw [if_pos hleaf, if_pos (by simp only [hleaf, Bool.or_true])]
    exact hexit
  · rw [if_neg hleaf, if_neg (by
      simp only [Bool.or_eq_true, List.isEmpty_iff, not_or]
      simp only [Bool.or_eq_true, not_or] at hbad
      exact ⟨⟨⟨hbad, hinfo⟩, hhub⟩, hleaf⟩)]
    rw [Bool.or_eq_true, not_or, Bool.not_eq_true, Bool.not_eq_true, decide_eq_false_iff_not,
      Bool.not_eq_false'] at hbad
    obtain ⟨hadded, hcoherent⟩ := hw.addServer id hlive hserver hfrom hexists
      (by simpa using hbad.1) (Nat.le_of_not_lt hbad.2)
    exact ⟨_, _, hadded, hcoherent, rfl, rfl⟩

theorem Sound.handleCommand (hw : Sound w) {client source : Cid} {cmd : ServerCommand}
    {parv : List CStr} (hcmd : cmd = .server ∨ cmd = .sid)
    (hclient : (w.clients client).isDead = false) (hcme : client ≠ me)
    (hlive : (w.clients source).isDead = false) (hfrom : (w.clients source).from = client) :
    Outcome w (w.handleCommand cf client source cmd parv)
      (w.introducedBy cf client source cmd parv) := by
  have hexit := hw.exitClient hclient hcme
  simp only [World.handleCommand, World.introducedBy]
  by_cases hparc : parv.length < cmd.parameters
  · rw [if_pos hparc, if_pos (by simp [hparc])]
    exact hexit
  rw [if_neg hparc]
  cases hserver : (w.clients source).isServer with
  | false =>
    rw [if_pos (by simp)]
    rcases hcmd with rfl | rfl
    · simp only [World.msServer, hserver, Bool.not_false, if_true]
      exact hw
    · simp only [World.msSid, hserver, Bool.not_false, if_true]
      exact hw
  | true =>
    cases hexists : w.serverExists (param parv 1) with
    | some target =>
      rw [if_pos (by simp)]
      rcases hcmd with rfl | rfl
      · simp only [World.msServer, hserver, hexists, Bool.not_true, Bool.false_eq_true,
          if_false]
        split_ifs
        · exact hw
        · exact hexit
      · simp only [World.msSid, hserver, hexists, Bool.not_true, Bool.false_eq_true, if_false,
          Option.isSome_some, if_true, ite_self]
        exact hexit
    | none =>
      rw [if_neg (by simp [hparc])]
      have hintro := fun id info => hw.introduceServer cf id info hclient
        hcme hlive hserver hfrom hexists
      rcases hcmd with rfl | rfl
      · simp only [World.msServer, hserver, hexists, Bool.not_true, Bool.false_eq_true,
          if_false]
        exact hintro [] _
      · simp only [World.msSid, hserver, hexists, Bool.not_true, Bool.false_eq_true, if_false,
          Option.isSome_none]
        split_ifs
        · exact hexit
        · exact hintro _ _

variable {self : Identity}

theorem Sound.step (hw : Sound w) (cf : ServerConfig) (self : Identity) (i : ServerInput) :
    Outcome w (w.serverStep cf self i) (w.newServer cf (i.op self)) := by
  have hmessage : ∀ (client : Cid) (sender : CStr) (cmd : ServerCommand) (params : List CStr),
      (cmd = .server ∨ cmd = .sid) → Outcome w (w.step cf (.message client sender cmd params))
        (w.newServer cf (.message client sender cmd params)) := by
    intro client sender cmd params hcmd
    simp only [World.step, World.newServer]
    by_cases hguard : ((w.clients client).isDefunct || !(w.clients client).myConnect ||
        !(w.clients client).isServer) = true
    · rw [if_pos hguard, if_pos hguard]
      exact hw
    rw [if_neg hguard, if_neg hguard]
    simp only [Bool.or_eq_true, not_or, Bool.not_eq_true, Bool.not_eq_false'] at hguard
    have hlive : (w.clients client).isDead = false := by
      have := hguard.1.1
      simp only [Client.isDefunct, Bool.or_eq_false_iff] at this
      exact this.1.1
    cases hsource : w.lineSource client sender with
    | none => exact hw
    | some source =>
      obtain ⟨hs, hfrom⟩ := hw.lineSource_some hlive hsource
      exact hw.handleCommand hcmd hlive (hw.ne_me_of_server hguard.2) hs hfrom
  cases i with
  | connect sockhost => exact hw.connect sockhost
  | link client name id =>
    simp only [World.serverStep, ServerInput.op, World.step, World.newServer]
    set id' : CStr := if self.id = [] then [] else id
    by_cases hguard : (!(w.clients client).isDefunct && (w.clients client).myConnect &&
        (w.clients client).isUnknown && (w.clients client).name.isEmpty &&
          (w.clients client).id.isEmpty) = true
    · rw [if_pos hguard]
      simp only [Bool.and_eq_true, Bool.not_eq_true', List.isEmpty_iff, Client.isUnknown,
        beq_iff_eq] at hguard
      obtain ⟨⟨⟨⟨hdefunct, hconn⟩, hstatus⟩, hname⟩, hid⟩ := hguard
      have hparts := hdefunct
      simp only [Client.isDefunct, Bool.or_eq_false_iff] at hparts
      exact hw.mrServer ⟨hparts.1.1, hparts.1.2, hconn, hstatus, hname, hid⟩ name id' hdefunct
    · rw [Bool.not_eq_true] at hguard
      rw [hguard, if_neg Bool.false_ne_true, World.linked, hguard, if_pos (Bool.not_false)]
      exact hw
  | server client sender params => exact hmessage client sender .server params (.inl rfl)
  | sid client sender params => exact hmessage client sender .sid params (.inr rfl)
  | exit target =>
    simp only [World.serverStep, ServerInput.op, World.step, World.newServer]
    split_ifs with hguard
    · rw [Bool.and_eq_true, Bool.not_eq_true', Bool.not_eq_true'] at hguard
      refine hw.exitClient hguard.1 ?_
      rintro rfl
      have hstatus := ((hw.coherent.fits me).self rfl).1
      simp [Client.isMe, hstatus] at hguard
    · exact hw

theorem World.start_clients (key : Nat) (self : Identity) (c : Cid) :
    (World.start key self).clients c =
      if c = me then
        { (default : Client) with
          status := .me, name := self.name, id := self.id, localClient := some ⟨0, 0⟩ }
      else { (default : Client) with flags := {.deadsocket} } := by
  simp only [World.start]
  split_ifs <;> simp_all [World.hashAddClient, World.hashAddId]

theorem World.start_clientTable (key : Nat) (self : Identity) :
    (World.start key self).clientTable =
      Buckets.add (fun _ => []) (strhash key self.name) me := by
  simp only [World.start]
  split_ifs <;> simp [World.hashAddClient, World.hashAddId]

theorem World.start_idTable (key : Nat) (self : Identity) :
    (World.start key self).idTable =
      if self.id = [] then fun _ => [] else Buckets.add (fun _ => []) (strhash key self.id) me := by
  simp only [World.start]
  split_ifs <;> simp_all [World.hashAddClient, World.hashAddId]

theorem World.start_rest (key : Nat) (self : Identity) :
    (World.start key self).ircdRandomKey = key ∧ (World.start key self).next = 1 ∧
      (World.start key self).globalServList = [me] ∧ (World.start key self).deadList = [] ∧
      (World.start key self).serv =
        fun _ => { users := [], servers := [], depServers := 1, depUsers := 0 } := by
  simp only [World.start]
  split_ifs <;> simp [World.hashAddClient, World.hashAddId]

theorem sound_start (key : Nat) (self : Identity) : Sound (World.start key self) := by
  have hcl := World.start_clients key self
  obtain ⟨hkey, hnext, hlist, hdl, hserv⟩ := World.start_rest key self
  have hme := hcl me
  rw [if_pos rfl] at hme
  have hother : ∀ c, c ≠ me → ((World.start key self).clients c).isDead = true := by
    intro c hc
    rw [hcl, if_neg hc]
    simp [Client.isDead]
  have hlive : ((World.start key self).clients me).isDead = false := by
    rw [hme]
    rfl
  have honly : ∀ c, ((World.start key self).clients c).isDead = false → c = me := by
    intro c hc
    by_contra hne
    rw [hother c hne] at hc
    cases hc
  have hserver : ∀ c, ((World.start key self).clients c).isServer = false := by
    intro c
    rw [hcl]
    split_ifs <;> rfl
  have hclient : ∀ c, ((World.start key self).clients c).isClient = false := by
    intro c
    rw [hcl]
    split_ifs <;> rfl
  have hmem : ∀ c ∈ (World.start key self).globalServList, c = me := by
    intro c hc
    rw [hlist] at hc
    exact List.mem_singleton.mp hc
  refine ⟨⟨fun c => ?_, ?_, fun c hc => ?_, ?_, ?_, ?_, ?_, ?_⟩, ⟨fun {c} => ?_, ?_,
    fun c hc hs hne => absurd (honly c hc) hne, ?_, ?_, fun c hc d hd hne => ?_,
    fun c hc d hd hne => ?_, fun c hc d hd _ _ => ?_⟩, hlive⟩
  · by_cases hc : c = me
    · subst hc
      rw [hme]
      exact ⟨fun _ => ⟨rfl, rfl, rfl⟩, fun _ => rfl, fun _ _ => rfl, fun _ e => (by cases e),
        fun _ e _ => (by cases e), fun _ e _ => (by cases e), fun _ e => (by cases e)⟩
    · refine Fits.dead (hother c hc) (fun e => absurd e hc) fun e => ?_
      rw [hcl, if_neg hc] at e
      cases e
  · rw [hnext]
    exact Nat.zero_lt_one
  · rw [hnext] at hc
    exact hother c (Nat.ne_of_gt hc)
  · have hadd := (Buckets.files_empty (κ := Nat) (ι := Cid)).add
      (k := strhash key self.name) (c := me) rfl
    rw [World.start_clientTable, hkey]
    refine hadd.congr fun c => ?_
    by_cases hc : c = me
    · subst hc
      rw [update_self]
      exact Client.nameBucket_eq_some_iff.mpr ⟨hlive, by rw [hme]; exact self.named, by rw [hme]⟩
    · rw [update_of_ne hc]
      simp [Client.nameBucket, hother c hc]
  · rw [World.start_idTable, hkey]
    split_ifs with hid
    · refine Buckets.files_empty.congr fun c => ?_
      by_cases hc : c = me
      · subst hc
        simp [Client.idBucket, hme, hid]
      · simp [Client.idBucket, hother c hc]
    · have hadd := (Buckets.files_empty (κ := Nat) (ι := Cid)).add
        (k := strhash key self.id) (c := me) rfl
      refine hadd.congr fun c => ?_
      by_cases hc : c = me
      · subst hc
        rw [update_self]
        exact Client.idBucket_eq_some_iff.mpr ⟨hlive, by rw [hme]; exact hid, by rw [hme]⟩
      · rw [update_of_ne hc]
        simp [Client.idBucket, hother c hc]
  · rw [hserv]
    exact Buckets.files_empty.congr fun c => by simp [Client.userOf, hclient c]
  · rw [hserv]
    exact Buckets.files_empty.congr fun c => by simp [Client.serverOf, hserver c]
  · rw [hdl]
    intro c hc
    cases hc
  · rw [hlist, List.mem_singleton]
    simp [hserver c]
  · rw [hlist]
    exact List.nodup_singleton me
  · rw [hme]
    exact self.named
  · rw [hme]
    rfl
  · exact absurd ((hmem c hc).trans (hmem d hd).symm) hne
  · exact absurd ((hmem c hc).trans (hmem d hd).symm) hne
  · exact (hmem c hc).trans (hmem d hd).symm

/-! ### Runs -/

/-- A server that the step brings in is told from every known one. -/
def World.Distinguishable (cf : ServerConfig) (self : Identity) (w : World) (i : ServerInput) :
    Prop :=
  ∀ name id, w.newServer cf (i.op self) = some (name, id) → w.Unambiguous name id

theorem Sound.run_step (hw : Sound w) (i : ServerInput) (hi : w.Distinguishable cf self i) :
    Sound (w.serverStep cf self i) := by
  have hout := hw.step cf self i
  cases hnew : w.newServer cf (i.op self) with
  | none =>
    rw [hnew] at hout
    exact hout
  | some new =>
    obtain ⟨name, id⟩ := new
    rw [hnew] at hout
    obtain ⟨c, x, hadded, hcoherent, rfl, rfl⟩ := hout
    exact hw.added hadded hcoherent (hi _ _ hnew)

theorem Sound.bad_step (hw : Sound w) (i : ServerInput) (hi : ¬w.Distinguishable cf self i) :
    ¬(w.serverStep cf self i).ServerTree := by
  have hout := hw.step cf self i
  simp only [World.Distinguishable, not_forall] at hi
  obtain ⟨name, id, hnew, hambiguous⟩ := hi
  rw [hnew] at hout
  obtain ⟨c, x, hadded, -, rfl, rfl⟩ := hout
  exact hw.ambiguous hadded hambiguous

def openHub : ServerConfig where
  toConfig := default
  invisibleOnConnect := false
  operUmodes := ∅
  operOnlyUmodes := ∅
  hubItems := [("*".toList, "*".toList)]
  leafItems := []
  nickResv := fun _ => false

/-- A link introduces two servers whose identifiers are the same in their first
twelve characters. -/
def twoLongIds : List ServerInput :=
  [.connect [], .link 1 "b.x".toList "1BB".toList,
    .sid 1 [] ["c.x".toList, "2".toList, "123456789012A".toList, "c".toList],
    .sid 1 [] ["d.x".toList, "2".toList, "123456789012B".toList, "d".toList]]

def hubServer : Identity := ⟨"a.x".toList, "0AA".toList, by decide⟩

end Ircd
