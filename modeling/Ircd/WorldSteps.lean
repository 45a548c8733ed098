import Ircd.WorldExit
import Mathlib.Data.List.Find

/-!
Every small operation keeps the invariant: a client is made, renamed, given an
identifier, registered, linked as a server or introduced behind one.
-/

namespace Ircd

open Function
open Buckets (Files)

variable {w v : World} {b c d s : Cid} {x : Client} {I : World → Prop}

/-! ### Names -/

/-! ### What is found is alive -/

theorem Client.nameBucket_eq_some_iff {key k : Nat} :
    x.nameBucket key = some k ↔ x.isDead = false ∧ x.name ≠ [] ∧ strhash key x.name = k := by
  simp [Client.nameBucket, and_assoc]

theorem Client.idBucket_eq_some_iff {key k : Nat} :
    x.idBucket key = some k ↔ x.isDead = false ∧ x.id ≠ [] ∧ strhash key x.id = k := by
  simp [Client.idBucket, and_assoc]

theorem Coherent.findClient_some (h : Coherent w) {name : CStr} (hc : w.findClient name = some c) :
    (w.clients c).isDead = false ∧ ircEq name (w.clients c).name = true := by
  have hmem := List.mem_of_find?_eq_some hc
  exact ⟨(Client.nameBucket_eq_some_iff.mp (h.names.mem.mp hmem)).1,
    by simpa using List.find?_some hc⟩

theorem Coherent.hashFindId_some (h : Coherent w) {name : CStr} (hc : w.hashFindId name = some c) :
    (w.clients c).isDead = false ∧ ircEq name (w.clients c).id = true := by
  have hmem := List.mem_of_find?_eq_some hc
  exact ⟨(Client.idBucket_eq_some_iff.mp (h.ids.mem.mp hmem)).1, by simpa using List.find?_some hc⟩

theorem Coherent.findServerName_some (h : Coherent w) {name : CStr}
    (hc : w.findServerName name = some c) : (w.clients c).isDead = false := by
  have hmem := List.mem_of_find?_eq_some hc
  exact (Client.nameBucket_eq_some_iff.mp (h.names.mem.mp hmem)).1

theorem Coherent.hashFindMaskedServer_some (h : Coherent w) {name : CStr}
    (hc : w.hashFindMaskedServer name = some c) : (w.clients c).isDead = false := by
  unfold World.hashFindMaskedServer at hc
  split_ifs at hc
  obtain ⟨m, _, hm⟩ := List.exists_of_findSome?_eq_some hc
  exact (h.findClient_some hm).1

theorem Coherent.findServer_some (h : Coherent w) {name : CStr} (hc : w.findServer name = some c) :
    (w.clients c).isDead = false := by
  simp only [World.findServer, Option.or_eq_some_iff] at hc
  rcases hc with (hc | ⟨_, hc⟩) | ⟨_, hc⟩
  · split_ifs at hc
    exact (h.hashFindId_some hc).1
  · exact h.findServerName_some hc
  · exact h.hashFindMaskedServer_some hc

/-! ### Changes of one client -/

theorem Coherent.nothing_behind (h : Coherent w)
    (hc : (w.clients c).isDead = false → (w.clients c).isServer = false)
    (hd : (w.clients d).isDead = false) (hr : (w.clients d).isRegistered = true)
    (hup : (w.clients d).servptr = c) : c = me := by
  rcases ((h.fits d).uplink hd hr).2 with hself | ⟨hlive, hserver⟩
  · exact hup.symm.trans hself
  · rw [hup] at hlive hserver
    simp [hc hlive] at hserver

theorem Coherent.lists_empty (h : Coherent w) (hme : c ≠ me)
    (hc : (w.clients c).isDead = false → (w.clients c).isServer = false) :
    (w.serv c).users = [] ∧ (w.serv c).servers = [] := by
  constructor
  · refine List.eq_nil_iff_forall_not_mem.mpr fun d hd => ?_
    obtain ⟨hlive, hclient, hup⟩ := Client.userOf_eq_some_iff.mp (h.users.mem.mp hd)
    exact hme (h.nothing_behind hc hlive (by simp [Client.isRegistered, hclient]) hup)
  · refine List.eq_nil_iff_forall_not_mem.mpr fun d hd => ?_
    obtain ⟨hlive, hserver, hup⟩ := Client.serverOf_eq_some_iff.mp (h.servers.mem.mp hd)
    exact hme (h.nothing_behind hc hlive (by simp [Client.isRegistered, hserver]) hup)

theorem Coherent.place (h : Coherent w)
    (hold : (w.clients c).isDead = false → (w.clients c).isServer = false)
    (hcl : v.clients = update w.clients c x) (hkey : v.ircdRandomKey = w.ircdRandomKey)
    (hc : c < v.next) (hle : w.next ≤ v.next) (hdead : v.deadList = w.deadList)
    (hfresh : (w.clients c).isDead = false ∨ w.next ≤ c) (fits : Fits w.clients c x)
    (names : Files v.clientTable (update
      (fun c => (w.clients c).nameBucket w.ircdRandomKey) c (x.nameBucket w.ircdRandomKey)))
    (ids : Files v.idTable (update
      (fun c => (w.clients c).idBucket w.ircdRandomKey) c (x.idBucket w.ircdRandomKey)))
    (users : Files (fun s => (v.serv s).users) (update
      (fun c => (w.clients c).userOf) c x.userOf))
    (servers : Files (fun s => (v.serv s).servers) (update
      (fun c => (w.clients c).serverOf) c x.serverOf)) : Coherent v := by
  refine h.put hcl hkey hc hle fits
    (fun d _ hd hr hup hme => absurd (h.nothing_behind hold hd hr hup) hme) names ids users servers
    fun d hd => .inl ⟨hdead ▸ hd, ?_⟩
  rintro rfl
  obtain ⟨hlt, hd⟩ := h.exited d (hdead ▸ hd)
  rcases hfresh with hlive | hge
  · simp [hlive] at hd
  · exact Nat.not_le_of_lt hlt hge

theorem Fits.unknown {cl : Clients} (hme : c ≠ me) (hx : x.status = .unknown)
    (hdir : x.myConnect = true → x.from = c) : Fits cl c x := by
  have hr : x.isRegistered = false := by
    simp [Client.isRegistered, Client.isServer, Client.isClient, hx]
  refine ⟨fun e => absurd e hme, fun e => ?_, fun _ => hdir, fun _ e => ?_, fun _ e => ?_,
    fun _ e => ?_, fun _ e => ?_⟩
  · simp [hx] at e
  · simp [hr] at e
  · simp [hr] at e
  · simp [hr] at e
  · simp [Client.isServer, hx] at e

theorem Coherent.newcomer (h : Coherent w) (hx : x.status = .unknown) (hname : x.name = [])
    (hid : x.id = []) (hdir : x.myConnect = true → x.from = w.next)
    (hcl : v.clients = update w.clients w.next x)
    (hkey : v.ircdRandomKey = w.ircdRandomKey) (hnext : v.next = w.next + 1)
    (hct : v.clientTable = w.clientTable) (hidt : v.idTable = w.idTable) (hserv : v.serv = w.serv)
    (hdl : v.deadList = w.deadList) : Coherent v := by
  have hdead := h.fresh w.next (Nat.le_refl _)
  have hr : x.isServer = false ∧ x.isClient = false := by
    simp [Client.isServer, Client.isClient, hx]
  refine h.place (c := w.next) (by simp [hdead]) hcl hkey (hnext ▸ Nat.lt_succ_self _)
    (hnext ▸ Nat.le_succ _) hdl (.inr (Nat.le_refl _))
    (Fits.unknown (Nat.ne_of_gt h.pos) hx hdir) ?_ ?_ ?_ ?_
  · rw [hct, show x.nameBucket w.ircdRandomKey = none by simp [Client.nameBucket, hname]]
    exact h.names.absent (by simp [Client.nameBucket, hdead])
  · rw [hidt, show x.idBucket w.ircdRandomKey = none by simp [Client.idBucket, hid]]
    exact h.ids.absent (by simp [Client.idBucket, hdead])
  · rw [hserv, show x.userOf = none by simp [Client.userOf, hr]]
    exact h.users.absent (by simp [Client.userOf, hdead])
  · rw [hserv, show x.serverOf = none by simp [Client.serverOf, hr]]
    exact h.servers.absent (by simp [Client.serverOf, hdead])

theorem Coherent.makeLocalClient (h : Coherent w) (sockhost : CStr) :
    Coherent (w.makeLocalClient sockhost) :=
  h.newcomer rfl rfl rfl (fun _ => rfl) rfl rfl rfl rfl rfl rfl rfl

theorem strlcpy_ne_nil {s : CStr} {size : Nat} (hs : s ≠ []) (hsize : 1 < size) :
    strlcpy s size ≠ [] := by
  cases s with
  | nil => exact absurd rfl hs
  | cons a s =>
    obtain ⟨n, rfl⟩ : ∃ n, size = n + 2 := ⟨size - 2, by omega⟩
    simp [strlcpy]

/-! ### Users of other servers -/

theorem World.beforeLookup_clients (username host : CStr) :
    (w.beforeLookup c username host).clients = update w.clients c
      { w.clients c with
        host := strlcpy host (HOSTLEN + 1), username := strlcpy username (USERLEN + 1) } := rfl

/-- `v` is `w` up to the modes of one client and the counters of users. -/
structure SameButModes (c : Cid) (w v : World) : Prop where
  modes : ∃ modes, v.clients = update w.clients c { w.clients c with umodes := modes }
  key : v.ircdRandomKey = w.ircdRandomKey
  time : v.currentTime = w.currentTime
  serv : v.serv = w.serv
  next : v.next = w.next
  table : v.clientTable = w.clientTable
  idTable : v.idTable = w.idTable
  deadList : v.deadList = w.deadList
  asserts : v.assertsHold = w.assertsHold

theorem SameButModes.refl (c : Cid) (w : World) : SameButModes c w w :=
  ⟨⟨(w.clients c).umodes, (update_eq_self c _).symm⟩, rfl, rfl, rfl, rfl, rfl, rfl, rfl,
    rfl⟩

theorem SameButModes.trans {u : World} (h₁ : SameButModes c w v) (h₂ : SameButModes c v u) :
    SameButModes c w u := by
  obtain ⟨m₁, e₁⟩ := h₁.modes
  obtain ⟨m₂, e₂⟩ := h₂.modes
  refine ⟨⟨m₂, ?_⟩, h₂.key.trans h₁.key, h₂.time.trans h₁.time, h₂.serv.trans h₁.serv,
    h₂.next.trans h₁.next, h₂.table.trans h₁.table, h₂.idTable.trans h₁.idTable,
    h₂.deadList.trans h₁.deadList, h₂.asserts.trans h₁.asserts⟩
  rw [e₂, e₁, update_self, update_idem]

theorem sameButModes_onCount (c : Cid) (w : World) (f : Count → Count) :
    SameButModes c w (w.onCount f) :=
  ⟨⟨(w.clients c).umodes, (update_eq_self c _).symm⟩, rfl, rfl, rfl, rfl, rfl, rfl, rfl,
    rfl⟩

theorem sameButModes_umodes (c : Cid) (w : World) (f : Finset UMode → Finset UMode) :
    SameButModes c w (w.onClient c fun x => { x with umodes := f x.umodes }) :=
  ⟨⟨f (w.clients c).umodes, rfl⟩, rfl, rfl, rfl, rfl, rfl, rfl, rfl, rfl⟩

theorem SameButModes.self (h : SameButModes c w v) :
    ∃ modes, v.clients c = { w.clients c with umodes := modes } := by
  obtain ⟨modes, hcl⟩ := h.modes
  exact ⟨modes, by rw [hcl, update_self]⟩

theorem SameButModes.of_ne (h : SameButModes c w v) (hd : d ≠ c) : v.clients d = w.clients d := by
  obtain ⟨modes, hcl⟩ := h.modes
  rw [hcl, update_of_ne hd]

theorem sameButModes_introUmode (onlyNew : Bool) (c : Cid) (w : World) (m : Char) :
    SameButModes c w (World.introUmode onlyNew c w m) := by
  unfold World.introUmode
  cases userModes m with
  | none => exact .refl c w
  | some flag =>
    have hstep : ∀ {v : World} (p : Prop) [Decidable p] (f : Count → Count),
        SameButModes c w v → SameButModes c w (if p then v.onCount f else v) := by
      intro v p _ f h
      split_ifs
      · exact h.trans (sameButModes_onCount c v f)
      · exact h
    have htwo := hstep (flag = .oper ∧ !(onlyNew && (w.clients c).isOper))
      (fun n => { n with oper := n.oper + 1 })
      (hstep (flag = .invisible ∧ !(onlyNew && (w.clients c).isInvisible))
        (fun n => { n with invisi := n.invisi + 1 }) (.refl c w))
    simp only
    split_ifs at htwo ⊢ <;>
      first
        | exact htwo
        | exact htwo.trans (sameButModes_umodes c _ (insert flag))

theorem sameButModes_introUmodes (onlyNew : Bool) (c : Cid) (w : World) (l : CStr) :
    SameButModes c w (l.foldl (World.introUmode onlyNew c) w) := by
  induction l generalizing w with
  | nil => exact .refl c w
  | cons m l ih => exact (sameButModes_introUmode onlyNew c w m).trans (ih _)

/-! ### A newcomer does not change what servers are found -/

variable {nick : CStr}

theorem find_newcomer {t t' : Nat → List Cid} {loc : Cid → Option Nat} (ht : Files t loc)
    (hloc : loc c = none) (hadd : t' = t ∨ ∃ k, t' = Buckets.add t k c) {p q : Cid → Bool}
    (hpq : ∀ d, d ≠ c → q d = p d) (hq : q c = false) (k : Nat) :
    (t' k).find? q = (t k).find? p := by
  have hold : (t k).find? q = (t k).find? p := by
    refine List.find?_congr fun d hd => hpq d ?_
    rintro rfl
    have := ht.mem.mp hd
    simp [hloc] at this
  rcases hadd with rfl | ⟨k', rfl⟩
  · exact hold
  · rw [Buckets.find_add hq, hold]

end Ircd
