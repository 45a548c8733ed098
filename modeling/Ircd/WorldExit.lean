import Ircd.WorldInvariant

/-!
Exits keep the invariant.

A server takes everything behind it along. The recursion of
`recurse_remove_clients` ends because a server is older than what is behind it,
and leaves the server without users and servers (`Coherent.recurseRemoveClients`).
A further property of the state goes along when each small step keeps it
(`Steady`).
-/

namespace Ircd

open Function

variable {w v u : World} {b c d s : Cid}

theorem Coherent.congr (h : Coherent w) (hcl : v.clients = w.clients) (hnext : v.next = w.next)
    (hkey : v.ircdRandomKey = w.ircdRandomKey) (hct : v.clientTable = w.clientTable)
    (hid : v.idTable = w.idTable) (hserv : v.serv = w.serv) (hdead : v.deadList = w.deadList) :
    Coherent v where
  fits := by rw [hcl]; exact h.fits
  pos := by rw [hnext]; exact h.pos
  fresh := by rw [hcl, hnext]; exact h.fresh
  names := by rw [hcl, hkey, hct]; exact h.names
  ids := by rw [hcl, hkey, hid]; exact h.ids
  users := by rw [hcl, hserv]; exact h.users
  servers := by rw [hcl, hserv]; exact h.servers
  exited := by rw [hcl, hnext, hdead]; exact h.exited

theorem Coherent.onClient (h : Coherent w) {f : Client → Client}
    (hf : (f (w.clients c)).SamePlace (w.clients c)) : Coherent (w.onClient c f) := by
  have heq : ∀ {α : Type} (g : Client → α), g (f (w.clients c)) = g (w.clients c) →
      (fun d => g ((w.onClient c f).clients d)) = fun d => g (w.clients d) := by
    intro α g hg
    funext d
    by_cases hd : d = c
    · simp [World.onClient, hd, hg]
    · simp [World.onClient, update_of_ne hd]
  refine ⟨?_, h.pos, ?_, ?_, ?_, ?_, ?_, ?_⟩
  · refine fits_update h.fits ((h.fits c).samePlace hf) fun d _ hd hr hup hme => ?_
    rcases ((h.fits d).uplink hd hr).2 with hself | ⟨hlive, hserver⟩
    · exact absurd (hup.symm.trans hself) hme
    · rw [hup] at hlive hserver
      exact ⟨hf.dead.trans hlive, hf.isServer.trans hserver, hf.from⟩
  · intro d hd
    exact (congrFun (heq Client.isDead hf.dead) d).trans (h.fresh d hd)
  · exact h.names.congr (congrFun (heq (fun x => x.nameBucket w.ircdRandomKey) (hf.nameBucket _)))
  · exact h.ids.congr (congrFun (heq (fun x => x.idBucket w.ircdRandomKey) (hf.idBucket _)))
  · exact h.users.congr (congrFun (heq _ hf.userOf))
  · exact h.servers.congr (congrFun (heq _ hf.serverOf))
  · intro d hd
    obtain ⟨hlt, hdead⟩ := h.exited d hd
    exact ⟨hlt, (congrFun (heq Client.isDead hf.dead) d).trans hdead⟩

/-! ### What exits leave alone -/

/-- `v` is `w` after exits of clients that are behind servers from `b` on. -/
structure Shrunk (b : Cid) (w v : World) : Prop where
  next : v.next = w.next
  exits : ∀ d, v.clients d = w.clients d ∨ v.clients d = (w.clients d).setFlag .deadsocket
  kept : ∀ d, (w.clients d).servptr < b → v.clients d = w.clients d

theorem Shrunk.refl (b : Cid) (w : World) : Shrunk b w w := ⟨rfl, fun _ => .inl rfl, fun _ _ => rfl⟩

theorem Shrunk.mono (h : Shrunk c w v) (hb : b ≤ c) : Shrunk b w v :=
  ⟨h.next, h.exits, fun d hd => h.kept d (Nat.lt_of_lt_of_le hd hb)⟩

theorem Shrunk.trans (h₁ : Shrunk b w v) (h₂ : Shrunk b v u) : Shrunk b w u where
  next := h₂.next.trans h₁.next
  exits d := by
    rcases h₁.exits d with h | h <;> rcases h₂.exits d with h' | h' <;> rw [h', h]
    · exact .inl rfl
    · exact .inr rfl
    · exact .inr rfl
    · exact .inr (by simp [Client.setFlag])
  kept d hd := by
    have hv := h₁.kept d hd
    rw [h₂.kept d (hv ▸ hd), hv]

theorem Shrunk.eq_of_live (h : Shrunk b w v) (hd : (v.clients d).isDead = false) :
    v.clients d = w.clients d := by
  rcases h.exits d with h | h
  · exact h
  · simp [h] at hd

theorem Shrunk.dead (h : Shrunk b w v) (hd : (w.clients d).isDead = true) :
    (v.clients d).isDead = true := by
  rcases h.exits d with h | h
  · rwa [h]
  · rw [h]
    exact Client.isDead_setDead

theorem Coherent.shrunk_exitOneClient (hb : b ≤ (w.clients c).servptr) :
    Shrunk b w (w.exitOneClient c) := by
  obtain ⟨hcl, _, hnext, _⟩ := exitOneClient_fields w c
  refine ⟨hnext, fun d => ?_, fun d hd => ?_⟩
  · rw [hcl]
    by_cases h : d = c
    · exact .inr (by simp [h])
    · exact .inl (update_of_ne h ..)
  · rw [hcl]
    refine update_of_ne ?_ ..
    rintro rfl
    exact absurd hb (Nat.not_le_of_lt hd)

/-! ### A property that goes along -/

/-- A property of the state that every part of an exit keeps. -/
structure Steady (I : World → Prop) : Prop where
  /-- The exit of a client behind which nothing is left, other than a local user. -/
  exit : ∀ {w c}, Coherent w → I w → (w.clients c).isDead = false →
    ((w.clients c).isServer = true → (w.serv c).users = [] ∧ (w.serv c).servers = []) →
    ((w.clients c).isClient = true → (w.clients c).myConnect = false) → I (w.exitOneClient c)
  /-- The exit of a local user. -/
  exitLocal : ∀ {w c}, Coherent w → I w → (w.clients c).isDead = false →
    (w.clients c).isClient = true → (w.clients c).myConnect = true →
    I ((w.closeLocal c).exitOneClient c)
  /-- The connection of anything else is closed. -/
  close : ∀ {w c}, Coherent w → I w → (w.clients c).isDead = false →
    (w.clients c).isClient = false →
    I (w.closeLocal c)
  /-- The assertion after everything behind a server is gone. -/
  check : ∀ {w c}, Coherent w → I w → (w.clients c).isDead = false → (w.clients c).isServer = true →
    (w.serv c).users = [] → (w.serv c).servers = [] →
    I (w.assert ((w.serv c).depServers = 1 ∧ (w.serv c).depUsers = 0))

variable {I : World → Prop}

theorem Coherent.not_me (h : Coherent w) (hs : (w.clients s).isServer = true) : s ≠ me := by
  rintro rfl
  simp [Client.isServer, ((h.fits me).self rfl).1] at hs

theorem Coherent.remote_of_behind (h : Coherent w) (hs : s ≠ me) (hd : (w.clients d).isDead = false)
    (hr : (w.clients d).isRegistered = true) (hup : (w.clients d).servptr = s) :
    (w.clients d).myConnect = false := by
  by_contra hm
  rw [Bool.not_eq_false] at hm
  exact hs (hup.symm.trans ((h.fits d).localUplink hd hr hm))

/-- Users or servers behind a server exit with what is behind them, one after the other, when
`f` does the work for each of them. -/
theorem Coherent.exit_each (steady : Steady I) (hs : s ≠ me) {p : Client → Bool}
    (hp : ∀ {x : Client}, p x = true → x.isRegistered = true) {f : World → Cid → World}
    (hf : ∀ {w c}, Coherent w → I w → (w.clients c).isDead = false → p (w.clients c) = true →
      (w.clients c).servptr = s → w.next = u.next →
      Coherent (f w c) ∧ I (f w c) ∧ Shrunk c w (f w c) ∧ (((f w c).clients c).isServer = true →
        ((f w c).serv c).users = [] ∧ ((f w c).serv c).servers = []))
    {l : List Cid} (h : Coherent w) (hI : I w) (hnext : w.next = u.next)
    (hl : ∀ c ∈ l, (w.clients c).isDead = false ∧ p (w.clients c) = true ∧
      (w.clients c).servptr = s) (hnodup : l.Nodup) :
    Coherent (l.foldl (fun w c => (f w c).exitOneClient c) w) ∧
      I (l.foldl (fun w c => (f w c).exitOneClient c) w) ∧
      Shrunk s w (l.foldl (fun w c => (f w c).exitOneClient c) w) ∧
      ∀ c ∈ l, ((l.foldl (fun w c => (f w c).exitOneClient c) w).clients c).isDead = true := by
  induction l generalizing w with
  | nil => exact ⟨h, hI, .refl s w, by simp⟩
  | cons c l ih =>
    obtain ⟨hdead, hreg, hup⟩ := hl c List.mem_cons_self
    obtain ⟨hnot, hrest⟩ := List.nodup_cons.mp hnodup
    have hlt : s < c := hup ▸ ((h.fits c).uplink hdead (hp hreg)).1
    obtain ⟨hlinked, hkept, hshrunk, hleaf⟩ := hf h hI hdead hreg hup hnext
    -- `c` itself and its siblings are behind `s`, so the recursion left them alone
    have hold : ∀ d, (w.clients d).servptr = s → (f w c).clients d = w.clients d :=
      fun d hd => hshrunk.kept d (hd ▸ hlt)
    rw [← hold c hup] at hdead hreg hup
    have hlinked' := hlinked.exitOneClient hdead hleaf
    have hkept' := steady.exit hlinked hkept hdead hleaf fun _ =>
      hlinked.remote_of_behind hs hdead (hp hreg) hup
    have hcl := (exitOneClient_fields (f w c) c).1
    have hthis : Shrunk s w ((f w c).exitOneClient c) :=
      (hshrunk.mono (Nat.le_of_lt hlt)).trans
        (Coherent.shrunk_exitOneClient (Nat.le_of_eq hup.symm))
    obtain ⟨h₁, h₂, h₃, h₄⟩ := ih hlinked' hkept' (hthis.next.trans hnext) (fun d hd => by
      have hne : d ≠ c := fun e => hnot (e ▸ hd)
      obtain ⟨ha, hb, hc⟩ := hl d (List.mem_cons_of_mem _ hd)
      rw [hcl, update_of_ne hne, hold d hc]
      exact ⟨ha, hb, hc⟩) hrest
    refine ⟨h₁, h₂, hthis.trans h₃, ?_⟩
    intro d hd
    rcases List.mem_cons.mp hd with rfl | hd
    · exact h₃.dead (by rw [hcl, update_self]; exact Client.isDead_setDead)
    · exact h₄ d hd

theorem Coherent.recurseRemoveClients (steady : Steady I) (fuel : Nat) (h : Coherent w) (hI : I w)
    (hdead : (w.clients s).isDead = false) (hserver : (w.clients s).isServer = true)
    (hfuel : w.next < fuel + s) :
    Coherent (World.recurseRemoveClients fuel w s) ∧ I (World.recurseRemoveClients fuel w s) ∧
      Shrunk s w (World.recurseRemoveClients fuel w s) ∧
      ((World.recurseRemoveClients fuel w s).serv s).users = [] ∧
      ((World.recurseRemoveClients fuel w s).serv s).servers = [] := by
  induction fuel generalizing w s with
  | zero =>
    rw [Nat.zero_add] at hfuel
    exact absurd (h.lt_next hdead) (Nat.lt_asymm hfuel)
  | succ fuel ih =>
    have hs := h.not_me hserver
    have hme : (w.clients s).servptr < s :=
      ((h.fits s).uplink hdead (by simp [Client.isRegistered, hserver])).1
    obtain ⟨h₁, hI₁, hsh₁, hout₁⟩ := h.exit_each steady hs (p := Client.isClient) (u := w)
      (fun hclient => by simp [Client.isRegistered, hclient]) (f := fun w _ => w)
      (fun hv hIv _ hclient _ _ => ⟨hv, hIv, .refl _ _, fun hserver => by
        simp [Client.isClient_of_isServer hserver] at hclient⟩) hI rfl (l := (w.serv s).users)
      (fun c hc => Client.userOf_eq_some_iff.mp (h.users.mem.mp hc)) (h.users.nodup s)
    set w₁ := (w.serv s).users.foldl World.exitOneClient w with hw₁
    have hs₁ := hsh₁.kept s hme
    have hserverp : ∀ {x : Client}, x.isServer = true → x.isRegistered = true := fun hx => by
      simp [Client.isRegistered, hx]
    obtain ⟨h₂, hI₂, hsh₂, hout₂⟩ := h₁.exit_each steady hs (p := Client.isServer) (u := w₁)
      hserverp (f := World.recurseRemoveClients fuel) (fun {v c} hv hIv hd hsv hup hn => by
        have hlt := ((hv.fits c).uplink hd (hserverp hsv)).1
        rw [hup] at hlt
        obtain ⟨ha, hb, hc, hleaf⟩ := ih hv hIv hd hsv (by
          rw [hn, hsh₁.next]
          refine Nat.lt_of_lt_of_le hfuel ?_
          rw [Nat.add_assoc, Nat.add_comm 1 s]
          exact Nat.add_le_add_left hlt fuel)
        exact ⟨ha, hb, hc, fun _ => hleaf⟩) hI₁ rfl (l := (w₁.serv s).servers) (fun c hc =>
        Client.serverOf_eq_some_iff.mp (h₁.servers.mem.mp hc)) (h₁.servers.nodup s)
    set w₂ := (w₁.serv s).servers.foldl
      (fun w c => (World.recurseRemoveClients fuel w c).exitOneClient c) w₁ with hw₂
    have hs₂ : w₂.clients s = w.clients s := (hsh₂.kept s (hs₁ ▸ hme)).trans hs₁
    -- a member of a list now would have been a member of it before
    have hu : (w₂.serv s).users = [] := by
      refine List.eq_nil_iff_forall_not_mem.mpr fun d hd => ?_
      have hof := h₂.users.mem.mp hd
      have hlive := (Client.userOf_eq_some_iff.mp hof).1
      have hmem : d ∈ (w.serv s).users := by
        refine h.users.mem.mpr ?_
        rw [← (hsh₁.trans hsh₂).eq_of_live hlive]
        exact hof
      simp [hsh₂.dead (hout₁ d hmem)] at hlive
    have hsv : (w₂.serv s).servers = [] := by
      refine List.eq_nil_iff_forall_not_mem.mpr fun d hd => ?_
      have hof := h₂.servers.mem.mp hd
      have hlive := (Client.serverOf_eq_some_iff.mp hof).1
      have hmem : d ∈ (w₁.serv s).servers := by
        refine h₁.servers.mem.mpr ?_
        rw [← hsh₂.eq_of_live hlive]
        exact hof
      simp [hout₂ d hmem] at hlive
    refine ⟨h₂.congr rfl rfl rfl rfl rfl rfl rfl,
      steady.check h₂ hI₂ (hs₂ ▸ hdead) (hs₂ ▸ hserver) hu hsv, ?_, hu, hsv⟩
    exact ⟨(hsh₁.trans hsh₂).next, (hsh₁.trans hsh₂).exits, (hsh₁.trans hsh₂).kept⟩

/-! ### `exit_client` -/

theorem closeLocal_fields (w : World) (c : Cid) :
    (w.closeLocal c).clients = update w.clients c ((w.clients c).setFlag .closing) ∧
      (w.closeLocal c).next = w.next ∧ (w.closeLocal c).ircdRandomKey = w.ircdRandomKey ∧
      (w.closeLocal c).clientTable = w.clientTable ∧ (w.closeLocal c).idTable = w.idTable ∧
      (w.closeLocal c).serv = w.serv ∧ (w.closeLocal c).deadList = w.deadList ∧
      (w.closeLocal c).assertsHold = w.assertsHold ∧
      (w.closeLocal c).currentTime = w.currentTime := by
  simp only [World.closeLocal]
  split_ifs <;> simp [World.onClient, World.onCount]

theorem World.exitClient_cases (w : World) (c : Cid) :
    w.exitClient c = w ∨
      ((w.clients c).myConnect = true ∧ w.exitClient c =
        (if (w.clients c).isServer then
          World.recurseRemoveClients ((w.closeLocal c).next + 1) (w.closeLocal c) c
        else w.closeLocal c).exitOneClient c) ∨
      ((w.clients c).myConnect = false ∧ w.exitClient c =
        (if (w.clients c).isServer then World.recurseRemoveClients (w.next + 1) w c
        else w).exitOneClient c) := by
  simp only [World.exitClient]
  cases (w.clients c).myConnect with
  | true =>
    cases (w.clients c).isClosing with
    | true => exact .inl rfl
    | false => exact .inr (.inl ⟨rfl, rfl⟩)
  | false => exact .inr (.inr ⟨rfl, rfl⟩)

theorem Coherent.closeLocal (h : Coherent w) : Coherent (w.closeLocal c) := by
  obtain ⟨hcl, hnext, hkey, hct, hid, hserv, hdead, _⟩ := closeLocal_fields w c
  exact (h.onClient (c := c) (f := (·.setFlag .closing))
    (Client.samePlace_setFlag (by decide))).congr hcl hnext hkey hct hid hserv hdead

theorem Coherent.exitClient (steady : Steady I) (h : Coherent w) (hI : I w)
    (hc : (w.clients c).isDead = false) : Coherent (w.exitClient c) ∧ I (w.exitClient c) := by
  have hcl := (closeLocal_fields w c).1
  have hsame : ((w.closeLocal c).clients c).SamePlace (w.clients c) := by
    rw [hcl, update_self]
    exact Client.samePlace_setFlag (by decide)
  rcases World.exitClient_cases w c with heq | ⟨hm, heq⟩ | ⟨hm, heq⟩ <;> rw [heq]
  · exact ⟨h, hI⟩
  -- the connection is closed first
  · cases hserver : (w.clients c).isServer with
    | true =>
      have hclose := steady.close h hI hc (Client.isClient_of_isServer hserver)
      obtain ⟨h₁, hI₁, hsh, hu, hs⟩ := h.closeLocal.recurseRemoveClients steady
        ((w.closeLocal c).next + 1) hclose (hsame.dead.trans hc)
        (hsame.isServer.trans hserver)
        (Nat.lt_of_lt_of_le (Nat.lt_succ_self _) (Nat.le_add_right _ _))
      have hup := ((h.fits c).uplink hc (by simp [Client.isRegistered, hserver])).1
      have hkept := hsh.kept c (by rwa [hsame.servptr])
      have hlive := (congrArg Client.isDead hkept).trans (hsame.dead.trans hc)
      have hnot : ((World.recurseRemoveClients ((w.closeLocal c).next + 1) (w.closeLocal c)
          c).clients c).isClient = false := by
        rw [hkept, hsame.isClient, Client.isClient_of_isServer hserver]
      simp only [if_true]
      exact ⟨h₁.exitOneClient hlive fun _ => ⟨hu, hs⟩,
        steady.exit h₁ hI₁ hlive (fun _ => ⟨hu, hs⟩) (by simp [hnot])⟩
    | false =>
      simp only [Bool.false_eq_true, if_false]
      have notServer : ((w.closeLocal c).clients c).isServer = true → False := by
        rw [hsame.isServer, hserver]
        simp
      refine ⟨h.closeLocal.exitOneClient (hsame.dead.trans hc) fun hs => (notServer hs).elim, ?_⟩
      cases hclient : (w.clients c).isClient with
      | true => exact steady.exitLocal h hI hc hclient hm
      | false =>
        exact steady.exit h.closeLocal (steady.close h hI hc hclient) (hsame.dead.trans hc)
          (fun hs => (notServer hs).elim) (by simp [hsame.isClient, hclient])
  · cases hserver : (w.clients c).isServer with
    | true =>
      obtain ⟨h₁, hI₁, hsh, hu, hs⟩ := h.recurseRemoveClients steady (w.next + 1) hI hc
        hserver (Nat.lt_of_lt_of_le (Nat.lt_succ_self _) (Nat.le_add_right _ _))
      have hkept := hsh.kept c ((h.fits c).uplink hc (by simp [Client.isRegistered, hserver])).1
      have hlive := (congrArg Client.isDead hkept).trans hc
      simp only [if_true]
      refine ⟨h₁.exitOneClient hlive fun _ => ⟨hu, hs⟩,
        steady.exit h₁ hI₁ hlive (fun _ => ⟨hu, hs⟩) ?_⟩
      rw [hkept, Client.isClient_of_isServer hserver]
      simp
    | false =>
      simp only [Bool.false_eq_true, if_false]
      exact ⟨h.exitOneClient hc (by simp [hserver]),
        steady.exit h hI hc (by simp [hserver]) fun _ => hm⟩

/-! ### The exit of a client that is no server -/

/-- `v` is `w` without the client `c`. -/
structure Without (c : Cid) (w v : World) : Prop where
  next : v.next = w.next
  key : v.ircdRandomKey = w.ircdRandomKey
  time : v.currentTime = w.currentTime
  record : ∃ fl, v.clients = update w.clients c { w.clients c with flags := fl }
  table : v.clientTable = w.clientTable ∨ ∃ k, v.clientTable = Buckets.del w.clientTable k c
  idTable : v.idTable = w.idTable ∨ ∃ k, v.idTable = Buckets.del w.idTable k c

theorem Without.refl (c : Cid) (w : World) : Without c w w :=
  ⟨rfl, rfl, rfl, ⟨(w.clients c).flags, (update_eq_self c _).symm⟩, .inl rfl, .inl rfl⟩

theorem Without.of_ne (h : Without c w v) (hd : d ≠ c) : v.clients d = w.clients d := by
  obtain ⟨fl, hcl⟩ := h.record
  rw [hcl, update_of_ne hd]

theorem Without.eq_flags (h : Without c w v) (d : Cid) :
    ∃ fl, v.clients d = { w.clients d with flags := fl } := by
  obtain ⟨fl, hcl⟩ := h.record
  by_cases hd : d = c
  · exact ⟨fl, by rw [hcl, hd, update_self]⟩
  · exact ⟨(w.clients d).flags, by rw [h.of_ne hd]⟩

theorem without_exitOneClient (w : World) (c : Cid) : Without c w (w.exitOneClient c) := by
  obtain ⟨hcl, hkey, hnext, _, _, _, htime⟩ := exitOneClient_fields w c
  refine ⟨hnext, hkey, htime, ⟨_, hcl⟩, ?_, ?_⟩
  · rw [clientTable_exitOneClient]
    split_ifs
    · exact .inl rfl
    · exact .inr ⟨_, rfl⟩
  · rw [idTable_exitOneClient]
    split_ifs
    · exact .inl rfl
    · exact .inr ⟨_, rfl⟩

theorem without_exitClient (hs : (w.clients c).isServer = false) : Without c w
    (w.exitClient c) := by
  rcases World.exitClient_cases w c with heq | ⟨_, heq⟩ | ⟨_, heq⟩
  · rw [heq]
    exact .refl c w
  · obtain ⟨hcl, hnext, hkey, hct, hid, _, _, _, htime⟩ := closeLocal_fields w c
    rw [heq, hs]
    obtain ⟨h₁, h₂, h₃, ⟨fl, h₄⟩, h₅, h₆⟩ := without_exitOneClient (w.closeLocal c) c
    refine ⟨h₁.trans hnext, h₂.trans hkey, h₃.trans htime, ⟨fl, ?_⟩, ?_, ?_⟩
    · refine h₄.trans ?_
      rw [hcl, update_self, update_idem]
      rfl
    · rwa [hct] at h₅
    · rwa [hid] at h₆
  · rw [heq, hs]
    exact without_exitOneClient w c

section Search

variable {nick : CStr}

end Search

end Ircd
