import Ircd.Burst

/-!
What every run of the network keeps: the lists hold the live clients, a server
stands in `global_serv_list` behind the one it is linked to, and no client is marked
as bursted.
-/

namespace Ircd

open Function

namespace Network

variable {s s' : Network} {c d : Cid} {x : NetClient}

/-- The invariant of the network. -/
structure NetInv (s : Network) : Prop where
  live : ∀ c, c ∈ s.globalClientList ↔ (s.clients c).isDead = false
  clientsNodup : s.globalClientList.Nodup
  serversNodup : s.globalServList.Nodup
  servers : ∀ c, c ∈ s.globalServList ↔
    c = me ∨ (s.clients c).isDead = false ∧ (s.clients c).isServer = true
  self : (s.clients me).status = .me ∧ (s.clients me).from = me ∧ (s.clients me).servptr = me ∧
    (s.clients me).isDead = false ∧ (s.clients me).name ≠ []
  single : ∀ c, (s.clients c).status = .me → c = me
  fresh : ∀ c, s.next ≤ c → (s.clients c).isDead = true
  pos : me < s.next
  named : ∀ c ∈ s.globalServList, (s.clients c).name ≠ []
  direct : ∀ c, (s.clients c).isDead = false → (s.clients c).myConnect = true →
    (s.clients c).from = c
  uplink : ∀ c, (s.clients c).isDead = false →
    (s.clients c).isServer = true ∨ (s.clients c).isClient = true →
    (s.clients c).servptr < c ∧ (s.clients c).servptr ∈ s.globalServList ∧
      ((s.clients c).servptr ≠ me →
        (s.clients (s.clients c).servptr).from = (s.clients c).from) ∧
      ((s.clients c).servptr = me → (s.clients c).from = c)
  order : Reading.InOrder (fun c k => c ≠ me ∧ k = (s.clients c).servptr) some (fun _ => False)
    s.globalServList.reverse
  members : ∀ ch ∈ s.globalChannelList, ∀ ms ∈ ch.members,
    (s.clients ms.client).isDead = false ∧ (s.clients ms.client).isClient = true
  clear : ∀ c, (s.clients c).bursted = false

theorem NetInv.ne_me_of_server (h : NetInv s) (hc : (s.clients c).isServer = true) : c ≠ me := by
  rintro rfl
  simp [Client.isServer, h.self.1] at hc

theorem NetInv.lt_next (h : NetInv s) (hc : (s.clients c).isDead = false) : c < s.next := by
  by_contra hle
  rw [h.fresh c (Nat.le_of_not_lt hle)] at hc
  cases hc

theorem NetInv.servptr_ne (h : NetInv s) (hc : c ∉ s.globalServList)
    (hd : (s.clients d).isDead = false)
    (hr : (s.clients d).isServer = true ∨ (s.clients d).isClient = true) :
    (s.clients d).servptr ≠ c := by
  intro hup
  exact hc (hup ▸ (h.uplink d hd hr).2.1)

theorem NetInv.place (h : NetInv s) (hold : c ∉ s.globalServList) (hlive : x.isDead = false)
    (hstatus : x.status ≠ .me) (named : x.isServer = true → x.name ≠ [])
    (direct : x.myConnect = true → x.from = c)
    (uplink : x.isServer = true ∨ x.isClient = true →
      x.servptr < c ∧ x.servptr ∈ s.globalServList ∧
        (x.servptr ≠ me → (s.clients x.servptr).from = x.from) ∧ (x.servptr = me → x.from = c))
    (clear : x.bursted = false)
    (member : (s.clients c).isDead = false → (s.clients c).isClient = true → x.isClient = true)
    (hcl : s'.clients = update s.clients c x) (hnext : s.next ≤ s'.next) (hc : c < s'.next)
    (hclients : s'.globalClientList =
      if c ∈ s.globalClientList then s.globalClientList else c :: s.globalClientList)
    (hservers : s'.globalServList =
      if x.isServer = true then c :: s.globalServList else s.globalServList)
    (hchannels : s'.globalChannelList = s.globalChannelList) : NetInv s' := by
  have hself : s'.clients c = x := by rw [hcl, update_self]
  have hother : ∀ d, d ≠ c → s'.clients d = s.clients d := fun d hd => by
    rw [hcl, update_of_ne hd]
  have hcme : c ≠ me := by
    rintro rfl
    exact hold ((h.servers me).mpr (.inl rfl))
  have hlisted : ∀ d ∈ s.globalServList, s'.clients d = s.clients d := by
    intro d hd
    refine hother d ?_
    rintro rfl
    exact hold hd
  have hsub : ∀ d ∈ s.globalServList, d ∈ s'.globalServList := by
    intro d hd
    rw [hservers]
    split_ifs
    · exact List.mem_cons_of_mem _ hd
    · exact hd
  have hme : s'.clients me = s.clients me := hother me hcme.symm
  refine ⟨fun d => ?_, ?_, ?_, fun d => ?_, ?_, fun d hd => ?_, fun d hd => ?_, ?_, fun d hd => ?_,
    fun d hd hm => ?_, fun d hd hr => ?_, ?_, fun ch hch ms hms => ?_, fun d => ?_⟩
  · rw [hclients]
    by_cases hdc : d = c
    · subst hdc
      rw [hself, hlive]
      split_ifs with hin
      · simp [hin]
      · simp
    · rw [hother d hdc, ← h.live d]
      split_ifs
      · rfl
      · simp [hdc]
  · rw [hclients]
    split_ifs with hin
    · exact h.clientsNodup
    · exact List.nodup_cons.mpr ⟨hin, h.clientsNodup⟩
  · rw [hservers]
    split_ifs
    · exact List.nodup_cons.mpr ⟨hold, h.serversNodup⟩
    · exact h.serversNodup
  · rw [hservers]
    by_cases hdc : d = c
    · subst hdc
      rw [hself, hlive]
      split_ifs with hs
      · simp [hs]
      · simp [hs, hold, hcme]
    · rw [hother d hdc, ← h.servers d]
      split_ifs
      · simp [hdc]
      · rfl
  · rw [hme]
    exact h.self
  · by_cases hdc : d = c
    · rw [hdc, hself] at hd
      exact absurd hd hstatus
    · exact h.single d (by rwa [hother d hdc] at hd)
  · rw [hother d (Nat.ne_of_gt (Nat.lt_of_lt_of_le hc hd))]
    exact h.fresh d (Nat.le_trans hnext hd)
  · exact Nat.lt_of_lt_of_le h.pos hnext
  · by_cases hdc : d = c
    · rw [hdc, hself]
      rw [hservers] at hd
      split_ifs at hd with hs
      · exact named hs
      · exact absurd (hdc ▸ hd) hold
    · rw [hother d hdc]
      rw [hservers] at hd
      split_ifs at hd
      · exact h.named d ((List.mem_cons.mp hd).resolve_left hdc)
      · exact h.named d hd
  · by_cases hdc : d = c
    · rw [hdc, hself] at hm ⊢
      exact direct hm
    · rw [hother d hdc] at hd hm ⊢
      exact h.direct d hd hm
  · by_cases hdc : d = c
    · subst hdc
      rw [hself] at hr ⊢
      obtain ⟨h₁, h₂, h₃, h₄⟩ := uplink hr
      exact ⟨h₁, hsub _ h₂, fun hne => by rw [hlisted _ h₂]; exact h₃ hne, h₄⟩
    · rw [hother d hdc] at hd hr ⊢
      obtain ⟨h₁, h₂, h₃, h₄⟩ := h.uplink d hd hr
      exact ⟨h₁, hsub _ h₂, fun hne => by rw [hlisted _ h₂]; exact h₃ hne, h₄⟩
  · have hold' : Reading.InOrder (fun c k => c ≠ me ∧ k = (s'.clients c).servptr) some
        (fun _ => False) s.globalServList.reverse := by
      refine h.order.less fun d hd k hk => ?_
      rwa [hlisted d (List.mem_reverse.mp hd)] at hk
    rw [hservers]
    split_ifs with hs
    · rw [List.reverse_cons, Reading.inOrder_append_iff]
      refine ⟨hold', ?_, trivial⟩
      rintro k ⟨-, rfl⟩
      rw [hself]
      exact .inr ⟨_, List.mem_reverse.mpr (uplink (.inl hs)).2.1, rfl⟩
    · exact hold'
  · rw [hchannels] at hch
    obtain ⟨h₁, h₂⟩ := h.members ch hch ms hms
    by_cases hdc : ms.client = c
    · rw [hdc, hself]
      rw [hdc] at h₁ h₂
      exact ⟨hlive, member h₁ h₂⟩
    · rw [hother _ hdc]
      exact ⟨h₁, h₂⟩
  · by_cases hdc : d = c
    · rw [hdc, hself]
      exact clear
    · rw [hother d hdc]
      exact h.clear d

theorem NetInv.channels (h : NetInv s) {chans : List Channel}
    (hmembers : ∀ ch ∈ chans, ∀ ms ∈ ch.members,
      (s.clients ms.client).isDead = false ∧ (s.clients ms.client).isClient = true) :
    NetInv { s with globalChannelList := chans } :=
  ⟨h.live, h.clientsNodup, h.serversNodup, h.servers, h.self, h.single, h.fresh, h.pos, h.named,
    h.direct, h.uplink, h.order, hmembers, h.clear⟩

/-! ### Exits -/

theorem removeFromChannels_mem {which : Channel → Bool} {chans : List Channel} {ch : Channel}
    (h : ch ∈ removeFromChannels c which chans) {ms : Membership} (hms : ms ∈ ch.members) :
    ∃ old ∈ chans, ms ∈ old.members ∧ (which old = true → ms.client ≠ c) := by
  obtain ⟨hch, -⟩ := List.mem_filter.mp h
  obtain ⟨old, hold, rfl⟩ := List.mem_map.mp hch
  refine ⟨old, hold, ?_⟩
  split_ifs at hms with hwhich
  · simp only [removeUserFromChannel, List.mem_filter, bne_iff_ne] at hms
    exact ⟨hms.1, fun _ => hms.2⟩
  · exact ⟨hms, fun hw => absurd hw hwhich⟩

theorem exitOneClient_self : (s.exitOneClient c).clients c =
    { s.clients c with toClient := (s.clients c).toClient.setFlag .deadsocket } := by
  simp [exitOneClient, onClient]

theorem exitOneClient_of_ne (h : d ≠ c) : (s.exitOneClient c).clients d = s.clients d := by
  simp [exitOneClient, onClient, update_of_ne h]

def Leaf (s : Network) (c : Cid) : Prop :=
  ∀ d, (s.clients d).isDead = false → (s.clients d).isServer = true ∨
    (s.clients d).isClient = true →
    (s.clients d).servptr ≠ c

theorem NetInv.exitOneClient (h : NetInv s) (hme : c ≠ me) (leaf : Leaf s c) :
    NetInv (s.exitOneClient c) := by
  have hdead : ((s.exitOneClient c).clients c).isDead = true := by
    rw [exitOneClient_self]
    simp [Client.isDead, Client.setFlag]
  have hself : (s.exitOneClient c).clients me = s.clients me := exitOneClient_of_ne hme.symm
  have hne : ∀ d, ((s.exitOneClient c).clients d).isDead = false → d ≠ c := by
    rintro d hd rfl
    rw [hdead] at hd
    cases hd
  have hmem : ∀ d, d ∈ (s.exitOneClient c).globalServList ↔ d ∈ s.globalServList ∧ d ≠ c := by
    intro d
    simp [Network.exitOneClient, onClient, and_comm]
  refine ⟨fun d => ?_, ?_, ?_, fun d => ?_, by rw [hself]; exact h.self, fun d hd => ?_,
    fun d hd => ?_, h.pos, fun d hd => ?_, fun d hd hm => ?_, fun d hd hr => ?_, ?_,
    fun ch hch ms hms => ?_, fun d => ?_⟩
  · have hlist : d ∈ (s.exitOneClient c).globalClientList ↔ d ∈ s.globalClientList ∧ d ≠ c := by
      simp [Network.exitOneClient, onClient, and_comm]
    rw [hlist, h.live]
    by_cases hdc : d = c
    · subst hdc
      simp [hdead]
    · rw [exitOneClient_of_ne hdc]
      simp [hdc]
  · exact h.clientsNodup.filter _
  · exact h.serversNodup.filter _
  · rw [hmem, h.servers]
    by_cases hdc : d = c
    · subst hdc
      simp [hdead, hme]
    · rw [exitOneClient_of_ne hdc]
      simp [hdc]
  · refine h.single d ?_
    by_cases hdc : d = c
    · rw [hdc, exitOneClient_self] at hd
      rw [hdc]
      exact hd
    · rwa [exitOneClient_of_ne hdc] at hd
  · by_cases hdc : d = c
    · rw [hdc]
      exact hdead
    · rw [exitOneClient_of_ne hdc]
      exact h.fresh d hd
  · obtain ⟨hin, hdc⟩ := (hmem d).mp hd
    rw [exitOneClient_of_ne hdc]
    exact h.named d hin
  · have hdc := hne d hd
    rw [exitOneClient_of_ne hdc] at hd hm ⊢
    exact h.direct d hd hm
  · have hdc := hne d hd
    rw [exitOneClient_of_ne hdc] at hd hr ⊢
    obtain ⟨h₁, h₂, h₃, h₄⟩ := h.uplink d hd hr
    have hup := leaf d hd hr
    exact ⟨h₁, (hmem _).mpr ⟨h₂, hup⟩, fun hne => by rw [exitOneClient_of_ne hup]; exact h₃ hne, h₄⟩
  · have hlist : (s.exitOneClient c).globalServList.reverse =
        s.globalServList.reverse.filter (· ≠ c) := by
      simp [Network.exitOneClient, onClient, List.filter_reverse]
    rw [hlist]
    have hfilter : Reading.InOrder (fun c k => c ≠ me ∧ k = (s.clients c).servptr) some
        (fun _ => False) (s.globalServList.reverse.filter (· ≠ c)) :=
      h.order.filter fun d hd hk e he _ k hgives => by
        obtain rfl : d = c := by simpa using hk
        obtain rfl : d = k := by simpa using hgives
        rintro ⟨heme, hup⟩
        rcases (h.servers e).mp (List.mem_reverse.mp he) with hself | ⟨hlive, hserver⟩
        · exact heme hself
        · exact leaf e hlive (.inl hserver) hup.symm
    refine hfilter.less fun d hd k hk => ?_
    have hdc : d ≠ c := by simpa using (List.mem_filter.mp hd).2
    rwa [exitOneClient_of_ne hdc] at hk
  · obtain ⟨old, hold, hms, hneq⟩ := removeFromChannels_mem hch hms
    rw [exitOneClient_of_ne (hneq rfl)]
    exact h.members old hold ms hms
  · by_cases hdc : d = c
    · rw [hdc, exitOneClient_self]
      exact h.clear c
    · rw [exitOneClient_of_ne hdc]
      exact h.clear d

/-- `s'` is `s` after exits of clients that are behind servers from `b` on. -/
structure Fewer (b : Cid) (s s' : Network) : Prop where
  next : s'.next = s.next
  exits : ∀ d, s'.clients d = s.clients d ∨ (s'.clients d).isDead = true
  kept : ∀ d, (s.clients d).servptr < b → s'.clients d = s.clients d
  dead : ∀ d, (s.clients d).isDead = true → (s'.clients d).isDead = true

theorem Fewer.refl (b : Cid) (s : Network) : Fewer b s s :=
  ⟨rfl, fun _ => .inl rfl, fun _ _ => rfl, fun _ h => h⟩

theorem Fewer.trans {b : Cid} {s'' : Network} (h₁ : Fewer b s s') (h₂ : Fewer b s' s'') :
    Fewer b s s'' where
  next := h₂.next.trans h₁.next
  exits d := by
    rcases h₂.exits d with h | h
    · rcases h₁.exits d with h' | h'
      · exact .inl (h.trans h')
      · exact .inr (by rw [h]; exact h')
    · exact .inr h
  kept d hd := by
    have hs := h₁.kept d hd
    rw [h₂.kept d (by rw [hs]; exact hd), hs]
  dead d hd := h₂.dead d (h₁.dead d hd)

theorem Fewer.mono {b b' : Cid} (h : Fewer b' s s') (hle : b ≤ b') : Fewer b s s' :=
  ⟨h.next, h.exits, fun d hd => h.kept d (Nat.lt_of_lt_of_le hd hle), h.dead⟩

theorem Fewer.eq_of_live {b : Cid} (h : Fewer b s s') (hd : (s'.clients d).isDead = false) :
    s'.clients d = s.clients d := by
  rcases h.exits d with hsame | hdead
  · exact hsame
  · rw [hdead] at hd
    cases hd

theorem isDead_exitOneClient : ((s.exitOneClient c).clients c).isDead = true := by
  rw [exitOneClient_self]
  simp [Client.isDead, Client.setFlag]

theorem fewer_exitOneClient {b : Cid} (hb : b ≤ (s.clients c).servptr) :
    Fewer b s (s.exitOneClient c) := by
  refine ⟨rfl, fun d => ?_, fun d hd => ?_, fun d hd => ?_⟩
  · by_cases hdc : d = c
    · exact .inr (hdc ▸ isDead_exitOneClient)
    · exact .inl (exitOneClient_of_ne hdc)
  · refine exitOneClient_of_ne ?_
    rintro rfl
    exact Nat.not_le_of_lt hd hb
  · by_cases hdc : d = c
    · exact hdc ▸ isDead_exitOneClient
    · rwa [exitOneClient_of_ne hdc]

theorem NetInv.leaf_of_user (h : NetInv s) (hc : (s.clients c).isClient = true) :
    c ≠ me ∧ Leaf s c := by
  have hstatus : (s.clients c).status = .client := by simpa [Client.isClient] using hc
  have hme : c ≠ me := by
    rintro rfl
    rw [h.self.1] at hstatus
    cases hstatus
  refine ⟨hme, fun d hd hr => h.servptr_ne ?_ hd hr⟩
  rw [h.servers]
  rintro (hself | ⟨-, hserver⟩)
  · exact hme hself
  · simp [Client.isServer, hstatus] at hserver

theorem NetInv.exit_each {b n : Cid} {p : NetClient → Bool}
    (hp : ∀ {x : NetClient}, p x = true → x.isServer = true ∨ x.isClient = true)
    {f : Network → Cid → Network}
    (hf : ∀ {s c}, NetInv s → (s.clients c).isDead = false → p (s.clients c) = true →
      (s.clients c).servptr = b → s.next = n → NetInv (f s c) ∧ Fewer c s (f s c) ∧ Leaf (f s c) c)
    {l : List Cid} (h : NetInv s) (hnext : s.next = n)
    (hl : ∀ c ∈ l, (s.clients c).isDead = false ∧ p (s.clients c) = true ∧
      (s.clients c).servptr = b) (hnodup : l.Nodup) :
    NetInv (l.foldl (fun s c => (f s c).exitOneClient c) s) ∧
      Fewer b s (l.foldl (fun s c => (f s c).exitOneClient c) s) ∧
      ∀ c ∈ l, ((l.foldl (fun s c => (f s c).exitOneClient c) s).clients c).isDead = true := by
  induction l generalizing s with
  | nil => exact ⟨h, .refl b s, by simp⟩
  | cons c l ih =>
    obtain ⟨hlive, hreg, hup⟩ := hl c List.mem_cons_self
    obtain ⟨hnot, hrest⟩ := List.nodup_cons.mp hnodup
    obtain ⟨hinv, hfewer, hleaf⟩ := hf h hlive hreg hup hnext
    have hlt : b < c := hup ▸ (h.uplink c hlive (hp hreg)).1
    have hme : c ≠ me := Nat.ne_of_gt (Nat.lt_of_le_of_lt (Nat.zero_le b) hlt)
    -- `c` itself and its siblings are behind `b`, so the recursion left them alone
    have hold : ∀ d, (s.clients d).servptr = b → (f s c).clients d = s.clients d :=
      fun d hd => hfewer.kept d (hd ▸ hlt)
    have hthis : Fewer b s ((f s c).exitOneClient c) :=
      (hfewer.mono (Nat.le_of_lt hlt)).trans
        (fewer_exitOneClient (Nat.le_of_eq (by rw [hold c hup, hup])))
    obtain ⟨h₁, h₂, h₃⟩ := ih (hinv.exitOneClient hme hleaf)
      (hthis.next.trans hnext) (fun d hd => by
        have hne : d ≠ c := by
          rintro rfl
          exact hnot hd
        obtain ⟨ha, hb, hc⟩ := hl d (List.mem_cons_of_mem _ hd)
        rw [exitOneClient_of_ne hne, hold d hc]
        exact ⟨ha, hb, hc⟩) hrest
    refine ⟨h₁, hthis.trans h₂, fun d hd => ?_⟩
    rcases List.mem_cons.mp hd with rfl | hd
    · exact h₂.dead d isDead_exitOneClient
    · exact h₃ d hd

theorem NetInv.mem_usersOf (h : NetInv s) :
    d ∈ s.usersOf c ↔ (s.clients d).isDead = false ∧ (s.clients d).isClient = true ∧
      (s.clients d).servptr = c := by
  simp [usersOf, h.live]

theorem NetInv.mem_serversOf (h : NetInv s) :
    d ∈ s.serversOf c ↔ (s.clients d).isDead = false ∧ (s.clients d).isServer = true ∧
      (s.clients d).servptr = c := by
  simp only [serversOf, List.mem_filter, h.servers, Bool.and_eq_true, beq_iff_eq]
  constructor
  · rintro ⟨hd | ⟨hlive, -⟩, hserver, hup⟩
    · exact absurd hd (h.ne_me_of_server hserver)
    · exact ⟨hlive, hserver, hup⟩
  · rintro ⟨hlive, hserver, hup⟩
    exact ⟨.inr ⟨hlive, hserver⟩, hserver, hup⟩

theorem NetInv.recurseRemoveClients (fuel : Nat) (h : NetInv s)
    (hlive : (s.clients c).isDead = false)
    (hserver : (s.clients c).isServer = true) (hfuel : s.next < fuel + c) :
    NetInv (Network.recurseRemoveClients fuel s c) ∧
      Fewer c s (Network.recurseRemoveClients fuel s c) ∧
      Leaf (Network.recurseRemoveClients fuel s c) c := by
  induction fuel generalizing s c with
  | zero =>
    rw [Nat.zero_add] at hfuel
    exact absurd (h.lt_next hlive) (Nat.lt_asymm hfuel)
  | succ fuel ih =>
    obtain ⟨h₁, hfew₁, hout₁⟩ := h.exit_each (b := c) .inr (f := fun s _ => s) (n := s.next)
      (fun {u d} hu _ hclient _ _ => ⟨hu, .refl d u, (hu.leaf_of_user hclient).2⟩) rfl
      (l := s.usersOf c) (fun d hd => h.mem_usersOf.mp hd) (h.clientsNodup.filter _)
    set s₁ := (s.usersOf c).foldl Network.exitOneClient s with hs₁
    obtain ⟨h₂, hfew₂, hout₂⟩ := h₁.exit_each (b := c) .inl (n := s₁.next)
      (f := Network.recurseRemoveClients fuel) (fun {u d} hu hd hsv hup hn => ih hu hd hsv (by
        have hlt := (hu.uplink d hd (.inl hsv)).1
        rw [hup] at hlt
        rw [hn, hfew₁.next]
        refine Nat.lt_of_lt_of_le hfuel ?_
        rw [Nat.add_assoc, Nat.add_comm 1 c]
        exact Nat.add_le_add_left hlt fuel)) rfl (l := s₁.serversOf c)
      (fun d hd => h₁.mem_serversOf.mp hd) (h₁.serversNodup.filter _)
    set s₂ := (s₁.serversOf c).foldl
      (fun s d => (Network.recurseRemoveClients fuel s d).exitOneClient d) s₁ with hs₂
    have hrun : Network.recurseRemoveClients (fuel + 1) s c = s₂ := rfl
    rw [hrun]
    refine ⟨h₂, hfew₁.trans hfew₂, fun d hd hr hup => ?_⟩
    -- whoever is behind `c` now was so before, and has exited
    have hd₁ := hfew₂.eq_of_live hd
    rw [hd₁] at hd hr hup
    rcases hr with hserver | hclient
    · have := hout₂ d (h₁.mem_serversOf.mpr ⟨hd, hserver, hup⟩)
      rw [hd₁, hd] at this
      cases this
    · have hd₀ := hfew₁.eq_of_live hd
      have := hout₁ d (h.mem_usersOf.mpr (by rw [← hd₀]; exact ⟨hd, hclient, hup⟩))
      rw [hd] at this
      cases this

theorem NetInv.exitClient (h : NetInv s) (hlive : (s.clients c).isDead = false) (hme : c ≠ me) :
    NetInv (s.exitClient c) := by
  unfold Network.exitClient
  cases hserver : (s.clients c).isServer with
  | true =>
    rw [if_pos rfl]
    obtain ⟨h₁, -, hleaf⟩ := h.recurseRemoveClients (s.next + 1) hlive hserver
      (Nat.lt_of_lt_of_le (Nat.lt_succ_self _) (Nat.le_add_right _ _))
    exact h₁.exitOneClient hme hleaf
  | false =>
    rw [if_neg (by simp)]
    refine h.exitOneClient hme fun d hd hr => h.servptr_ne ?_ hd hr
    rw [h.servers]
    rintro (hself | ⟨-, hs⟩)
    · exact hme hself
    · rw [hserver] at hs
      cases hs

/-! ### One step -/

theorem isConnection_iff : s.isConnection c = true ↔ (s.clients c).isDead = false ∧
    (s.clients c).status = .unknown ∧ (s.clients c).myConnect = true := by
  simp [isConnection, Client.isUnknown, and_assoc]

theorem NetInv.unlisted (h : NetInv s) (hc : s.isConnection c = true) :
    c ≠ me ∧ c ∉ s.globalServList := by
  obtain ⟨-, hstatus, -⟩ := isConnection_iff.mp hc
  have hme : c ≠ me := by
    rintro rfl
    rw [h.self.1] at hstatus
    cases hstatus
  refine ⟨hme, fun hin => ?_⟩
  rcases (h.servers c).mp hin with hself | ⟨-, hserver⟩
  · exact hme hself
  · simp [Client.isServer, hstatus] at hserver

theorem NetInv.linkServer (h : NetInv s) (hc : s.isConnection c = true) {name : CStr}
    (hname : name ≠ [])
    (id : CStr) : NetInv (s.linkServer c name id) := by
  obtain ⟨hlive, hstatus, hconn⟩ := isConnection_iff.mp hc
  obtain ⟨hme, hunlisted⟩ := h.unlisted hc
  have hfrom := h.direct c hlive hconn
  refine h.place (c := c) (x := { s.clients c with name := name, id := id, servptr := me, status := .server })
    hunlisted hlive (by simp) (fun _ => hname) (fun _ => hfrom) (fun _ => ?_) (h.clear c)
    (fun _ hclient => ?_) rfl (Nat.le_refl _) (h.lt_next hlive) ?_ ?_ rfl
  · exact ⟨Nat.pos_of_ne_zero hme, (h.servers me).mpr (.inl rfl), fun hne => absurd rfl hne,
      fun _ => hfrom⟩
  · simp [Client.isClient, hstatus] at hclient
  · rw [if_pos ((h.live c).mpr hlive)]
    rfl
  · simp [Network.linkServer, onClient, Client.isServer]

theorem NetInv.makeClient (h : NetInv s) {source up : Cid} {status : Status} {isLocal : Bool}
    (hstatus : status ≠ .me) (hname : status = .server → x.name ≠ [])
    (hdirect : isLocal = true → source = s.next)
    (hup : status = .server ∨ status = .client → up ∈ s.globalServList ∧ up ≠ me ∧
      (s.clients up).isDead = false ∧ (s.clients up).from = source) :
    NetInv (s.makeClient x source up status isLocal) := by
  have hdead := h.fresh s.next (Nat.le_refl _)
  have hunlisted : s.next ∉ s.globalServList := by
    rw [h.servers, hdead]
    rintro (hself | ⟨hlive, -⟩)
    · exact Nat.ne_of_gt h.pos hself
    · cases hlive
  refine h.place (c := s.next) hunlisted (x := { x with
      «from» := source, servptr := up, status := status, flags := ∅, bursted := false
      localClient := if isLocal then some ⟨0, 0⟩ else none }) (by simp [Client.isDead]) hstatus
    (fun hs => hname (by simpa [Client.isServer] using hs)) (fun hm => hdirect ?_) (fun hr => ?_)
      rfl
    (fun hlive => absurd (hlive.symm.trans hdead) (by simp)) rfl (Nat.le_succ _)
      (Nat.lt_succ_self _)
    ?_ ?_ rfl
  · cases isLocal with
    | true => rfl
    | false => simp [Client.myConnect] at hm
  · obtain ⟨hmem, hne, hlive, hfrom⟩ := hup (by simpa [Client.isServer, Client.isClient] using hr)
    exact ⟨h.lt_next hlive, hmem, fun _ => hfrom, fun hself => absurd hself hne⟩
  · rw [if_neg (by rw [h.live, hdead]; simp)]
    rfl
  · simp only [Network.makeClient, Client.isServer, beq_iff_eq]

theorem NetInv.change (h : NetInv s) (hlive : (s.clients c).isDead = false)
    (hkind : (s.clients c).isClient = true ∨ (s.clients c).isUnknown = true) :
    NetInv (s.onClient c fun old => changed old x) := by
  have hserver : (s.clients c).isServer = false := by
    rcases hkind with hk | hk
    · have : (s.clients c).status = .client := by simpa [Client.isClient] using hk
      simp [Client.isServer, this]
    · have : (s.clients c).status = .unknown := by simpa [Client.isUnknown] using hk
      simp [Client.isServer, this]
  have hstatus : (s.clients c).status ≠ .me := by
    rcases hkind with hk | hk <;> intro hs <;> simp [Client.isClient, Client.isUnknown, hs] at hk
  have hunlisted : c ∉ s.globalServList := by
    rw [h.servers, hserver]
    rintro (hself | ⟨-, hs⟩)
    · exact hstatus (hself ▸ h.self.1)
    · cases hs
  refine h.place (c := c) (x := changed (s.clients c) x) hunlisted hlive hstatus
    (fun hs => absurd (hs.symm.trans hserver) (by simp)) (h.direct c hlive) (h.uplink c hlive)
      (h.clear c)
    (fun _ hclient => hclient) rfl (Nat.le_refl _) (h.lt_next hlive) ?_ ?_ rfl
  · rw [if_pos ((h.live c).mpr hlive)]
    rfl
  · have hs : (changed (s.clients c) x).isServer = false := hserver
    rw [hs]
    rfl

theorem NetInv.register (h : NetInv s) (hc : s.isConnection c = true) :
    NetInv (s.onClient c fun old => { changed old x with status := .client, servptr := me }) := by
  obtain ⟨hlive, hstatus, hconn⟩ := isConnection_iff.mp hc
  obtain ⟨hme, hunlisted⟩ := h.unlisted hc
  have hfrom := h.direct c hlive hconn
  refine h.place (c := c)
    (x := { changed (s.clients c) x with status := .client, servptr := me }) hunlisted hlive
    (by simp) (fun hs => by simp [Client.isServer] at hs) (fun _ => hfrom) (fun _ => ?_) (h.clear c)
    (fun _ _ => rfl) rfl (Nat.le_refl _) (h.lt_next hlive) ?_ ?_ rfl
  · exact ⟨Nat.pos_of_ne_zero hme, (h.servers me).mpr (.inl rfl), fun hne => absurd rfl hne,
      fun _ => hfrom⟩
  · rw [if_pos ((h.live c).mpr hlive)]
    rfl
  · simp [Client.isServer, onClient]

theorem NetInv.join (h : NetInv s) (hlive : (s.clients c).isDead = false)
    (hclient : (s.clients c).isClient = true) (chname : CStr) (channelts : Int)
      (flags : Finset ChFlag) :
    NetInv (s.join c chname channelts flags) := by
  unfold Network.join
  split_ifs
  · refine h.channels fun ch hch ms hms => ?_
    obtain ⟨old, hold, rfl⟩ := List.mem_map.mp hch
    split_ifs at hms
    · rcases List.mem_cons.mp hms with rfl | hms
      · exact ⟨hlive, hclient⟩
      · exact h.members old hold ms hms
    · exact h.members old hold ms hms
  · refine h.channels fun ch hch ms hms => ?_
    rcases List.mem_cons.mp hch with rfl | hch
    · rw [List.mem_singleton.mp hms]
      exact ⟨hlive, hclient⟩
    · exact h.members ch hch ms hms

theorem netInv_start {self : NetClient} (hname : self.name ≠ []) : NetInv (start self) := by
  have hme : (start self).clients me = { self with
      status := .me, «from» := me, servptr := me, flags := ∅, bursted := false
      localClient := some ⟨0, 0⟩ } := by
    simp [start]
  have hother : ∀ c, c ≠ me → (start self).clients c =
      { (default : Client) with flags := {.deadsocket}, away := [], bursted := false } := by
    intro c hc
    simp [start, update_of_ne hc]
  have hlive : ((start self).clients me).isDead = false := by
    rw [hme]
    simp [Client.isDead]
  have hdead : ∀ c, c ≠ me → ((start self).clients c).isDead = true := by
    intro c hc
    rw [hother c hc]
    simp [Client.isDead]
  have honly : ∀ c, ((start self).clients c).isDead = false → c = me := by
    intro c hc
    by_contra hne
    rw [hdead c hne] at hc
    cases hc
  have hlist : ∀ c, c ∈ (start self).globalServList ↔ c = me := fun c => List.mem_singleton
  have hstatus : ((start self).clients me).status = .me := by rw [hme]
  have hrole : ((start self).clients me).isServer = false ∧
      ((start self).clients me).isClient = false := by
    simp [Client.isServer, Client.isClient, hstatus]
  refine ⟨fun c => ?_, List.nodup_singleton me, List.nodup_singleton me, fun c => ?_, ?_,
    fun c hc => ?_,
    fun c hc => ?_, Nat.zero_lt_one, fun c hc => ?_, fun c hd _ => ?_, fun c hd hr => ?_, ?_,
    fun ch hch => absurd hch List.not_mem_nil, fun c => ?_⟩
  · refine List.mem_singleton.trans ⟨fun hc => hc ▸ hlive, honly c⟩
  · rw [hlist]
    refine ⟨.inl, ?_⟩
    rintro (hc | ⟨hc, -⟩)
    · exact hc
    · exact honly c hc
  · rw [hme]
    exact ⟨rfl, rfl, rfl, by simp [Client.isDead], hname⟩
  · by_contra hne
    rw [hother c hne] at hc
    cases hc
  · exact hdead c (Nat.ne_of_gt hc)
  · rw [(hlist c).mp hc, hme]
    exact hname
  · rw [honly c hd, hme]
  · obtain rfl := honly c hd
    simp [hrole] at hr
  · exact ⟨fun k hk => absurd rfl hk.1, trivial⟩
  · by_cases hc : c = me
    · rw [hc, hme]
    · rw [hother c hc]

end Network

end Ircd
