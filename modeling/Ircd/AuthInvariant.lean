import Ircd.Auth

/-!
The invariant of the authorisation, and that exits keep it.

- `AuthState.Inv`: the lists, the resolver's queries and the ident sockets agree with
  the flags of the requests in memory, and each of them belongs to a client that
  waits. While a request is finished it is left out (`cur`).
- `AuthState.Inv.exitClient`: `delete_auth` takes the request of a client off the
  lists and frees it.
-/

namespace Ircd

open Function List

namespace AuthState

variable {s s' : AuthState} {cur cur' : Option Nat} {xs ys xs' ys' : List Nat} {p q c : Nat}
  {a : AuthRequest}

/-- The client of a request that is not finished yet. -/
structure Owner (s : AuthState) (xs : List Nat) (p : Nat) (a : AuthRequest) (k : AuthClient) :
    Prop where
  client : s.clients p = some k
  unknown : k.unknown = true
  notReleased : k.released = 0
  notExited : k.exited = false
  dnsQuery : k.dnsQuery = if a.crit = true ∨ p ∈ xs then some p else none

/-- What holds of one connection and its request; `xs` and `ys` are what the lists
hold, and `cur` is the request that is being finished. -/
structure At (s : AuthState) (cur : Option Nat) (xs ys : List Nat) (p : Nat) : Prop where
  query : p ∈ s.queries ↔ p ∈ xs
  fd : s.fds p ≠ .closed ↔ p ∈ ys
  fresh : s.nextPtr ≤ p → s.requests p = none ∧ s.clients p = none
  listed : p ∈ xs ∨ p ∈ ys → (s.requests p).isSome = true ∧ cur ≠ some p
  own : ∀ {a}, s.requests p = some a → a.client = p
  flags : ∀ {a}, s.requests p = some a → cur ≠ some p → a.dnsPending = decide (p ∈ xs) ∧
    a.doingAuth = decide (p ∈ ys) ∧ (a.crit = true ∨ p ∈ xs ∨ p ∈ ys)
  owner : ∀ {a}, s.requests p = some a → cur ≠ some p → ∃ k, s.Owner xs p a k
  done : ∀ {k}, s.clients p = some k → s.requests p = none → cur ≠ some p →
    k.released = 1 ∨ k.released = 0 ∧ k.exited = true

/-- The invariant. -/
structure Inv (s : AuthState) (cur : Option Nat) (xs ys : List Nat) : Prop where
  fault : s.fault = false
  wrong : s.wrong = false
  dns : s.dnsList.IsList xs
  ident : s.identList.IsList ys
  each : ∀ p, s.At cur xs ys p

/-- Nothing changes about a connection and its request. -/
structure SameAt (s s' : AuthState) (cur cur' : Option Nat) (xs xs' ys ys' : List Nat) (p : Nat) :
    Prop where
  requests : s'.requests p = s.requests p
  clients : s'.clients p = s.clients p
  query : p ∈ s'.queries ↔ p ∈ s.queries
  fd : s'.fds p = s.fds p
  fresh : s'.nextPtr ≤ p → s.nextPtr ≤ p
  cur : cur' = some p ↔ cur = some p
  dns : p ∈ xs' ↔ p ∈ xs
  ident : p ∈ ys' ↔ p ∈ ys

theorem At.congr (h : s.At cur xs ys p) (hsame : SameAt s s' cur cur' xs xs' ys ys' p) :
    s'.At cur' xs' ys' p := by
  obtain ⟨hrequests, hclients, hquery, hfd, hfresh, hcur, hdns, hident⟩ := hsame
  constructor
  · rw [hquery, hdns]
    exact h.query
  · rw [hfd, hident]
    exact h.fd
  · intro hp
    rw [hrequests, hclients]
    exact h.fresh (hfresh hp)
  · rw [hdns, hident, hrequests, Ne, hcur]
    exact h.listed
  · intro a ha
    rw [hrequests] at ha
    exact h.own ha
  · intro a ha hne
    rw [hrequests] at ha
    rw [Ne, hcur] at hne
    simp only [hdns, hident]
    exact h.flags ha hne
  · intro a ha hne
    rw [hrequests] at ha
    rw [Ne, hcur] at hne
    obtain ⟨k, hk⟩ := h.owner ha hne
    refine ⟨k, hclients.trans hk.client, hk.unknown, hk.notReleased, hk.notExited, ?_⟩
    rw [hk.dnsQuery]
    simp only [hdns]
  · intro k hk hnone hne
    rw [hclients] at hk
    rw [hrequests] at hnone
    rw [Ne, hcur] at hne
    exact h.done hk hnone hne

theorem Inv.change (h : s.Inv cur xs ys) (p : Nat) (hfault : s'.fault = s.fault)
    (hwrong : s'.wrong = s.wrong) (hdns : s'.dnsList.IsList xs') (hident : s'.identList.IsList ys')
    (hother : ∀ q, q ≠ p → SameAt s s' cur cur' xs xs' ys ys' q) (hp : s'.At cur' xs' ys' p) :
    s'.Inv cur' xs' ys' := by
  refine ⟨hfault.trans h.fault, hwrong.trans h.wrong, hdns, hident, fun q => ?_⟩
  by_cases hq : q = p
  · rw [hq]
    exact hp
  · exact (h.each q).congr (hother q hq)

theorem At.below (hp : s.At cur xs ys p) (ha : s.requests p = some a) : p < s.nextPtr := by
  by_contra hge
  have hfresh := (hp.fresh (not_lt.mp hge)).1
  rw [ha] at hfresh
  cases hfresh

theorem At.of_request (ha : s.requests p = some a) (hquery : p ∈ s.queries ↔ p ∈ xs)
    (hfd : s.fds p ≠ .closed ↔ p ∈ ys) (hbelow : p < s.nextPtr)
    (hlisted : p ∈ xs ∨ p ∈ ys → cur ≠ some p) (hown : a.client = p)
    (hflags : cur ≠ some p → a.dnsPending = decide (p ∈ xs) ∧ a.doingAuth = decide (p ∈ ys) ∧
      (a.crit = true ∨ p ∈ xs ∨ p ∈ ys))
    (howner : cur ≠ some p → ∃ k, s.Owner xs p a k) : s.At cur xs ys p := by
  refine ⟨hquery, hfd, fun hle => absurd hbelow (not_lt.mpr hle), fun hin => ⟨?_, hlisted hin⟩,
    fun hb => ?_, fun hb => ?_, fun hb => ?_, fun _ hnone => ?_⟩
  · rw [ha]
    rfl
  · cases ha.symm.trans hb
    exact hown
  · cases ha.symm.trans hb
    exact hflags
  · cases ha.symm.trans hb
    exact howner
  · cases ha.symm.trans hnone

theorem mem_filter_ne {l : List Nat} (hq : q ≠ p) : q ∈ l.filter (· ≠ p) ↔ q ∈ l := by
  rw [mem_filter, decide_eq_true_eq]
  exact and_iff_left hq

theorem notMem_filter_ne {l : List Nat} : p ∉ l.filter (· ≠ p) := by
  rw [mem_filter, decide_eq_true_eq]
  exact fun h => h.2 rfl

theorem filter_ne_self {l : List Nat} (hp : p ∉ l) : l.filter (· ≠ p) = l :=
  List.filter_eq_self.mpr fun _ hq => decide_eq_true (ne_of_mem_of_not_mem hq hp)

/-! ### Walks -/

theorem Inv.below (h : s.Inv cur xs ys) (hp : p ∈ xs ∨ p ∈ ys) : p < s.nextPtr := by
  by_contra hge
  have hsome := ((h.each p).listed hp).1
  rw [((h.each p).fresh (not_lt.mp hge)).1] at hsome
  cases hsome

theorem length_le_of_below {l : List Nat} {n : Nat} (hnodup : l.Nodup) (hbelow : ∀ p ∈ l, p < n) :
    l.length ≤ n := by
  have hsub : l ⊆ List.range n := fun p hp => List.mem_range.mpr (hbelow p hp)
  have hlen := (List.Nodup.subperm hnodup hsub).length_le
  rwa [length_range] at hlen

theorem Inv.walkDns (h : s.Inv cur xs ys) : s.walkDns = xs :=
  h.dns.walk_eq (length_le_of_below h.dns.nodup fun _ hp => h.below (.inl hp))

theorem Inv.walkIdent (h : s.Inv cur xs ys) : s.walkIdent = ys :=
  h.ident.walk_eq (length_le_of_below h.ident.nodup fun _ hp => h.below (.inr hp))

/-! ### `delete_auth` -/

def Alive (s : AuthState) (l : List Nat) : Prop :=
  ∀ p ∈ l, ∃ a, s.requests p = some a ∧ a.client = p

theorem Inv.alive {l : List Nat} (h : s.Inv cur xs ys) (hl : ∀ p ∈ l, p ∈ xs ∨ p ∈ ys) :
    s.Alive l := by
  intro p hp
  obtain ⟨a, ha⟩ := Option.isSome_iff_exists.mp ((h.each p).listed (hl p hp)).1
  exact ⟨a, ha, (h.each p).own ha⟩

theorem deleteDns_skip {l : List Nat} (halive : s.Alive l) (hl : c ∉ l) (l' : List Nat) :
    deleteDns c q (l ++ l') s = deleteDns c q l' s := by
  induction l with
  | nil => rfl
  | cons p l ih =>
    rw [mem_cons, not_or] at hl
    obtain ⟨hpc, hl⟩ := hl
    obtain ⟨a, ha, hown⟩ := halive p mem_cons_self
    rw [cons_append, deleteDns]
    simp only [ha, hown, Ne.symm hpc, if_false]
    exact ih (fun r hr => halive r (mem_cons_of_mem _ hr)) hl

theorem deleteIdent_skip {l : List Nat} (halive : s.Alive l) (hl : c ∉ l) (l' : List Nat) :
    deleteIdent c (l ++ l') s = deleteIdent c l' s := by
  induction l with
  | nil => rfl
  | cons p l ih =>
    rw [mem_cons, not_or] at hl
    obtain ⟨hpc, hl⟩ := hl
    obtain ⟨a, ha, hown⟩ := halive p mem_cons_self
    rw [cons_append, deleteIdent]
    simp only [ha, hown, Ne.symm hpc, if_false]
    exact ih (fun r hr => halive r (mem_cons_of_mem _ hr)) hl

theorem deleteDns_notMem {l : List Nat} (halive : s.Alive l) (hl : c ∉ l) :
    deleteDns c q l s = (s, false) := by
  have hskip := deleteDns_skip (q := q) halive hl []
  rwa [append_nil] at hskip

theorem deleteIdent_notMem {l : List Nat} (halive : s.Alive l) (hl : c ∉ l) :
    deleteIdent c l s = s := by
  have hskip := deleteIdent_skip halive hl []
  rwa [append_nil] at hskip

theorem deleteDns_mem {l : List Nat} (halive : s.Alive l) (hl : l.Nodup) (hc : c ∈ l)
    (ha : s.requests c = some a) : deleteDns c q l s =
      if a.doingAuth then ({ s.deleteResolverQueries q with dnsList := s.dnsList.delete c }, false)
      else ({ s.deleteResolverQueries q with dnsList := s.dnsList.delete c }.freeRequest c,
        true) := by
  obtain ⟨as, bs, rfl⟩ := append_of_mem hc
  have hout := (List.nodup_middle.mp hl).notMem
  rw [mem_append, not_or] at hout
  obtain ⟨a', ha', hown⟩ := halive c hc
  rw [ha] at ha'
  cases ha'
  rw [deleteDns_skip (fun p hp => halive p (mem_append_left _ hp)) hout.1, deleteDns]
  simp only [ha, hown, if_true]
  split
  · refine deleteDns_notMem (fun p hp => ?_) hout.2
    exact halive p (mem_append_right _ (mem_cons_of_mem _ hp))
  · rfl

theorem deleteIdent_mem {l : List Nat} (halive : s.Alive l) (hl : l.Nodup) (hc : c ∈ l)
    (hfd : s.fds c ≠ .closed) (ha : s.requests c = some a) : deleteIdent c l s =
      { s with
        fds := update s.fds c .closed
        identList := s.identList.delete c
        requests := update s.requests c none } := by
  obtain ⟨as, bs, rfl⟩ := append_of_mem hc
  have hout := (List.nodup_middle.mp hl).notMem
  rw [mem_append, not_or] at hout
  obtain ⟨a', ha', hown⟩ := halive c hc
  rw [ha] at ha'
  cases ha'
  rw [deleteIdent_skip (fun p hp => halive p (mem_append_left _ hp)) hout.1, deleteIdent]
  simp only [ha, hown, if_true, closeFd, hfd, if_false, freeRequest]
  refine deleteIdent_notMem (fun p hp => ?_) hout.2
  obtain ⟨b, hb, hbown⟩ := halive p (mem_append_right _ (mem_cons_of_mem _ hp))
  have hpc : p ≠ c := ne_of_mem_of_not_mem hp hout.2
  exact ⟨b, (update_of_ne hpc _ _).trans hb, hbown⟩

/-- The request of a client is off the lists and freed. -/
structure Gone (s s' : AuthState) (xs ys : List Nat) (c : Nat) : Prop where
  fault : s'.fault = s.fault
  wrong : s'.wrong = s.wrong
  nextPtr : s'.nextPtr = s.nextPtr
  dns : s'.dnsList.IsList (xs.filter (· ≠ c))
  ident : s'.identList.IsList (ys.filter (· ≠ c))
  requests : s'.requests = update s.requests c none
  clients : s'.clients = s.clients
  queries : s'.queries = s.queries.filter (· ≠ c)
  fds : s'.fds = update s.fds c .closed

theorem deleteAuth_gone {k : AuthClient} (hdns : s.dnsList.IsList xs)
    (hident : s.identList.IsList ys)
    (hwalkDns : s.walkDns = xs) (hwalkIdent : s.walkIdent = ys) (halive : s.Alive (xs ++ ys))
    (hquery : c ∈ s.queries ↔ c ∈ xs) (hfd : s.fds c ≠ .closed ↔ c ∈ ys)
    (hk : s.clients c = some k) (hunknown : k.unknown = true)
    (hdnsQuery : k.dnsQuery = if c ∈ xs then some c else none) (ha : s.requests c = some a)
    (hdoing : a.doingAuth = decide (c ∈ ys)) (hlisted : c ∈ xs ∨ c ∈ ys) :
    s.Gone (s.deleteAuth c) xs ys c := by
  have haliveDns : s.Alive xs := fun p hp => halive p (mem_append_left _ hp)
  have haliveIdent : s.Alive ys := fun p hp => halive p (mem_append_right _ hp)
  unfold deleteAuth
  simp only [hk, hunknown, Bool.not_true, Bool.false_eq_true, if_false]
  by_cases hx : c ∈ xs
  · rw [if_pos hx] at hdnsQuery
    simp only [hdnsQuery, hwalkDns]
    rw [deleteDns_mem haliveDns hdns.nodup hx ha, hdoing]
    by_cases hy : c ∈ ys
    · -- both queries are pending
      simp only [hy, decide_true, if_true, Bool.false_eq_true, if_false]
      have hwalk : walkIdent { s.deleteResolverQueries c with dnsList := s.dnsList.delete c } =
          ys :=
        hwalkIdent
      have hrun := deleteIdent_mem (s := { s.deleteResolverQueries c with
        dnsList := s.dnsList.delete c }) haliveIdent hident.nodup hy (hfd.mpr hy) ha
      rw [hwalk, hrun]
      exact ⟨rfl, rfl, rfl, hdns.delete_filter hx, hident.delete_filter hy, rfl, rfl, rfl, rfl⟩
    · simp only [hy, decide_false, Bool.false_eq_true, if_false, if_true]
      have hclosed : s.fds c = .closed := not_not.mp fun hne => hy (hfd.mp hne)
      have hfree : freeRequest { s.deleteResolverQueries c with dnsList := s.dnsList.delete c } c =
          { s.deleteResolverQueries c with
            dnsList := s.dnsList.delete c
            requests := update s.requests c none } := by
        unfold freeRequest
        simp only [deleteResolverQueries, ha]
      rw [hfree]
      refine ⟨rfl, rfl, rfl, hdns.delete_filter hx, ?_, rfl, rfl, rfl, ?_⟩
      · rw [filter_ne_self hy]
        exact hident
      · exact (update_eq_self_iff.mpr hclosed.symm).symm
  · have hy := hlisted.resolve_left hx
    rw [if_neg hx] at hdnsQuery
    simp only [hdnsQuery, hwalkIdent]
    rw [deleteIdent_mem haliveIdent hident.nodup hy (hfd.mpr hy) ha]
    refine ⟨rfl, rfl, rfl, ?_, hident.delete_filter hy, rfl, rfl, ?_, rfl⟩
    · rw [filter_ne_self hx]
      exact hdns
    · exact (filter_ne_self fun hc => hx (hquery.mp hc)).symm

theorem deleteAuth_notListed (hwalkDns : s.walkDns = xs) (hwalkIdent : s.walkIdent = ys)
    (halive : s.Alive (xs ++ ys)) (hx : c ∉ xs) (hy : c ∉ ys) : s.deleteAuth c = s := by
  have haliveDns : s.Alive xs := fun p hp => halive p (mem_append_left _ hp)
  have haliveIdent : s.Alive ys := fun p hp => halive p (mem_append_right _ hp)
  unfold deleteAuth
  split
  · rfl
  · split
    · rfl
    · split
      · rw [hwalkIdent, deleteIdent_notMem haliveIdent hy]
      · rw [hwalkDns, deleteDns_notMem haliveDns hx]
        simp only [Bool.false_eq_true, if_false]
        rw [hwalkIdent, deleteIdent_notMem haliveIdent hy]

/-! ### What clients do -/

/-- No request is in its critical region. -/
def Calm (s : AuthState) (cur : Option Nat) : Prop :=
  ∀ p a, s.requests p = some a → cur ≠ some p → a.crit = false

/-- What exits leave of the requests and of the counts of releases. -/
structure Exits (s s' : AuthState) (cur : Option Nat) (gone : Nat → Prop) : Prop where
  requests : ∀ q, ¬gone q ∨ cur = some q → s'.requests q = s.requests q
  freed : ∀ q, gone q → cur ≠ some q → s'.requests q = none
  released : ∀ q, (s'.clients q).map AuthClient.released = (s.clients q).map AuthClient.released
  nextPtr : s'.nextPtr = s.nextPtr

theorem onClient_self (s : AuthState) (c : Nat) (f : AuthClient → AuthClient) :
    (s.onClient c f).clients c = (s.clients c).map f := update_self _ _ _

theorem onClient_of_ne (s : AuthState) (f : AuthClient → AuthClient) (hq : q ≠ c) :
    (s.onClient c f).clients q = s.clients q := update_of_ne hq _ _

theorem map_onClient {β : Type*} (g : AuthClient → β) (f : AuthClient → AuthClient)
    (hg : ∀ k, g (f k) = g k) (c q : Nat) :
    ((s.onClient c f).clients q).map g = (s.clients q).map g := by
  by_cases hq : q = c
  · rw [hq, onClient_self, Option.map_map]
    exact congrArg (fun g => Option.map g _) (funext hg)
  · rw [onClient_of_ne _ _ hq]

theorem Inv.exitWaiting (h : s.Inv cur xs ys) (hcalm : s.Calm cur) (ha : s.requests c = some a)
    (hcur : cur ≠ some c) : ∃ k, s.clients c = some k ∧ k.released = 0 ∧
      Gone (s.onClient c fun k => { k with exited := true }) (s.exitClient c) xs ys c := by
  have hc := h.each c
  have hcrit := hcalm c a ha hcur
  obtain ⟨-, hdoing, hpending⟩ := hc.flags ha hcur
  obtain ⟨k, hk⟩ := hc.owner ha hcur
  have hdnsQuery := hk.dnsQuery
  rw [hcrit] at hpending hdnsQuery
  simp only [Bool.false_eq_true, false_or] at hpending hdnsQuery
  have hexit : s.exitClient c = (s.onClient c fun k => { k with exited := true }).deleteAuth c := by
    unfold AuthState.exitClient
    simp only [hk.client, hk.notExited, Bool.false_eq_true, if_false]
  refine ⟨k, hk.client, hk.notReleased, ?_⟩
  rw [hexit]
  refine deleteAuth_gone (k := { k with exited := true }) h.dns h.ident h.walkDns h.walkIdent
    (h.alive fun p hp => List.mem_append.mp hp) hc.query hc.fd ?_ hk.unknown hdnsQuery ha hdoing
    hpending
  rw [onClient_self, hk.client]
  rfl

theorem Inv.gone_inv {k : AuthClient} (h : s.Inv cur xs ys) (ha : s.requests c = some a)
    (hk : s.clients c = some k) (hreleased : k.released = 0)
    (hgone : Gone (s.onClient c fun k => { k with exited := true }) s' xs ys c) :
    s'.Inv cur (xs.filter (· ≠ c)) (ys.filter (· ≠ c)) := by
  have hc := h.each c
  refine h.change c hgone.fault hgone.wrong hgone.dns hgone.ident (fun q hq => ?_) ?_
  · refine ⟨?_, ?_, ?_, ?_, fun hle => ?_, Iff.rfl, mem_filter_ne hq, mem_filter_ne hq⟩
    · rw [hgone.requests]
      exact update_of_ne hq _ _
    · rw [hgone.clients]
      exact onClient_of_ne s _ hq
    · rw [hgone.queries]
      exact mem_filter_ne hq
    · rw [hgone.fds]
      exact update_of_ne hq _ _
    · rwa [hgone.nextPtr] at hle
  · have hnone : s'.requests c = none := by
      rw [hgone.requests]
      exact update_self _ _ _
    have hclient : s'.clients c = some { k with exited := true } := by
      rw [hgone.clients, onClient_self, hk]
      rfl
    constructor
    · rw [hgone.queries]
      exact iff_of_false notMem_filter_ne notMem_filter_ne
    · rw [hgone.fds, update_self]
      exact iff_of_false (fun hne => hne rfl) notMem_filter_ne
    · intro hle
      rw [hgone.nextPtr] at hle
      have hfresh := (hc.fresh hle).1
      rw [ha] at hfresh
      cases hfresh
    · rintro (hin | hin)
      · exact absurd hin notMem_filter_ne
      · exact absurd hin notMem_filter_ne
    · intro b hb
      rw [hnone] at hb
      cases hb
    · intro b hb
      rw [hnone] at hb
      cases hb
    · intro b hb
      rw [hnone] at hb
      cases hb
    · intro k' hk' _ _
      rw [hclient] at hk'
      cases hk'
      exact .inr ⟨hreleased, rfl⟩

theorem Inv.onSound (h : s.Inv cur xs ys) (c : Nat) {f : AuthClient → AuthClient}
    (howner : ∀ {a k}, s.requests c = some a → cur ≠ some c → s.Owner xs c a k →
      (s.onClient c f).Owner xs c a (f k))
    (hdone : ∀ k, k.released = 1 ∨ k.released = 0 ∧ k.exited = true →
      (f k).released = 1 ∨ (f k).released = 0 ∧ (f k).exited = true) :
    (s.onClient c f).Inv cur xs ys := by
  have hc := h.each c
  refine h.change c rfl rfl h.dns h.ident (fun q hq => ?_) ?_
  · exact ⟨rfl, onClient_of_ne s _ hq, Iff.rfl, rfl, id, Iff.rfl, Iff.rfl, Iff.rfl⟩
  · refine ⟨hc.query, hc.fd, fun hle => ?_, hc.listed, hc.own, hc.flags, fun ha hcur => ?_,
      fun {k'} hk' hnone hcur => ?_⟩
    · refine ⟨(hc.fresh hle).1, ?_⟩
      rw [onClient_self, (hc.fresh hle).2]
      rfl
    · obtain ⟨k, hk⟩ := hc.owner ha hcur
      exact ⟨_, howner ha hcur hk⟩
    · rw [onClient_self] at hk'
      obtain ⟨k, hk, rfl⟩ := Option.map_eq_some_iff.mp hk'
      exact hdone k (hc.done hk hnone hcur)

theorem Inv.onUnowned (h : s.Inv cur xs ys)
    (howned : ¬((s.requests c).isSome = true ∧ cur ≠ some c)) {f : AuthClient → AuthClient}
    (hreleased : ∀ k, (f k).released = k.released)
    (hexited : ∀ k, k.exited = true → (f k).exited = true) :
    (s.onClient c f).Inv cur xs ys ∧ s.Exits (s.onClient c f) cur (· = c) := by
  constructor
  · refine h.onSound c (fun ha hcur _ => ?_) fun k hdone => ?_
    · exact absurd ⟨Option.isSome_iff_exists.mpr ⟨_, ha⟩, hcur⟩ howned
    · rw [hreleased]
      exact hdone.imp_right fun hboth => ⟨hboth.1, hexited k hboth.2⟩
  · refine ⟨fun q _ => rfl, fun q hq hcur => ?_, fun q => ?_, rfl⟩
    · rw [hq] at hcur ⊢
      by_contra hsome
      exact howned ⟨Option.isSome_iff_ne_none.mpr hsome, hcur⟩
    · exact map_onClient AuthClient.released f hreleased c q

theorem Inv.exitClient (h : s.Inv cur xs ys) (hcalm : s.Calm cur) (c : Nat) :
    (s.exitClient c).Inv cur (xs.filter (· ≠ c)) (ys.filter (· ≠ c)) ∧
      s.Exits (s.exitClient c) cur (· = c) := by
  by_cases howned : (s.requests c).isSome = true ∧ cur ≠ some c
  · -- the client waits
    obtain ⟨hsome, hcur⟩ := howned
    obtain ⟨a, ha⟩ := Option.isSome_iff_exists.mp hsome
    obtain ⟨k, hk, hreleased, hgone⟩ := h.exitWaiting hcalm ha hcur
    constructor
    · exact h.gone_inv ha hk hreleased hgone
    · refine ⟨fun q hq => ?_, fun q hq _ => ?_, fun q => ?_, hgone.nextPtr⟩
      · have hqc : q ≠ c := by
          rintro rfl
          exact hq.elim (fun hne => hne rfl) hcur
        rw [hgone.requests]
        exact update_of_ne hqc _ _
      · rw [hgone.requests, hq]
        exact update_self _ _ _
      · rw [hgone.clients]
        exact map_onClient AuthClient.released (fun k => { k with exited := true }) (fun _ => rfl) c
          q
  · -- its request is off the lists
    have hc := h.each c
    have hx : c ∉ xs := fun hin => howned (hc.listed (.inl hin))
    have hy : c ∉ ys := fun hin => howned (hc.listed (.inr hin))
    have hexit : s.exitClient c = s ∨
        s.exitClient c = s.onClient c fun k => { k with exited := true } := by
      unfold AuthState.exitClient
      split
      · exact .inl rfl
      · split
        · exact .inl rfl
        · refine .inr (deleteAuth_notListed h.walkDns h.walkIdent ?_ hx hy)
          exact h.alive fun p hp => List.mem_append.mp hp
    rw [filter_ne_self hx, filter_ne_self hy]
    rcases hexit with hexit | hexit
    · rw [hexit]
      have hid : (s.onClient c id).Inv cur xs ys ∧ s.Exits (s.onClient c id) cur (· = c) :=
        h.onUnowned howned (fun _ => rfl) fun _ hk => hk
      have hsame : s.onClient c id = s := by
        rw [onClient, Option.map_id_fun, id_eq, update_eq_self]
      rwa [hsame] at hid
    · rw [hexit]
      exact h.onUnowned howned (fun _ => rfl) fun _ _ => rfl

/-- The clients that the events make exit. -/
def exiting (events : List ClientEvent) (q : Nat) : Prop := .exit q ∈ events

instance (events : List ClientEvent) (q : Nat) : Decidable (exiting events q) :=
  inferInstanceAs (Decidable (_ ∈ _))

theorem Exits.calm {gone : Nat → Prop} (h : s.Exits s' cur gone) (hcalm : s.Calm cur) :
    s'.Calm cur := by
  intro p a ha hcur
  by_cases hp : gone p
  · rw [h.freed p hp hcur] at ha
    cases ha
  · rw [h.requests p (.inl hp)] at ha
    exact hcalm p a ha hcur

theorem Inv.registerClient (h : s.Inv cur xs ys) (c : Nat) :
    (s.registerClient c).Inv cur xs ys ∧ s.Exits (s.registerClient c) cur fun _ => False := by
  have hreleased : ∀ k : AuthClient,
      (if k.released = 0 then k else { k with unknown := false }).released = k.released := by
    intro k
    split <;> rfl
  constructor
  · refine h.onSound c (fun {a k} _ _ hk => ?_) fun k hdone => ?_
    · rw [if_pos hk.notReleased]
      refine ⟨?_, hk.unknown, hk.notReleased, hk.notExited, hk.dnsQuery⟩
      rw [onClient_self, hk.client, Option.map_some, if_pos hk.notReleased]
    · split
      · exact hdone
      · exact hdone
  · exact ⟨fun _ _ => rfl, fun _ hno => hno.elim, map_onClient _ _ hreleased c, rfl⟩

theorem Inv.clientEvents (h : s.Inv cur xs ys) (hcalm : s.Calm cur) (events : List ClientEvent) :
    (events.foldl clientEvent s).Inv cur (xs.filter fun q => ¬exiting events q)
        (ys.filter fun q => ¬exiting events q) ∧
      s.Exits (events.foldl clientEvent s) cur (exiting events) := by
  induction events generalizing s xs ys with
  | nil =>
    have hall : ∀ l : List Nat, (l.filter fun q => decide (¬exiting [] q)) = l := fun l =>
      List.filter_eq_self.mpr fun q _ => decide_eq_true not_mem_nil
    rw [hall, hall]
    exact ⟨h, fun _ _ => rfl, fun _ hq => absurd hq not_mem_nil, fun _ => rfl, rfl⟩
  | cons e events ih =>
    have hone : ∃ gone : Nat → Prop, ∃ _ : DecidablePred gone,
        (∀ q, exiting (e :: events) q ↔ gone q ∨ exiting events q) ∧
        (s.clientEvent e).Inv cur (xs.filter fun q => ¬gone q) (ys.filter fun q => ¬gone q) ∧
        s.Exits (s.clientEvent e) cur gone := by
      cases e with
      | exit c =>
        refine ⟨(· = c), inferInstance, fun q => ?_, h.exitClient hcalm c⟩
        rw [exiting, mem_cons, ClientEvent.exit.injEq]
        exact Iff.rfl
      | register c =>
        refine ⟨fun _ => False, inferInstance, fun q => ?_, ?_⟩
        · rw [exiting, mem_cons]
          exact or_congr (iff_of_false (fun heq => ClientEvent.noConfusion heq) id) Iff.rfl
        · have hall : ∀ l : List Nat, (l.filter fun _ => decide ¬False) = l := fun l =>
            List.filter_eq_self.mpr fun _ _ => rfl
          rw [hall, hall]
          exact h.registerClient c
    obtain ⟨gone, hdec, hgone, hinv, hexits⟩ := hone
    obtain ⟨hinv', hexits'⟩ := ih hinv (hexits.calm hcalm)
    have hfilter : ∀ l : List Nat, (l.filter fun q => decide (¬exiting (e :: events) q)) =
        (l.filter fun q => ¬gone q).filter fun q => ¬exiting events q := by
      intro l
      rw [filter_filter]
      refine filter_congr fun q _ => ?_
      rw [← Bool.decide_and, decide_eq_decide, hgone q, not_or, and_comm]
    rw [hfilter, hfilter]
    refine ⟨hinv', fun q hq => ?_, fun q hq hcur => ?_, fun q => ?_, ?_⟩
    · rw [hgone, not_or] at hq
      exact (hexits'.requests q (hq.imp_left And.right)).trans
        (hexits.requests q (hq.imp_left And.left))
    · by_cases hlate : exiting events q
      · exact hexits'.freed q hlate hcur
      · refine (hexits'.requests q (.inl hlate)).trans (hexits.freed q ?_ hcur)
        exact ((hgone q).mp hq).resolve_right hlate
    · exact (hexits'.released q).trans (hexits.released q)
    · exact hexits'.nextPtr.trans hexits.nextPtr

end AuthState

end Ircd
