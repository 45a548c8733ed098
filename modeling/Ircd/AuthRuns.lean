import Ircd.AuthInvariant

/-!
The callbacks keep the invariant of the authorisation, and so do whole runs.

- `auth_sound_iff`: a run leaves the authorisation sound exactly if no client makes
  the next one on the list exit while it is released by a time-out.
- `auth_next_freed`: a run in which that happens.
-/

namespace Ircd

open Function List

namespace AuthState

variable {s s' : AuthState} {cur : Option Nat} {xs ys : List Nat} {p q c : Nat} {a : AuthRequest}

/-! ### Calm states -/

theorem Calm.mono (h : s.Calm none) (p : Nat) : s.Calm (some p) := fun q b hb _ =>
  h q b hb (Option.some_ne_none q).symm

theorem Calm.of_other (h : s.Calm (some p)) (hother : ∀ q, q ≠ p → s'.requests q = s.requests q) :
    s'.Calm (some p) := by
  intro q b hb hqp
  rw [hother q fun heq => hqp (congrArg some heq).symm] at hb
  exact h q b hb hqp

theorem Calm.of_self (h : s.Calm (some p)) (hself : ∀ b, s.requests p = some b → b.crit = false) :
    s.Calm none := by
  intro q b hb _
  by_cases hq : q = p
  · rw [hq] at hb
    exact hself b hb
  · exact h q b hb fun heq => hq (Option.some_inj.mp heq).symm

/-! ### Release -/

theorem Inv.notListed (h : s.Inv (some p) xs ys) : p ∉ xs ∧ p ∉ ys :=
  ⟨fun hx => ((h.each p).listed (.inl hx)).2 rfl, fun hy => ((h.each p).listed (.inr hy)).2 rfl⟩

theorem Inv.releaseAuthClient (h : s.Inv (some p) xs ys) (hcalm : s.Calm (some p)) {k : AuthClient}
    (hk : s.clients p = some k) (hreleased : k.released = 0) (hexited : k.exited = false)
    (lines : List ClientEvent) :
    (s.releaseAuthClient p lines).Inv (some p) (xs.filter fun q => ¬exiting lines q)
        (ys.filter fun q => ¬exiting lines q) ∧
      (s.releaseAuthClient p lines).Calm (some p) ∧
      (∀ q, q ≠ p → (s.releaseAuthClient p lines).requests q =
        if exiting lines q then none else s.requests q) ∧
      (s.releaseAuthClient p lines).requests p = s.requests p ∧
      ((s.releaseAuthClient p lines).clients p).map AuthClient.released = some 1 := by
  have hp := h.each p
  obtain ⟨hx, hy⟩ := h.notListed
  have hquery : p ∉ s.queries := fun hin => hx (hp.query.mp hin)
  have hclosed : s.fds p = .closed := not_not.mp fun hne => hy (hp.fd.mp hne)
  unfold AuthState.releaseAuthClient
  simp only [hquery, hclosed, hk, decide_false, bne_self_eq_false, Option.all_some, hexited,
    hreleased,
    Bool.or_false]
  generalize hs' : ({ s.onClient p fun k => { k with released := k.released + 1 } with
    wrong := s.wrong } : AuthState) = s'
  have hrequests : s'.requests = s.requests := by rw [← hs']; rfl
  have hclients : ∀ q, q ≠ p → s'.clients q = s.clients q := by
    intro q hq
    rw [← hs']
    exact onClient_of_ne s _ hq
  have hclient : s'.clients p = some { k with released := 1 } := by
    rw [← hs']
    refine (onClient_self s p _).trans ?_
    rw [hk, Option.map_some, hreleased]
  have hinv : s'.Inv (some p) xs ys := by
    subst hs'
    refine h.change p rfl rfl h.dns h.ident (fun q hq => ?_) ?_
    · exact ⟨rfl, hclients q hq, Iff.rfl, rfl, id, Iff.rfl, Iff.rfl, Iff.rfl⟩
    · refine ⟨hp.query, hp.fd, fun hle => ?_, hp.listed, hp.own, fun _ hne => absurd rfl hne,
        fun _ hne => absurd rfl hne, fun _ _ hne => absurd rfl hne⟩
      have hfresh := (hp.fresh hle).2
      rw [hk] at hfresh
      cases hfresh
  have hcalm' : s'.Calm (some p) := by
    intro q b hb
    rw [hrequests] at hb
    exact hcalm q b hb
  obtain ⟨hinv', hexits⟩ := hinv.clientEvents hcalm' lines
  refine ⟨hinv', hexits.calm hcalm', fun q hq => ?_, ?_, ?_⟩
  · have hne : some p ≠ some q := fun heq => hq (Option.some_inj.mp heq).symm
    split
    · rename_i hexit
      exact hexits.freed q hexit hne
    · rename_i hexit
      exact (hexits.requests q (.inl hexit)).trans (congrFun hrequests q)
  · exact (hexits.requests p (.inr rfl)).trans (congrFun hrequests p)
  · rw [hexits.released, hclient]
    rfl

theorem Inv.freeRequest (h : s.Inv (some p) xs ys) (ha : s.requests p = some a) :
    (s.freeRequest p).Inv (some p) xs ys := by
  have hp := h.each p
  have hfree : s.freeRequest p = { s with requests := update s.requests p none } := by
    unfold AuthState.freeRequest
    simp only [ha]
  have hnone : (s.freeRequest p).requests p = none := by
    rw [hfree]
    exact update_self _ _ _
  obtain ⟨hx, hy⟩ := h.notListed
  rw [hfree] at hnone ⊢
  refine h.change p rfl rfl h.dns h.ident (fun q hq => ?_) ?_
  · exact ⟨update_of_ne hq _ _, rfl, Iff.rfl, rfl, id, Iff.rfl, Iff.rfl, Iff.rfl⟩
  · refine ⟨hp.query, hp.fd, fun hle => ⟨hnone, (hp.fresh hle).2⟩, ?_, fun hb => ?_,
      fun _ hne => absurd rfl hne, fun _ hne => absurd rfl hne, fun _ _ hne => absurd rfl hne⟩
    · rintro (hin | hin)
      · exact absurd hin hx
      · exact absurd hin hy
    · rw [hnone] at hb
      cases hb

theorem Inv.finish (h : s.Inv (some p) xs ys) (hnone : s.requests p = none)
    (hreleased : (s.clients p).map AuthClient.released = some 1) : s.Inv none xs ys := by
  have hp := h.each p
  obtain ⟨hx, hy⟩ := h.notListed
  refine h.change p rfl rfl h.dns h.ident (fun q hq => ?_) ?_
  · refine ⟨rfl, rfl, Iff.rfl, rfl, id, ?_, Iff.rfl, Iff.rfl⟩
    exact iff_of_false (Option.some_ne_none q ·.symm) fun heq => hq (Option.some_inj.mp heq).symm
  · refine ⟨hp.query, hp.fd, hp.fresh, ?_, hp.own, fun hb => ?_, fun hb => ?_, fun hk _ _ => ?_⟩
    · rintro (hin | hin)
      · exact absurd hin hx
      · exact absurd hin hy
    · rw [hnone] at hb
      cases hb
    · rw [hnone] at hb
      cases hb
    · rw [hk] at hreleased
      exact .inl (Option.some_inj.mp hreleased)

/-! ### The callbacks -/

def Ready (s : AuthState) : Prop := ∃ xs ys, s.Inv none xs ys ∧ s.Calm none

/-- In `start_auth`, before the DNS query is made. -/
def Starting (s : AuthState) (p : Nat) : Prop :=
  ∃ xs ys a, s.Inv none xs ys ∧ s.Calm (some p) ∧ s.requests p = some a ∧ a.crit = true ∧ p ∉ xs

def Called (s : AuthState) (p : Nat) (crit : Bool) : Prop :=
  if crit then s.Starting p else s.Ready

theorem Called.starting {crit : Bool} (h : s.Called p crit) (hcrit : crit = true) : s.Starting
    p := by
  subst hcrit
  exact h

theorem Called.ready {crit : Bool} (h : s.Called p crit) (hcrit : crit = false) : s.Ready := by
  subst hcrit
  exact h

theorem Owner.congr {k : AuthClient} {b : AuthRequest} (h : s.Owner xs p a k)
    (hclients : s'.clients p = s.clients p) (hcrit : b.crit = a.crit) : s'.Owner xs p b k :=
  ⟨hclients.trans h.client, h.unknown, h.notReleased, h.notExited, by rw [h.dnsQuery, hcrit]⟩

theorem Inv.onClient (h : s.Inv cur xs ys) (c : Nat) {f : AuthClient → AuthClient}
    (hf : ∀ k, (f k).unknown = k.unknown ∧ (f k).released = k.released ∧ (f k).exited = k.exited ∧
      (f k).dnsQuery = k.dnsQuery) : (s.onClient c f).Inv cur xs ys := by
  refine h.onSound c (fun {a k} _ _ hk => ?_) fun k hdone => ?_
  · obtain ⟨hunknown, hreleased, hexited, hquery⟩ := hf k
    refine ⟨?_, hunknown.trans hk.unknown, hreleased.trans hk.notReleased,
      hexited.trans hk.notExited, hquery.trans hk.dnsQuery⟩
    rw [onClient_self, hk.client, Option.map_some]
  · obtain ⟨-, hreleased, hexited, -⟩ := hf k
    rwa [hreleased, hexited]

theorem Inv.releaseAndFree (h : s.Inv (some p) xs ys) (hcalm : s.Calm (some p)) {k : AuthClient}
    (hk : s.clients p = some k) (hreleased : k.released = 0) (hexited : k.exited = false)
    (ha : s.requests p = some a) (lines : List ClientEvent) :
    ((s.releaseAuthClient p lines).freeRequest p).Inv none (xs.filter fun q => ¬exiting lines q)
        (ys.filter fun q => ¬exiting lines q) ∧
      ((s.releaseAuthClient p lines).freeRequest p).Calm none ∧
      ∀ q, q ≠ p → ((s.releaseAuthClient p lines).freeRequest p).requests q =
        if exiting lines q then none else s.requests q := by
  obtain ⟨hinv, hcalm', hothers, hself, hone⟩ :=
    h.releaseAuthClient hcalm hk hreleased hexited lines
  rw [ha] at hself
  have hfree : (s.releaseAuthClient p lines).freeRequest p =
      { s.releaseAuthClient p lines with
        requests := update (s.releaseAuthClient p lines).requests p none } := by
    rw [AuthState.freeRequest]
    simp only [hself]
  have hnone : ((s.releaseAuthClient p lines).freeRequest p).requests p = none := by
    rw [hfree]
    exact update_self _ _ _
  have hothers' : ∀ q, q ≠ p → ((s.releaseAuthClient p lines).freeRequest p).requests q =
      (s.releaseAuthClient p lines).requests q := by
    intro q hq
    rw [hfree]
    exact update_of_ne hq _ _
  refine ⟨(hinv.freeRequest hself).finish hnone ?_, fun q b hb _ => ?_, fun q hq => ?_⟩
  · rw [hfree]
    exact hone
  · have hq : q ≠ p := by
      rintro rfl
      rw [hnone] at hb
      cases hb
    rw [hothers' q hq] at hb
    exact hcalm' q b hb fun heq => hq (Option.some_inj.mp heq).symm
  · rw [hothers' q hq]
    exact hothers q hq

theorem Inv.freeAndRelease (h : s.Inv (some p) xs ys) (hcalm : s.Calm (some p)) {k : AuthClient}
    (hk : s.clients p = some k) (hreleased : k.released = 0) (hexited : k.exited = false)
    (ha : s.requests p = some a) (lines : List ClientEvent) :
    ((s.freeRequest p).releaseAuthClient p lines).Ready := by
  have hfreed : s.freeRequest p = { s with requests := update s.requests p none } := by
    rw [AuthState.freeRequest]
    simp only [ha]
  have hother : ∀ q, q ≠ p → (s.freeRequest p).requests q = s.requests q := by
    intro q hq
    rw [hfreed]
    exact update_of_ne hq _ _
  have hclient : (s.freeRequest p).clients p = some k := by
    rw [hfreed]
    exact hk
  obtain ⟨hinv, hcalm', -, hself, hone⟩ := (h.freeRequest ha).releaseAuthClient
    (hcalm.of_other hother) hclient hreleased hexited lines
  have hnone : ((s.freeRequest p).releaseAuthClient p lines).requests p = none := by
    rw [hself, hfreed]
    exact update_self _ _ _
  refine ⟨_, _, hinv.finish hnone hone, hcalm'.of_self fun b hb => ?_⟩
  rw [hnone] at hb
  cases hb

theorem dnsHost_same (reply : Option DNSReply) (k : AuthClient) :
    (dnsHost reply k).unknown = k.unknown ∧ (dnsHost reply k).released = k.released ∧
      (dnsHost reply k).exited = k.exited := by
  unfold dnsHost
  split
  · exact ⟨rfl, rfl, rfl⟩
  · split
    · exact ⟨rfl, rfl, rfl⟩
    · exact ⟨rfl, rfl, rfl⟩

theorem Inv.authDnsCallback (h : s.Inv none xs ys) (hcalm : s.Calm none) (hx : p ∈ xs)
    (reply : Option DNSReply) (lines : List ClientEvent) :
    ({ s with queries := s.queries.filter (· ≠ p) }.authDnsCallback p reply lines).Ready := by
  have hp := h.each p
  obtain ⟨a, ha⟩ := Option.isSome_iff_exists.mp (hp.listed (.inl hx)).1
  have hne : none ≠ some p := (Option.some_ne_none p).symm
  obtain ⟨-, hdoing, -⟩ := hp.flags ha hne
  obtain ⟨k, hk⟩ := hp.owner ha hne
  have hown := hp.own ha
  have hcrit := hcalm p a ha hne
  unfold AuthState.authDnsCallback
  simp only [ha, hown]
  -- the state before the client may be released
  generalize hs₁ : (AuthState.onClient (AuthState.setRequest
    { s with queries := s.queries.filter (· ≠ p), dnsList := s.dnsList.delete p } p
    { client := p, timeout := a.timeout, doingAuth := a.doingAuth, dnsPending := false, crit := a.crit })
    p fun k => { dnsHost reply k with dnsQuery := none }) = s₁
  have hrequest : s₁.requests p = some { a with client := p, dnsPending := false } := by
    rw [← hs₁]
    exact update_self _ _ _
  have hclient : s₁.clients p = some { dnsHost reply k with dnsQuery := none } := by
    rw [← hs₁, onClient_self]
    exact congrArg _ hk.client
  have hother : ∀ q, q ≠ p → s₁.requests q = s.requests q := by
    intro q hq
    rw [← hs₁]
    exact update_of_ne hq _ _
  have hcalm₁ : s₁.Calm (some p) := (hcalm.mono p).of_other hother
  obtain ⟨hunknown, hreleased, hexited⟩ := dnsHost_same reply k
  rw [hk.unknown] at hunknown
  rw [hk.notReleased] at hreleased
  rw [hk.notExited] at hexited
  have hinv : ∀ cur, (cur = some p ∧ p ∉ ys ∨ cur = none ∧ p ∈ ys) →
      s₁.Inv cur (xs.filter (· ≠ p)) ys := by
    intro cur hcur
    have hcurOther : ∀ q, q ≠ p → cur ≠ some q := by
      rintro q hq rfl
      rcases hcur with ⟨heq, -⟩ | ⟨heq, -⟩
      · exact hq (Option.some_inj.mp heq)
      · cases heq
    have hcurSelf : cur ≠ some p → p ∈ ys := fun hno => (hcur.resolve_left fun h => hno h.1).2
    rw [← hs₁] at hrequest hclient hother ⊢
    refine h.change p rfl rfl (h.dns.delete_filter hx) h.ident (fun q hq => ?_) ?_
    · refine ⟨hother q hq, onClient_of_ne _ _ hq, mem_filter_ne hq, rfl, id, ?_, mem_filter_ne hq,
        Iff.rfl⟩
      exact iff_of_false (hcurOther q hq) (Option.some_ne_none q).symm
    · refine At.of_request hrequest (iff_of_false notMem_filter_ne notMem_filter_ne) hp.fd
        (h.below (.inl hx)) ?_ rfl (fun hno => ?_) fun hno => ?_
      · rintro (hin | hin)
        · exact absurd hin notMem_filter_ne
        · rintro rfl
          exact (hcur.resolve_right fun hright => Option.some_ne_none p hright.1).2 hin
      · exact ⟨(decide_eq_false notMem_filter_ne).symm, hdoing, .inr (.inr (hcurSelf hno))⟩
      · refine ⟨_, hclient, hunknown, hreleased, hexited, ?_⟩
        rw [if_neg]
        rw [hcrit]
        exact fun hor => hor.elim (fun hfalse => Bool.false_ne_true hfalse) notMem_filter_ne
  by_cases hy : p ∈ ys
  · -- the ident reply is still to come
    rw [decide_eq_true hy] at hdoing
    simp only [hdoing, if_true]
    refine ⟨_, _, hinv none (.inr ⟨rfl, hy⟩), hcalm₁.of_self fun b hb => ?_⟩
    rw [hrequest] at hb
    cases hb
    exact hcrit
  · rw [decide_eq_false hy] at hdoing
    simp only [hdoing, Bool.false_eq_true, if_false]
    have hown := hinv (some p) (.inl ⟨rfl, hy⟩)
    exact hown.freeAndRelease hcalm₁ hclient hreleased hexited hrequest lines

theorem Inv.authError (h : s.Inv none xs ys) (hcalm : s.Calm (some p)) (hy : p ∈ ys)
    (ha : s.requests p = some a) (hstart : a.crit = true → p ∉ xs) (lines : List ClientEvent) :
    (s.authError p lines).Called p a.crit := by
  have hp := h.each p
  have hne : none ≠ some p := (Option.some_ne_none p).symm
  obtain ⟨hdns, -, -⟩ := hp.flags ha hne
  obtain ⟨k, hk⟩ := hp.owner ha hne
  have hown := hp.own ha
  have hopen := hp.fd.mpr hy
  unfold AuthState.authError
  simp only [ha, hown, closeFd, hopen, if_false]
  generalize hs₁ : AuthState.setRequest { s with
    fds := update s.fds p .closed
    identList := s.identList.delete p } p
    { client := p, timeout := a.timeout, doingAuth := false, dnsPending := a.dnsPending, crit := a.crit } =
    s₁
  have hrequest : s₁.requests p = some { a with client := p, doingAuth := false } := by
    rw [← hs₁]
    exact update_self _ _ _
  have hclients : s₁.clients = s.clients := by rw [← hs₁]; rfl
  have hother : ∀ q, q ≠ p → s₁.requests q = s.requests q := by
    intro q hq
    rw [← hs₁]
    exact update_of_ne hq _ _
  have hcalm₁ : s₁.Calm (some p) := hcalm.of_other hother
  have hinv : ∀ cur, (cur = some p ∧ p ∉ xs ∨ cur = none ∧ (a.crit = true ∨ p ∈ xs)) →
      s₁.Inv cur xs (ys.filter (· ≠ p)) := by
    intro cur hcur
    have hcurOther : ∀ q, q ≠ p → cur ≠ some q := by
      rintro q hq rfl
      rcases hcur with ⟨heq, -⟩ | ⟨heq, -⟩
      · exact hq (Option.some_inj.mp heq)
      · cases heq
    have hcurSelf : cur ≠ some p → a.crit = true ∨ p ∈ xs := fun hno =>
      (hcur.resolve_left fun h => hno h.1).2
    have hfd : s₁.fds p = .closed := by
      rw [← hs₁]
      exact update_self _ _ _
    have hfds : ∀ q, q ≠ p → s₁.fds q = s.fds q := by
      intro q hq
      rw [← hs₁]
      exact update_of_ne hq _ _
    rw [← hs₁] at hrequest hclients hother hfd hfds ⊢
    refine h.change p rfl rfl h.dns (h.ident.delete_filter hy) (fun q hq => ?_) ?_
    · refine ⟨hother q hq, rfl, Iff.rfl, hfds q hq, id, ?_, Iff.rfl, mem_filter_ne hq⟩
      exact iff_of_false (hcurOther q hq) (Option.some_ne_none q).symm
    · refine At.of_request hrequest hp.query (iff_of_false (fun hno => hno hfd) notMem_filter_ne)
        (h.below (.inr hy)) ?_ rfl (fun hno => ?_) fun hno => ⟨k, hk.congr rfl rfl⟩
      · rintro (hin | hin)
        · rintro rfl
          exact (hcur.resolve_right fun hright => Option.some_ne_none p hright.1).2 hin
        · exact absurd hin notMem_filter_ne
      · exact ⟨hdns, (decide_eq_false notMem_filter_ne).symm, (hcurSelf hno).imp_right .inl⟩
  unfold Called
  cases hcrit : a.crit with
  | true =>
    simp only [Bool.not_true, Bool.and_false, Bool.false_eq_true, if_false, if_true]
    exact ⟨_, _, _, hinv none (.inr ⟨rfl, .inl hcrit⟩), hcalm₁, hrequest, hcrit, hstart hcrit⟩
  | false =>
    by_cases hx : p ∈ xs
    · -- the DNS answer is still to come
      rw [decide_eq_true hx] at hdns
      simp only [hdns, Bool.not_true, Bool.false_and, Bool.false_eq_true, if_false]
      refine ⟨_, _, hinv none (.inr ⟨rfl, .inr hx⟩), hcalm₁.of_self fun b hb => ?_⟩
      rw [hrequest] at hb
      cases hb
      exact hcrit
    · rw [decide_eq_false hx] at hdns
      simp only [hdns, Bool.not_false, Bool.and_true, if_true, Bool.false_eq_true, if_false]
      have hclient : s₁.clients p = some k := (congrFun hclients p).trans hk.client
      obtain ⟨hinv', hcalm', -⟩ := (hinv (some p) (.inl ⟨rfl, hx⟩)).releaseAndFree hcalm₁ hclient
        hk.notReleased hk.notExited hrequest lines
      exact ⟨_, _, hinv', hcalm'⟩

theorem Inv.setFd (h : s.Inv cur xs ys) (hy : p ∈ ys) {v : IdentFd} (hv : v ≠ .closed) :
    Inv { s with fds := update s.fds p v } cur xs ys := by
  have hp := h.each p
  refine h.change p rfl rfl h.dns h.ident (fun q hq => ?_) ?_
  · exact ⟨rfl, rfl, Iff.rfl, update_of_ne hq _ _, id, Iff.rfl, Iff.rfl, Iff.rfl⟩
  · refine ⟨hp.query, iff_of_true ?_ hy, hp.fresh, hp.listed, hp.own, hp.flags, fun ha hne =>
      (hp.owner ha hne).imp fun _ hk => hk.congr rfl rfl, hp.done⟩
    change update s.fds p v p ≠ .closed
    rwa [update_self]

theorem Inv.readAuthReply (h : s.Inv none xs ys) (hcalm : s.Calm (some p)) (hy : p ∈ ys)
    (ha : s.requests p = some a) (hstart : a.crit = true → p ∉ xs) (recv : Recv)
    (lines : List ClientEvent) : (s.readAuthReply p recv lines).Called p a.crit := by
  cases recv with
  | again =>
    have hinv : Inv { s with fds := update s.fds p .reading } none xs ys :=
      h.setFd hy fun heq => IdentFd.noConfusion heq
    unfold Called
    cases hcrit : a.crit with
    | true => exact ⟨xs, ys, a, hinv, hcalm, ha, hcrit, hstart hcrit⟩
    | false =>
      have hself : ∀ b, s.requests p = some b → b.crit = false := by
        intro b hb
        rw [ha] at hb
        cases hb
        exact hcrit
      exact ⟨xs, ys, hinv, hcalm.of_self hself⟩
  | failed => exact h.authError hcalm hy ha hstart lines
  | text buf =>
    have hown := (h.each p).own ha
    have hclient : (s.onClient p (identReply buf)).Inv none xs ys := by
      refine h.onClient p fun k => ?_
      unfold identReply
      split
      · exact ⟨rfl, rfl, rfl, rfl⟩
      · exact ⟨rfl, rfl, rfl, rfl⟩
    have hsame : s.readAuthReply p (.text buf) lines =
        (s.onClient p (identReply buf)).authError p lines := by
      have ha' : (s.onClient p (identReply buf)).requests p = some a := ha
      unfold AuthState.readAuthReply AuthState.authError
      simp only [ha, ha', hown]
    rw [hsame]
    exact hclient.authError hcalm hy ha hstart lines

theorem Inv.authConnectCallback (h : s.Inv none xs ys) (hcalm : s.Calm (some p)) (hy : p ∈ ys)
    (ha : s.requests p = some a) (hstart : a.crit = true → p ∉ xs) (result : Connected)
    (lines : List ClientEvent) : (s.authConnectCallback p result lines).Called p a.crit := by
  cases result with
  | failed => exact h.authError hcalm hy ha hstart lines
  | sent recv => exact h.readAuthReply hcalm hy ha hstart recv lines

/-! ### `start_auth` -/

theorem Inv.startAuthQuery (h : s.Inv none xs ys) (hcalm : s.Calm (some p)) (hx : p ∉ xs)
    (hy : p ∉ ys)
    (ha : s.requests p = some a) (hcrit : a.crit = true) (ident : IdentStart) :
    (s.startAuthQuery p a ident).Starting p := by
  have hp := h.each p
  have hne : none ≠ some p := (Option.some_ne_none p).symm
  obtain ⟨hdns, -, -⟩ := hp.flags ha hne
  obtain ⟨k, hk⟩ := hp.owner ha hne
  have hadded : ∀ v, v ≠ IdentFd.closed → Inv { s.setRequest p { a with doingAuth := true } with
      identList := s.identList.add p
      fds := update s.fds p v } none xs (p :: ys) := by
    intro v hv
    have hrequest : (s.setRequest p { a with doingAuth := true }).requests p =
        some { a with doingAuth := true } := update_self _ _ _
    refine h.change p rfl rfl h.dns (h.ident.add hy) (fun q hq => ?_) ?_
    · refine ⟨update_of_ne hq _ _, rfl, Iff.rfl, update_of_ne hq _ _, id, Iff.rfl,
        Iff.rfl, ?_⟩
      rw [mem_cons]
      exact or_iff_right hq
    · refine At.of_request hrequest hp.query (iff_of_true ?_ mem_cons_self) (hp.below ha)
        (fun _ => hne) (show a.client = p from hp.own ha) (fun _ => ?_) fun _ => ⟨k, hk.congr rfl rfl⟩
      · change update s.fds p v p ≠ .closed
        rwa [update_self]
      · exact ⟨hdns, (decide_eq_true mem_cons_self).symm, .inl hcrit⟩
  have hcalm' : (s.setRequest p { a with doingAuth := true }).Calm (some p) :=
    hcalm.of_other fun q hq => update_of_ne hq _ _
  have hrequest' : (s.setRequest p { a with doingAuth := true }).requests p =
      some { a with doingAuth := true } := update_self _ _ _
  cases ident with
  | noSocket => exact ⟨xs, ys, a, h, hcalm, ha, hcrit, hx⟩
  | inProgress =>
    exact ⟨xs, p :: ys, _, hadded _ fun heq => IdentFd.noConfusion heq, hcalm', hrequest', hcrit,
      hx⟩
  | atOnce result =>
    have hcalled := (hadded .called fun heq => IdentFd.noConfusion heq).authConnectCallback hcalm'
      mem_cons_self hrequest' (fun _ => hx) result []
    exact hcalled.starting hcrit

theorem Starting.query (h : s.Starting p) (dns : Option (Option DNSReply))
    (lines : List ClientEvent) :
    Ready (match s.requests p with
      | none => s.useFreed
      | some auth =>
        let s := s.setRequest p { auth with dnsPending := true, crit := false }
        let s := { s with dnsList := s.dnsList.add p }
        match dns with
        | none => { s with queries := p :: s.queries }
        | some reply => s.authDnsCallback p reply lines) := by
  obtain ⟨xs, ys, a, h, hcalm, ha, hcrit, hx⟩ := h
  have hp := h.each p
  have hne : none ≠ some p := (Option.some_ne_none p).symm
  obtain ⟨-, hdoing, -⟩ := hp.flags ha hne
  obtain ⟨k, hk⟩ := hp.owner ha hne
  simp only [ha]
  have hrequest : (s.setRequest p { a with dnsPending := true, crit := false }).requests p =
      some { a with dnsPending := true, crit := false } := update_self _ _ _
  have hquery : p ∉ s.queries := fun hin => hx (hp.query.mp hin)
  have hinv : Inv { s.setRequest p { a with dnsPending := true, crit := false } with
      dnsList := s.dnsList.add p
      queries := p :: s.queries } none (p :: xs) ys := by
    refine h.change p rfl rfl (h.dns.add hx) h.ident (fun q hq => ?_) ?_
    · refine ⟨update_of_ne hq _ _, rfl, ?_, rfl, id, Iff.rfl, ?_, Iff.rfl⟩
      · exact List.mem_cons.trans (or_iff_right hq)
      · exact List.mem_cons.trans (or_iff_right hq)
    · refine At.of_request hrequest (iff_of_true mem_cons_self mem_cons_self) hp.fd (hp.below ha)
        (fun _ => hne) (show a.client = p from hp.own ha) (fun _ => ?_) fun _ => ?_
      · exact ⟨(decide_eq_true mem_cons_self).symm, hdoing, .inr (.inl mem_cons_self)⟩
      · refine ⟨k, hk.client, hk.unknown, hk.notReleased, hk.notExited, ?_⟩
        rw [hk.dnsQuery, if_pos (.inl hcrit), if_pos (.inr mem_cons_self)]
  have hcalm' : (s.setRequest p { a with dnsPending := true, crit := false }).Calm none := by
    refine (hcalm.of_other fun q hq => update_of_ne hq _ _).of_self fun b hb => ?_
    rw [hrequest] at hb
    cases hb
    rfl
  cases dns with
  | none => exact ⟨_, _, hinv, hcalm'⟩
  | some reply =>
    -- an answer at once is one to a query that was just made
    have hready := hinv.authDnsCallback hcalm' mem_cons_self reply lines
    have hfilter : (p :: s.queries).filter (· ≠ p) = s.queries := by
      rw [filter_cons_of_neg (by simp), filter_ne_self hquery]
    simp only [hfilter] at hready
    exact hready

theorem Ready.startAuth (h : s.Ready) (ip : Address) (host : CStr) (now : Nat) (disableAuth : Bool)
    (ident : IdentStart) (dns : Option (Option DNSReply)) (lines : List ClientEvent) :
    (s.startAuth ip host now disableAuth ident dns lines).Ready := by
  obtain ⟨xs, ys, h, hcalm⟩ := h
  have hp := h.each s.nextPtr
  obtain ⟨hnone, hnoclient⟩ := hp.fresh le_rfl
  have hx : s.nextPtr ∉ xs := fun hin => Nat.lt_irrefl _ (h.below (.inl hin))
  have hy : s.nextPtr ∉ ys := fun hin => Nat.lt_irrefl _ (h.below (.inr hin))
  have hne : none ≠ some s.nextPtr := (Option.some_ne_none _).symm
  unfold AuthState.startAuth
  simp only
  generalize hauth : (⟨s.nextPtr, now + CONNECTTIMEOUT, false, false, true⟩ : AuthRequest) = auth
  generalize hs₁ : ({ s with
    clients := update s.clients s.nextPtr (some
      { ip := ip, host := host, dnsQuery := some s.nextPtr })
    requests := update s.requests s.nextPtr (some auth)
    nextPtr := s.nextPtr + 1 } : AuthState) = s₁
  have hrequest : s₁.requests s.nextPtr = some auth := by
    rw [← hs₁]
    exact update_self _ _ _
  have hclient : s₁.clients s.nextPtr = some { ip := ip, host := host, dnsQuery := some s.nextPtr } := by
    rw [← hs₁]
    exact update_self _ _ _
  have hother : ∀ q, q ≠ s.nextPtr → s₁.requests q = s.requests q := by
    intro q hq
    rw [← hs₁]
    exact update_of_ne hq _ _
  have hinv : s₁.Inv none xs ys := by
    rw [← hs₁] at hrequest hclient hother ⊢
    refine h.change s.nextPtr rfl rfl h.dns h.ident (fun q hq => ?_) ?_
    · exact ⟨hother q hq, update_of_ne hq _ _, Iff.rfl, rfl, Nat.le_of_succ_le, Iff.rfl,
        Iff.rfl,
        Iff.rfl⟩
    · refine At.of_request hrequest hp.query hp.fd (Nat.lt_succ_self _) (fun _ => hne) ?_
        (fun _ => ?_) fun _ => ⟨_, hclient, rfl, rfl, rfl, ?_⟩
      · rw [← hauth]
      · rw [← hauth]
        exact ⟨(decide_eq_false hx).symm, (decide_eq_false hy).symm, .inl rfl⟩
      · rw [← hauth]
        exact (if_pos (.inl rfl)).symm
  have hcalm₁ : s₁.Calm (some s.nextPtr) := (hcalm.mono _).of_other hother
  have hcrit : auth.crit = true := by rw [← hauth]
  have hstarting : Starting (if disableAuth = true then s₁ else s₁.startAuthQuery s.nextPtr auth
      ident)
      s.nextPtr := by
    split
    · exact ⟨xs, ys, auth, hinv, hcalm₁, hrequest, hcrit, hx⟩
    · exact hinv.startAuthQuery hcalm₁ hx hy hrequest hcrit ident
  exact hstarting.query dns lines

/-! ### Time-outs -/

theorem Inv.finishOff {k : AuthClient} (h : s.Inv none xs ys) (hcalm : s.Calm none)
    (ha : s.requests p = some a) (hrequests : s'.requests = s.requests)
    (hclients : ∀ q, q ≠ p → s'.clients q = s.clients q) (hk : s'.clients p = some k)
    (hreleased : k.released = 0) (hexited : k.exited = false)
    (hqueries : s'.queries = s.queries.filter (· ≠ p))
    (hfds : s'.fds = update s.fds p .closed) (hnext : s'.nextPtr = s.nextPtr)
    (hfault : s'.fault = s.fault) (hwrong : s'.wrong = s.wrong)
    (hdnsList : s'.dnsList.IsList (xs.filter (· ≠ p)))
    (hidentList : s'.identList.IsList (ys.filter (· ≠ p))) (lines : List ClientEvent) :
    ∃ xs', ((s'.releaseAuthClient p lines).freeRequest p).Inv none xs'
        ((ys.filter (· ≠ p)).filter fun q => ¬exiting lines q) ∧
      ((s'.releaseAuthClient p lines).freeRequest p).Calm none ∧
      ∀ q, q ≠ p → ((s'.releaseAuthClient p lines).freeRequest p).requests q =
        if exiting lines q then none else s.requests q := by
  have hp := h.each p
  have hinv : s'.Inv (some p) (xs.filter (· ≠ p)) (ys.filter (· ≠ p)) := by
    refine h.change p hfault hwrong hdnsList hidentList (fun q hq => ?_) ?_
    · refine ⟨congrFun hrequests q, hclients q hq, ?_, ?_, fun hle => hnext ▸ hle, ?_,
        mem_filter_ne hq, mem_filter_ne hq⟩
      · rw [hqueries]
        exact mem_filter_ne hq
      · rw [hfds]
        exact update_of_ne hq _ _
      · exact iff_of_false (fun heq => hq (Option.some_inj.mp heq).symm)
          (Option.some_ne_none q).symm
    · refine ⟨?_, ?_, fun hle => ?_, ?_, fun hb => ?_, fun _ hno => absurd rfl hno,
        fun _ hno => absurd rfl hno, fun _ _ hno => absurd rfl hno⟩
      · rw [hqueries]
        exact iff_of_false notMem_filter_ne notMem_filter_ne
      · rw [hfds, update_self]
        exact iff_of_false (fun hno => hno rfl) notMem_filter_ne
      · have hfresh := (hp.fresh (hnext ▸ hle)).1
        rw [ha] at hfresh
        cases hfresh
      · rintro (hin | hin)
        · exact absurd hin notMem_filter_ne
        · exact absurd hin notMem_filter_ne
      · rw [hrequests] at hb
        exact hp.own hb
  have hcalm' : s'.Calm (some p) := (hcalm.mono p).of_other fun q _ => congrFun hrequests q
  obtain ⟨hinv', hcalm'', hothers⟩ := hinv.releaseAndFree hcalm' hk hreleased hexited
    ((congrFun hrequests p).trans ha) lines
  rw [hrequests] at hothers
  exact ⟨_, hinv', hcalm'', hothers⟩

theorem Inv.timeoutOne (h : s.Inv none xs ys) (hcalm : s.Calm none) (hy : p ∈ ys)
    (ha : s.requests p = some a) {now : Nat} (hout : a.timeout ≤ now) (lines : List ClientEvent) :
    ∃ xs', (s.timeoutOne now p a lines).Inv none xs'
        ((ys.filter (· ≠ p)).filter fun q => ¬exiting lines q) ∧
      (s.timeoutOne now p a lines).Calm none ∧
      ∀ q, q ≠ p → (s.timeoutOne now p a lines).requests q =
        if exiting lines q then none else s.requests q := by
  have hp := h.each p
  have hne : none ≠ some p := (Option.some_ne_none p).symm
  obtain ⟨hdns, -, -⟩ := hp.flags ha hne
  obtain ⟨k, hk⟩ := hp.owner ha hne
  have hown := hp.own ha
  have hopen := hp.fd.mpr hy
  have hcrit := hcalm p a ha hne
  have hdnsQuery := hk.dnsQuery
  rw [hcrit] at hdnsQuery
  simp only [Bool.false_eq_true, false_or] at hdnsQuery
  unfold AuthState.timeoutOne
  rw [if_pos hout]
  simp only [closeFd, hopen, if_false, hown]
  by_cases hx : p ∈ xs
  · rw [decide_eq_true hx] at hdns
    rw [if_pos hx] at hdnsQuery
    simp only [hdns, if_true, hk.client, Option.bind_some, hdnsQuery]
    refine h.finishOff (k := { k with dnsQuery := none }) hcalm ha ?_ (fun q hq => ?_) ?_
      hk.notReleased hk.notExited ?_ ?_ ?_ ?_ ?_ (h.dns.delete_filter hx)
      (h.ident.delete_filter hy) lines
    · rfl
    · exact onClient_of_ne _ _ hq
    · refine (onClient_self _ p _).trans ?_
      exact congrArg _ hk.client
    · rfl
    · rfl
    · rfl
    · rfl
    · rfl
  · rw [decide_eq_false hx] at hdns
    simp only [hdns, Bool.false_eq_true, if_false]
    refine h.finishOff (k := k) hcalm ha ?_ (fun q hq => ?_) ?_ hk.notReleased hk.notExited ?_
      ?_ ?_ ?_ ?_ ?_ (h.ident.delete_filter hy) lines
    · rfl
    · rfl
    · exact hk.client
    · exact (filter_ne_self fun hin => hx (hp.query.mp hin)).symm
    · rfl
    · rfl
    · rfl
    · rfl
    · rw [filter_ne_self hx]
      exact h.dns

/-- The loop of `timeout_auth_queries_event` from a place of the list on: either no
next client exits in it, and the authorisation is ready for the next event, or a
request is used that was freed. -/
theorem Inv.timeoutLoop (s₀ : AuthState) (now : Nat) (lines : Nat → List ClientEvent)
    {ps as : List Nat}
    {gone : List ClientEvent} {n : Nat}
    (h : s.Inv none xs (as ++ ps.filter fun q => decide (.exit q ∉ gone))) (hcalm : s.Calm none)
    (hsame : ∀ q ∈ ps, .exit q ∉ gone → s.requests q = s₀.requests q)
    (hn : (ps.filter fun q => decide (.exit q ∉ gone)).length < n) :
    s₀.TimeoutsKeep now lines gone ps ∧ (AuthState.timeoutLoop now lines n
        (ps.filter fun q => decide (.exit q ∉ gone)).head? s).Ready ∨
      ¬s₀.TimeoutsKeep now lines gone ps ∧ (AuthState.timeoutLoop now lines n
        (ps.filter fun q => decide (.exit q ∉ gone)).head? s).fault = true := by
  induction ps generalizing s xs as gone n with
  | nil =>
    cases n with
    | zero => cases hn
    | succ n => exact .inl ⟨trivial, xs, as ++ [], h, hcalm⟩
  | cons p ps ih =>
    rw [TimeoutsKeep]
    have hsame' : ∀ q ∈ ps, .exit q ∉ gone → s.requests q = s₀.requests q := fun q hq =>
      hsame q (mem_cons_of_mem _ hq)
    by_cases hgone : .exit p ∈ gone
    · -- the client has exited in the loop before
      have hfilter : ((p :: ps).filter fun q => decide (.exit q ∉ gone)) =
          ps.filter fun q => decide (.exit q ∉ gone) :=
        filter_cons_of_neg (by simp [hgone])
      rw [hfilter] at h hn ⊢
      rw [if_pos (.inl hgone)]
      exact ih h hcalm hsame' hn
    · have hfilter : ((p :: ps).filter fun q => decide (.exit q ∉ gone)) =
          p :: ps.filter fun q => decide (.exit q ∉ gone) :=
        filter_cons_of_pos (by simp [hgone])
      rw [hfilter] at h hn ⊢
      generalize hrest : (ps.filter fun q => decide (.exit q ∉ gone)) = rest at *
      have hp : p ∈ as ++ p :: rest := mem_append_right _ mem_cons_self
      obtain ⟨a, ha⟩ := Option.isSome_iff_exists.mp ((h.each p).listed (.inr hp)).1
      have ha₀ : s₀.requests p = some a := (hsame p mem_cons_self hgone).symm.trans ha
      obtain ⟨m, rfl⟩ : ∃ m, n = m + 1 := ⟨n - 1, by omega⟩
      have hm : rest.length < m := Nat.lt_of_succ_lt_succ hn
      rw [head?_cons, AuthState.timeoutLoop]
      simp only [ha, h.ident.next]
      have htimed : s₀.timedOut now p = decide (a.timeout ≤ now) := by
        rw [timedOut, ha₀, Option.any_some]
      by_cases hout : a.timeout ≤ now
      · rw [if_neg (by rw [htimed]; simp [hgone, hout])]
        obtain ⟨xs', hinv, hcalm', hothers⟩ := h.timeoutOne hcalm hp ha hout (lines p)
        have hnodup := h.ident.nodup
        have hout' := (List.nodup_middle.mp hnodup).notMem
        rw [mem_append, not_or] at hout'
        have hne : ∀ {q}, q ∈ rest → q ≠ p := fun hq => ne_of_mem_of_not_mem hq hout'.2
        by_cases hnext : ∀ q, rest.head? = some q → .exit q ∉ lines p
        · have hleft : (rest.filter fun q => decide (¬exiting (lines p) q)) =
              ps.filter fun q => decide (.exit q ∉ gone ++ lines p) := by
            rw [← hrest, filter_filter]
            refine filter_congr fun q _ => ?_
            rw [← Bool.decide_and, decide_eq_decide, mem_append, not_or, and_comm]
            exact Iff.rfl
          have hhead : rest.head? = (rest.filter fun q =>
              decide (¬exiting (lines p) q)).head? := by
            cases hcons : rest with
            | nil => rfl
            | cons q tail =>
              rw [hcons] at hnext
              have hstays : decide (¬exiting (lines p) q) = true := decide_eq_true (hnext q rfl)
              rw [filter_cons, if_pos hstays]
              rfl
          have hlist : ((as ++ p :: rest).filter (· ≠ p)).filter
              (fun q => decide (¬exiting (lines p) q)) =
              (as.filter fun q => decide (¬exiting (lines p) q)) ++
                ps.filter fun q => decide (.exit q ∉ gone ++ lines p) := by
            rw [filter_append, filter_cons_of_neg (by simp), filter_ne_self hout'.1,
              filter_ne_self hout'.2, filter_append, hleft]
          rw [hlist] at hinv
          have hrun := ih hinv hcalm' (fun q hq hgone' => ?_) (n := m) ?_
          · rw [← hleft, ← hhead] at hrun
            refine hrun.imp (fun hkeeps => ⟨⟨hnext, hkeeps.1⟩, hkeeps.2⟩) fun hno => ⟨?_, hno.2⟩
            exact fun hkeeps => hno.1 hkeeps.2
          · rw [mem_append, not_or] at hgone'
            have hq' : q ∈ rest := hrest ▸ List.mem_filter.mpr ⟨hq, decide_eq_true hgone'.1⟩
            have hstays : ¬exiting (lines p) q := hgone'.2
            rw [hothers q (hne hq'), if_neg hstays]
            exact hsame' q hq hgone'.1
          · rw [← hleft]
            exact (length_filter_le _ _).trans_lt hm
        · -- the next client has exited
          refine .inr ⟨fun hkeeps => hnext hkeeps.1, ?_⟩
          simp only [not_forall, not_not] at hnext
          obtain ⟨q, hhead, hexit⟩ := hnext
          have hq : q ≠ p := hne (mem_of_head? hhead)
          have hfreed := (hothers q hq).trans (if_pos hexit)
          obtain ⟨j, rfl⟩ : ∃ j, m = j + 1 := ⟨m - 1, by omega⟩
          rw [hhead, AuthState.timeoutLoop]
          simp only [hfreed]
          rfl
      · rw [if_pos (.inr (by rw [htimed]; exact decide_eq_false hout))]
        have hone : s.timeoutOne now p a (lines p) = s := if_neg hout
        rw [hone]
        rw [append_cons, ← hrest] at h
        rw [← hrest] at hm ⊢
        exact ih h hcalm hsame' hm

/-! ### Events -/

theorem Inv.callbackHyps (h : s.Inv none xs ys) (hcalm : s.Calm none) (hfd : s.fds p ≠ .closed) :
    p ∈ ys ∧ s.Calm (some p) ∧ ∃ a, s.requests p = some a ∧ a.crit = false := by
  have hy := (h.each p).fd.mp hfd
  obtain ⟨a, ha⟩ := Option.isSome_iff_exists.mp ((h.each p).listed (.inr hy)).1
  exact ⟨hy, fun q b hb _ => hcalm q b hb (Option.some_ne_none q).symm, a, ha,
    hcalm p a ha (Option.some_ne_none p).symm⟩

theorem Ready.step (h : s.Ready) (op : AuthOp) :
    s.Keeps op ∧ (s.step op).Ready ∨ ¬s.Keeps op ∧ (s.step op).fault = true := by
  obtain ⟨xs, ys, hinv, hcalm⟩ := h
  have hready : s.Ready := ⟨xs, ys, hinv, hcalm⟩
  have hok : ¬s.fault = true := by
    rw [hinv.fault]
    exact Bool.false_ne_true
  unfold AuthState.step
  rw [if_neg hok]
  cases op with
  | accept ip host now disableAuth ident dns lines =>
    exact .inl ⟨trivial, hready.startAuth ip host now disableAuth ident dns lines⟩
  | dnsAnswer p reply lines =>
    refine .inl ⟨trivial, ?_⟩
    simp only
    split
    · rename_i hquery
      exact hinv.authDnsCallback hcalm ((hinv.each p).query.mp hquery) reply lines
    · exact hready
  | connected p result lines =>
    refine .inl ⟨trivial, ?_⟩
    simp only
    split
    · rename_i hfd
      have hopen : s.fds p ≠ .closed := by
        rw [hfd]
        exact fun heq => IdentFd.noConfusion heq
      obtain ⟨hy, hcalm', a, ha, hcrit⟩ := hinv.callbackHyps hcalm hopen
      have hcalled := hinv.setFd hy (v := .called) fun heq => IdentFd.noConfusion heq
      refine (hcalled.authConnectCallback hcalm' hy ha (fun hyes => ?_) result lines).ready hcrit
      rw [hcrit] at hyes
      cases hyes
    · exact hready
  | readable p recv lines =>
    refine .inl ⟨trivial, ?_⟩
    simp only
    split
    · rename_i hfd
      have hopen : s.fds p ≠ .closed := by
        rw [hfd]
        exact fun heq => IdentFd.noConfusion heq
      obtain ⟨hy, hcalm', a, ha, hcrit⟩ := hinv.callbackHyps hcalm hopen
      have hcalled := hinv.setFd hy (v := .called) fun heq => IdentFd.noConfusion heq
      refine (hcalled.readAuthReply hcalm' hy ha (fun hyes => ?_) recv lines).ready hcrit
      rw [hcrit] at hyes
      cases hyes
    · exact hready
  | timeoutQueries now lines =>
    have hall : (ys.filter fun q => decide (ClientEvent.exit q ∉ ([] : List ClientEvent))) = ys :=
      List.filter_eq_self.mpr fun q _ => decide_eq_true not_mem_nil
    have hlist : s.Inv none xs ([] ++ ys.filter fun q =>
        decide (ClientEvent.exit q ∉ ([] : List ClientEvent))) := by
      rw [hall]
      exact hinv
    have hbelow : (ys.filter fun q => decide (ClientEvent.exit q ∉
        ([] : List ClientEvent))).length <
        s.nextPtr + 1 := by
      rw [hall]
      exact Nat.lt_succ_of_le (length_le_of_below hinv.ident.nodup fun q hq =>
        hinv.below (.inr hq))
    have hloop := hlist.timeoutLoop s now lines hcalm (fun _ _ _ => rfl) hbelow
    rw [hall, ← hinv.ident.head] at hloop
    unfold Keeps
    rw [hinv.walkIdent]
    exact hloop
  | client e =>
    refine .inl ⟨trivial, ?_⟩
    obtain ⟨hinv', hexits⟩ := hinv.clientEvents hcalm [e]
    exact ⟨_, _, hinv', hexits.calm hcalm⟩

theorem Ready.sound (h : s.Ready) : s.Sound := by
  obtain ⟨xs, ys, h, hcalm⟩ := h
  have hne : ∀ p : Nat, none ≠ some p := fun p => (Option.some_ne_none p).symm
  refine ⟨h.fault, h.wrong, ⟨xs, h.dns, fun p => (h.each p).query.symm⟩,
    ⟨ys, h.ident, fun p => (h.each p).fd.symm⟩, fun p hp => ?_, fun c k hk => ?_⟩
  · exact ((h.each p).listed (hp.imp (h.each p).query.mp (h.each p).fd.mp)).1
  · have hc := h.each c
    cases ha : s.requests c with
    | none =>
      have hx : c ∉ xs := fun hin => by
        have hsome := (hc.listed (.inl hin)).1
        rw [ha] at hsome
        cases hsome
      have hy : c ∉ ys := fun hin => by
        have hsome := (hc.listed (.inr hin)).1
        rw [ha] at hsome
        cases hsome
      exact .inr ⟨ha, fun hin => hx (hc.query.mp hin), not_not.mp fun hno => hy (hc.fd.mp hno),
        hc.done hk ha (hne c)⟩
    | some a =>
      obtain ⟨k', hk'⟩ := hc.owner ha (hne c)
      have hsame := Option.some_inj.mp (hk.symm.trans hk'.client)
      subst hsame
      obtain ⟨-, -, hpending⟩ := hc.flags ha (hne c)
      rw [hcalm c a ha (hne c)] at hpending
      refine .inl ⟨by rw [ha]; rfl, ?_, hk'.notReleased, hk'.notExited⟩
      rcases hpending with hfalse | hx | hy
      · cases hfalse
      · exact .inl (hc.query.mpr hx)
      · exact .inr (hc.fd.mpr hy)

theorem ready_start : AuthState.start.Ready := by
  refine ⟨[], [], ⟨rfl, rfl, DList.isList_nil _, DList.isList_nil _, fun p => ?_⟩, fun p a ha => ?_⟩
  · refine ⟨Iff.rfl, iff_of_false (fun hno => hno rfl) not_mem_nil, fun _ => ⟨rfl, rfl⟩, ?_,
      fun ha => ?_,
      fun ha => ?_, fun ha => ?_, fun hk => ?_⟩
    · rintro (hin | hin)
      · cases hin
      · cases hin
    · cases ha
    · cases ha
    · cases ha
    · cases hk
  · cases ha

end AuthState

open AuthState in
/-- A run leaves the authorisation sound exactly if in no time-out a client makes the
next one on `auth_doing_ident_list` exit while it is released. -/
theorem auth_sound_iff (ops : List AuthOp) :
    (Run.exec AuthState.step AuthState.start ops).Sound ↔
      Run.Guarded AuthState.step Keeps AuthState.start ops := by
  refine Run.iff_guarded (fun s => s.fault = true) Sound (fun s op (h : s.Ready) hop => ?_)
    (fun s op h hop => ?_) (fun s op hfault => ?_) (fun s h => h.sound) (fun s hfault h => ?_)
      ready_start
  · exact ((h.step op).resolve_right fun hno => hno.1 hop).2
  · exact ((h.step op).resolve_left fun hyes => hop hyes.1).2
  · unfold AuthState.step
    rw [if_pos hfault]
    exact hfault
  · have hnone := h.noFault
    rw [hfault] at hnone
    cases hnone

/-- Two clients wait for ident replies and time out together; the first has sent
lines that register it, make it an operator and close the unregistered connections,
among them the next one on the list. -/
theorem auth_next_freed :
    ¬(Run.exec AuthState.step AuthState.start
      [.accept ⟨.inet, [192, 0, 2, 1]⟩ "192.0.2.1".toList 0 false .inProgress none [],
        .accept ⟨.inet, [192, 0, 2, 2]⟩ "192.0.2.2".toList 0 false .inProgress none [],
        .connected 0 (.sent .again) [], .connected 1 (.sent .again) [],
        .timeoutQueries 30 fun p => if p = 1 then [.register 1, .exit 0] else []]).Sound := by
  intro hsound
  have hfault := hsound.noFault
  revert hfault
  decide +kernel

end Ircd
