import Ircd.BurstInvariant

/-!
The burst of a new link is in a usable order.

The loops of `burst_all` are followed with the users that are still due: `Sent` says
that the lines so far introduce every other user once, each after its server, and
that an SJOIN names only users that were introduced. The marks come out clear
(`NetInv.burstAll_marks`).

- `burst_usable`: every burst of every run.
- `masked_user_named`: what a masked server does to it.
-/

namespace Ircd

open Function List

namespace Network

variable {u s s' : Network} {link : BurstLink} {c d k : Cid} {out : List BurstLine}

/-! ### The marks -/

/-- The network with the flag `FLAGS_BURSTED` on some clients. -/
def mark (u : Network) (marks : Cid → Bool) : Network :=
  { u with clients := fun c => { u.clients c with bursted := marks c } }

variable {marks : Cid → Bool}

@[simp] theorem sendnickTS_mark : (u.mark marks).sendnickTS link c = u.sendnickTS link c := rfl

@[simp] theorem sendChannelModes_mark (chptr : Channel) :
    (u.mark marks).sendChannelModes link chptr = u.sendChannelModes link chptr := rfl

theorem onClient_mark (b : Bool) :
    ((u.mark marks).onClient c fun x => { x with bursted := b }) =
      u.mark (update marks c b) := by
  simp only [mark, onClient]
  congr 1
  funext d
  by_cases hd : d = c
  · subst hd
    simp
  · simp [update_of_ne hd]

theorem burstMember_mark (ms : Membership) :
    burstMember link (u.mark marks, out) ms =
      if marks ms.client = true then (u.mark marks, out)
      else (u.mark (update marks ms.client true),
        if (u.clients ms.client).from = link.ptr then out else out ++ u.sendnickTS link
          ms.client) := by
  simp only [burstMember, onClient_mark]
  change (if marks ms.client = true then _ else if (u.clients ms.client).from = link.ptr then _
    else _) = _
  split_ifs <;> rfl

theorem burstRest_mark (target : Cid) :
    burstRest link (u.mark marks, out) target =
      (u.mark (update marks target false),
        if marks target = false ∧ (u.clients target).from ≠ link.ptr then
          out ++ u.sendnickTS link target
        else out) := by
  simp only [burstRest, onClient_mark]
  change (_, if (!marks target && decide ((u.clients target).from ≠ link.ptr)) = true then _
    else _) = _
  simp only [Bool.and_eq_true, Bool.not_eq_true', decide_eq_true_eq, sendnickTS_mark]

/-! ### What was sent -/

/-- A user that the link has to be told of. -/
def Sendable (u : Network) (link : BurstLink) (c : Cid) : Prop :=
  (u.clients c).isDead = false ∧ (u.clients c).isClient = true ∧ (u.clients c).from ≠ link.ptr

/-- A server that is not behind the link. -/
def Elsewhere (u : Network) (link : BurstLink) (c : Cid) : Prop :=
  c = me ∨ c ∈ u.globalServList ∧ (u.clients c).from ≠ link.ptr

/-- The lines `out` introduce every user that is not due, once. -/
structure Sent (u : Network) (link : BurstLink) (due : Cid → Prop) (out : List BurstLine) : Prop
    where
  unsent : ∀ c, u.Sendable link c → due c → (out.filterMap introduces).count c = 0
  sent : ∀ c, u.Sendable link c → ¬due c → (out.filterMap introduces).count c = 1
  users : ∀ c ∈ out.filterMap introduces, u.Sendable link c
  inOrder : Reading.InOrder (u.names link) introduces (u.Elsewhere link) out

variable {due due' : Cid → Prop}

theorem Sent.congr (h : Sent u link due out) (hdue : ∀ c, u.Sendable link c → (due' c ↔ due c)) :
    Sent u link due' out :=
  ⟨fun c hc hd => h.unsent c hc ((hdue c hc).mp hd), fun c hc hd =>
    h.sent c hc (mt (hdue c hc).mpr hd),
    h.users, h.inOrder⟩

theorem introduces_sendnickTS (link : BurstLink) (hc : (u.clients c).isClient = true) :
    (u.sendnickTS link c).filterMap introduces = [c] := by
  simp only [sendnickTS, hc]
  split_ifs <;> simp_all [introduces]

theorem NetInv.elsewhere (h : NetInv u) (link : BurstLink) (hlive : (u.clients c).isDead = false)
    (hr : (u.clients c).isServer = true ∨ (u.clients c).isClient = true)
    (hfrom : (u.clients c).from ≠ link.ptr) : u.Elsewhere link (u.clients c).servptr := by
  obtain ⟨-, hmem, hdir, -⟩ := h.uplink c hlive hr
  by_cases hme : (u.clients c).servptr = me
  · exact .inl hme
  · exact .inr ⟨hmem, by rw [hdir hme]; exact hfrom⟩

theorem Sent.user (h : Sent u link due out) (hu : NetInv u) (hc : u.Sendable link c) (hdue : due c)
    :
    Sent u link (fun d => due d ∧ d ≠ c) (out ++ u.sendnickTS link c) := by
  obtain ⟨hlive, hclient, hfrom⟩ := hc
  have hintro := introduces_sendnickTS link hclient
  refine ⟨fun d hd hdd => ?_, fun d hd hdd => ?_, fun d hd => ?_, ?_⟩
  · rw [filterMap_append, count_append, hintro, h.unsent d hd hdd.1,
      count_singleton]
    simp [hdd.2.symm]
  · rw [filterMap_append, count_append, hintro, count_singleton]
    by_cases hdc : d = c
    · subst hdc
      simp [h.unsent d hd hdue]
    · simp [h.sent d hd fun hdue => hdd ⟨hdue, hdc⟩, Ne.symm hdc]
  · rw [filterMap_append, hintro, mem_append, mem_singleton] at hd
    rcases hd with hd | rfl
    · exact h.users d hd
    · exact ⟨hlive, hclient, hfrom⟩
  · refine Reading.inOrder_append_iff.mpr ⟨h.inOrder, ?_⟩
    simp only [sendnickTS, hclient, Bool.not_true, Bool.false_eq_true, if_false]
    refine ⟨?_, ?_⟩
    · rintro k rfl
      exact .inl (hu.elsewhere link hlive (.inr hclient) hfrom)
    · split_ifs
      · refine ⟨?_, trivial⟩
        rintro k rfl
        exact .inr rfl
      · trivial

theorem mem_flatten_sendMember (link : BurstLink) (header : CStr) (l : List Membership)
    (st : MembersLoop)
    {ms : Membership} (hms : ms ∈ ((l.foldl (u.sendMember link header) st).lines ++
      [(l.foldl (u.sendMember link header) st).line]).flatten) :
    ms ∈ (st.lines ++ [st.line]).flatten ∨ ms ∈ l := by
  induction l generalizing st with
  | nil => exact .inl hms
  | cons a l ih =>
    rw [foldl_cons] at hms
    rcases ih _ hms with hst | hl
    · simp only [sendMember] at hst
      have hsplit : ms ∈ (st.lines ++ [st.line]).flatten ∨ ms = a := by
        split_ifs at hst
        · simpa [or_assoc] using hst
        · simpa [or_assoc] using hst
      rcases hsplit with hst | rfl
      · exact .inl hst
      · exact .inr mem_cons_self
    · exact .inr (mem_cons_of_mem _ hl)

theorem sendChannelModes_sjoin {chptr : Channel} {l : BurstLine}
    (hl : l ∈ u.sendChannelModes link chptr) :
    ∃ members, l = .sjoin chptr.chname members ∧ ∀ ms ∈ members, ms ∈ chptr.members := by
  unfold sendChannelModes at hl
  split_ifs at hl
  · cases hl
  · simp only [sendMembers, mem_map] at hl
    obtain ⟨members, hmem, rfl⟩ := hl
    refine ⟨members, rfl, fun ms hms => ?_⟩
    have := mem_flatten_sendMember (u := u) link _ chptr.members _
      (List.mem_flatten.mpr ⟨members, hmem, hms⟩)
    simpa using this

theorem Sent.sjoins (h : Sent u link due out) {chptr : Channel}
    (hmembers : ∀ ms ∈ chptr.members, u.Sendable link ms.client ∨
      (u.clients ms.client).from = link.ptr)
    (hdue : ∀ ms ∈ chptr.members, ¬due ms.client) :
    Sent u link due (out ++ u.sendChannelModes link chptr) := by
  have hnone : (u.sendChannelModes link chptr).filterMap introduces = [] := by
    refine List.filterMap_eq_nil_iff.mpr fun l hl => ?_
    obtain ⟨members, rfl, -⟩ := sendChannelModes_sjoin hl
    rfl
  have happend : (out ++ u.sendChannelModes link chptr).filterMap introduces =
      out.filterMap introduces := by
    rw [filterMap_append, hnone, append_nil]
  refine ⟨fun c hc hd => by rw [happend]; exact h.unsent c hc hd,
    fun c hc hd => by rw [happend]; exact h.sent c hc hd,
    fun c hc => h.users c (by rwa [happend] at hc), ?_⟩
  refine Reading.inOrder_append_iff.mpr ⟨h.inOrder, Reading.inOrder_of_known fun l hl k hk => ?_⟩
  obtain ⟨members, rfl, hsub⟩ := sendChannelModes_sjoin hl
  obtain ⟨⟨ms, hms, rfl⟩, hfrom⟩ := hk
  have hsend := (hmembers ms (hsub ms hms)).resolve_right hfrom
  have hcount := h.sent _ hsend (hdue ms (hsub ms hms))
  have hin : ms.client ∈ out.filterMap introduces := by
    rw [← count_pos_iff, hcount]
    exact Nat.one_pos
  obtain ⟨l, hl, hgives⟩ := List.mem_filterMap.mp hin
  exact .inr ⟨l, hl, hgives⟩

/-! ### The loops -/

theorem Sent.members (hu : NetInv u) {l : List Membership}
    (hl : ∀ ms ∈ l, (u.clients ms.client).isDead = false ∧ (u.clients ms.client).isClient = true)
    {marks : Cid → Bool} {out : List BurstLine} (h : Sent u link (marks · = false) out) :
    ∃ marks' out', l.foldl (burstMember link) (u.mark marks, out) = (u.mark marks', out') ∧
      Sent u link (marks' · = false) out' ∧ (∀ c, marks c = true → marks' c = true) ∧
      (∀ ms ∈ l, marks' ms.client = true) ∧
      ∀ c, marks' c = true → marks c = true ∨ (u.clients c).isDead = false := by
  induction l generalizing marks out with
  | nil => exact ⟨marks, out, rfl, h, fun _ hc => hc, by simp, fun _ hc => .inl hc⟩
  | cons ms l ih =>
    obtain ⟨hlive, hclient⟩ := hl ms mem_cons_self
    have hrest := fun m hm => hl m (mem_cons_of_mem ms hm)
    rw [foldl_cons, burstMember_mark]
    cases hmark : marks ms.client with
    | true =>
      obtain ⟨marks', out', heq, hsent, hkept, hall, hnew⟩ := ih hrest h
      refine ⟨marks', out', ?_, hsent, hkept, fun m hm => ?_, hnew⟩
      · rw [if_pos rfl, heq]
      · rcases List.mem_cons.mp hm with rfl | hm
        · exact hkept _ hmark
        · exact hall m hm
    | false =>
      have hstep : Sent u link (update marks ms.client true · = false)
          (if (u.clients ms.client).from = link.ptr then out
            else out ++ u.sendnickTS link ms.client) := by
        by_cases hfrom : (u.clients ms.client).from = link.ptr
        · rw [if_pos hfrom]
          refine h.congr fun c hc => ?_
          have hne : c ≠ ms.client := by
            rintro rfl
            exact hc.2.2 hfrom
          rw [update_of_ne hne]
        · rw [if_neg hfrom]
          refine (h.user hu ⟨hlive, hclient, hfrom⟩ hmark).congr fun c _ => ?_
          by_cases hcm : c = ms.client
          · subst hcm
            simp
          · simp [hcm]
      obtain ⟨marks', out', heq, hsent, hkept, hall, hnew⟩ := ih hrest hstep
      refine ⟨marks', out', ?_, hsent, fun c hc => hkept c ?_, fun m hm => ?_, fun c hc => ?_⟩
      · rw [if_neg (by simp), heq]
      · by_cases hcm : c = ms.client
        · rw [hcm, update_self]
        · rwa [update_of_ne hcm]
      · rcases List.mem_cons.mp hm with rfl | hm
        · exact hkept _ (update_self ..)
        · exact hall m hm
      · rcases hnew c hc with hc | hc
        · by_cases hcm : c = ms.client
          · exact .inr (hcm ▸ hlive)
          · rw [update_of_ne hcm] at hc
            exact .inl hc
        · exact .inr hc

theorem Sent.channels (hu : NetInv u) {chans : List Channel}
    (hchans : ∀ ch ∈ chans, ∀ ms ∈ ch.members,
      (u.clients ms.client).isDead = false ∧ (u.clients ms.client).isClient = true)
    {marks : Cid → Bool} {out : List BurstLine} (h : Sent u link (marks · = false) out)
    (hmarks : ∀ c, marks c = true → (u.clients c).isDead = false) :
    ∃ marks' out', chans.foldl (burstChannel link) (u.mark marks, out) = (u.mark marks', out') ∧
      Sent u link (marks' · = false) out' ∧
      ∀ c, marks' c = true → (u.clients c).isDead = false := by
  induction chans generalizing marks out with
  | nil => exact ⟨marks, out, rfl, h, hmarks⟩
  | cons ch chans ih =>
    have hrest := fun c hc => hchans c (mem_cons_of_mem ch hc)
    have hmembers := hchans ch mem_cons_self
    rw [foldl_cons]
    by_cases hempty : ch.members.isEmpty = true
    · rw [show burstChannel link (u.mark marks, out) ch = (u.mark marks, out) by
        rw [burstChannel, if_pos hempty]]
      exact ih hrest h hmarks
    · obtain ⟨marks₁, out₁, heq, hsent, hkept, hall, hnew⟩ := h.members hu hmembers
      have hstep : burstChannel link (u.mark marks, out) ch =
          (u.mark marks₁, out₁ ++ u.sendChannelModes link ch) := by
        rw [burstChannel, if_neg hempty, heq]
        rfl
      rw [hstep]
      refine ih hrest (hsent.sjoins (fun ms hms => ?_) fun ms hms => ?_) fun c hc => ?_
      · by_cases hfrom : (u.clients ms.client).from = link.ptr
        · exact .inr hfrom
        · obtain ⟨hlive, hclient⟩ := hmembers ms hms
          exact .inl ⟨hlive, hclient, hfrom⟩
      · rw [hall ms hms]
        simp
      · exact (hnew c hc).elim (hmarks c) id

theorem Sent.rest (hu : NetInv u) {l : List Cid} (hnodup : l.Nodup)
    (hl : ∀ c ∈ l, (u.clients c).isDead = false) {marks : Cid → Bool} {out : List BurstLine}
    (h : Sent u link (fun c => c ∈ l ∧ marks c = false) out) (hmarks : ∀ c, marks c = true → c ∈ l)
      :
    ∃ out', l.foldl (burstRest link) (u.mark marks, out) = (u.mark fun _ => false, out') ∧
      Sent u link (fun _ => False) out' := by
  induction l generalizing marks out with
  | nil =>
    have hclear : marks = fun _ => false := by
      funext c
      cases hc : marks c with
      | false => rfl
      | true => exact absurd (hmarks c hc) not_mem_nil
    refine ⟨out, by rw [hclear]; rfl, h.congr fun c _ => ?_⟩
    simp
  | cons c l ih =>
    obtain ⟨hnot, hrest⟩ := List.nodup_cons.mp hnodup
    have hlive := hl c mem_cons_self
    rw [foldl_cons, burstRest_mark]
    refine ih hrest (fun d hd => hl d (mem_cons_of_mem _ hd)) ?_ fun d hd => ?_
    · have hdue : ∀ d, d ≠ c → ((d ∈ l ∧ update marks c false d = false) ↔
          d ∈ c :: l ∧ marks d = false) := fun d hd => by
        rw [update_of_ne hd, mem_cons]
        simp [hd]
      have hdone : ¬(c ∈ l ∧ update marks c false c = false) := fun hc => hnot hc.1
      by_cases hsend : marks c = false ∧ (u.clients c).from ≠ link.ptr
      · rw [if_pos hsend]
        cases hclient : (u.clients c).isClient with
        | true =>
          refine (h.user hu ⟨hlive, hclient, hsend.2⟩ ⟨mem_cons_self, hsend.1⟩).congr
            fun d _ => ?_
          by_cases hd : d = c
          · subst hd
            simp [hnot]
          · rw [hdue d hd]
            simp [hd]
        | false =>
          have hnil : u.sendnickTS link c = [] := by simp [sendnickTS, hclient]
          rw [hnil, append_nil]
          refine h.congr fun d hd => ?_
          have hne : d ≠ c := by
            rintro rfl
            exact absurd (hd.2.1.symm.trans hclient) (by simp)
          exact hdue d hne
      · rw [if_neg hsend]
        refine h.congr fun d hd => ?_
        by_cases hdc : d = c
        · subst hdc
          refine iff_of_false hdone fun hdue => hsend ⟨hdue.2, hd.2.2⟩
        · exact hdue d hdc
    · by_cases hdc : d = c
      · rw [hdc, update_self] at hd
        cases hd
      · rw [update_of_ne hdc] at hd
        exact (List.mem_cons.mp (hmarks d hd)).resolve_left hdc

theorem NetInv.mark_clear (hu : NetInv u) : u.mark (fun _ => false) = u := by
  have hclients : (fun c => { u.clients c with bursted := false }) = u.clients := by
    funext c
    rw [← hu.clear c]
  simp only [mark, hclients]

theorem NetInv.burstAll (hu : NetInv u) (link : BurstLink) :
    ∃ out, u.burstAll link = (u, out) ∧ Sent u link (fun _ => False) out := by
  have hstart : Sent u link ((fun _ => false : Cid → Bool) · = false) [] :=
    ⟨fun _ _ _ => rfl, fun c _ hc => absurd rfl hc, by simp, trivial⟩
  obtain ⟨marks, out, heq, hsent, hmarks⟩ := hstart.channels hu hu.members (by simp)
  have hdue : Sent u link (fun c => c ∈ u.globalClientList ∧ marks c = false) out :=
    hsent.congr fun c hc => by simp [(hu.live c).mpr hc.1]
  obtain ⟨out', heq', hsent'⟩ := Sent.rest hu hu.clientsNodup (fun c hc => (hu.live c).mp hc) hdue
    fun c hc => (hu.live c).mpr (hmarks c hc)
  refine ⟨out', ?_, hsent'⟩
  rw [hu.mark_clear] at heq heq'
  rw [Network.burstAll, heq, heq']

theorem NetInv.serverEstab (h : NetInv s) (hc : s.isConnection link.ptr = true) {name : CStr}
    (hname : name ≠ []) (id : CStr) :
    ∃ out, s.serverEstab link name id = (s.linkServer link.ptr name id,
        (s.linkServer link.ptr name id).burstServers link ++ out) ∧
      Sent (s.linkServer link.ptr name id) link (fun _ => False) out := by
  obtain ⟨out, heq, hsent⟩ := (h.linkServer hc hname id).burstAll link
  refine ⟨out, ?_, hsent⟩
  rw [Network.serverEstab, heq]

theorem NetInv.step (h : NetInv s) (op : NetOp) : NetInv (s.step op) := by
  have hserver : ∀ c, (s.clients c).isDead = false → (s.clients c).isServer = true →
      c ∈ s.globalServList ∧ c ≠ me :=
    fun c hlive hs => ⟨(h.servers c).mpr (.inr ⟨hlive, hs⟩), h.ne_me_of_server hs⟩
  cases op with
  | connect x =>
    refine h.makeClient (by simp) (by simp) (fun _ => rfl) fun hs => ?_
    rcases hs with hs | hs <;> cases hs
  | register c x =>
    simp only [Network.step]
    split_ifs with hc
    · exact h.register hc
    · exact h
  | link link name id =>
    simp only [Network.step]
    split_ifs with hc
    · rw [Bool.and_eq_true, Bool.not_eq_true', isEmpty_eq_false_iff] at hc
      obtain ⟨out, heq, -⟩ := h.serverEstab hc.1 hc.2 id
      rw [heq]
      exact h.linkServer hc.1 hc.2 id
    · exact h
  | server source x =>
    simp only [Network.step]
    split_ifs with hc
    · simp only [Bool.and_eq_true, Bool.not_eq_true', isEmpty_eq_false_iff] at hc
      obtain ⟨hmem, hne⟩ := hserver source hc.1.1 hc.1.2
      exact h.makeClient (by simp) (fun _ => hc.2) (by simp) fun _ => ⟨hmem, hne, hc.1.1, rfl⟩
    · exact h
  | user server x =>
    simp only [Network.step]
    split_ifs with hc
    · simp only [Bool.and_eq_true, Bool.not_eq_true'] at hc
      obtain ⟨hmem, hne⟩ := hserver server hc.1 hc.2
      exact h.makeClient (by simp) (by simp) (by simp) fun _ => ⟨hmem, hne, hc.1, rfl⟩
    · exact h
  | change c x =>
    simp only [Network.step]
    split_ifs with hc
    · simp only [Bool.and_eq_true, Bool.not_eq_true', Bool.or_eq_true] at hc
      exact h.change hc.1 hc.2
    · exact h
  | join c chname channelts flags =>
    simp only [Network.step]
    split_ifs with hc
    · simp only [Bool.and_eq_true, Bool.not_eq_true'] at hc
      exact h.join hc.1 hc.2 chname channelts flags
    · exact h
  | part c chname =>
    refine h.channels fun ch hch ms hms => ?_
    obtain ⟨old, hold, hms, -⟩ := removeFromChannels_mem hch hms
    exact h.members old hold ms hms
  | status c chname flags =>
    refine h.channels fun ch hch ms hms => ?_
    obtain ⟨old, hold, rfl⟩ := List.mem_map.mp hch
    split_ifs at hms
    · obtain ⟨m, hm, rfl⟩ := List.mem_map.mp hms
      split_ifs
      · exact h.members old hold m hm
      · exact h.members old hold m hm
    · exact h.members old hold ms hms
  | channel new =>
    refine h.channels fun ch hch ms hms => ?_
    obtain ⟨old, hold, rfl⟩ := List.mem_map.mp hch
    split_ifs at hms
    · exact h.members old hold ms hms
    · exact h.members old hold ms hms
  | exit c =>
    simp only [Network.step]
    split_ifs with hc
    · simp only [Bool.and_eq_true, Bool.not_eq_true'] at hc
      refine h.exitClient hc.1 ?_
      rintro rfl
      simp [Client.isMe, h.self.1] at hc
    · exact h

theorem netInv_run {self : NetClient} (hname : self.name ≠ []) (ops : List NetOp) :
    NetInv (Run.exec Network.step (start self) ops) :=
  Run.inv_exec (fun _ op h _ => h.step op) (netInv_start hname) (Run.guarded_true _ _)

/-! ### The servers of a burst -/

theorem serverLine_eq_some_iff {l : BurstLine} :
    u.serverLine link c = some l ↔
      (u.clients c).from ≠ link.ptr ∧ u.masked link c = false ∧ l = .server c := by
  unfold serverLine
  split_ifs with hfrom hmask
  · simp [hfrom]
  · simp [hmask]
  · simp [hfrom, hmask, eq_comm]

theorem introduces_burstServers : (u.burstServers link).filterMap introduces =
    u.globalServList.reverse.filter fun c =>
      decide ((u.clients c).from ≠ link.ptr) && !u.masked link c := by
  rw [burstServers, filterMap_filterMap, ← filterMap_eq_filter]
  refine filterMap_congr fun c _ => ?_
  simp only [serverLine, Option.guard]
  by_cases hfrom : (u.clients c).from = link.ptr
  · simp [hfrom]
  · by_cases hmask : u.masked link c = true
    · simp [hfrom, hmask]
    · simp [hfrom, hmask, introduces]

theorem NetInv.count_burstServers (hu : NetInv u) (hc : c ∈ u.globalServList)
    (hfrom : (u.clients c).from ≠ link.ptr) (hmask : u.masked link c = false) :
    ((u.burstServers link).filterMap introduces).count c = 1 := by
  rw [introduces_burstServers]
  refine count_eq_one_of_mem ((List.nodup_reverse.mpr hu.serversNodup).filter _) ?_
  rw [mem_filter, mem_reverse]
  exact ⟨hc, by simp [hfrom, hmask]⟩

theorem mem_burstServers {l : BurstLine} (hl : l ∈ u.burstServers link) :
    ∃ c ∈ u.globalServList, (u.clients c).from ≠ link.ptr ∧ u.masked link c = false ∧
      l = .server c := by
  obtain ⟨c, hc, hline⟩ := List.mem_filterMap.mp hl
  exact ⟨c, List.mem_reverse.mp hc, serverLine_eq_some_iff.mp hline⟩

theorem NetInv.burstServers_inOrder (hu : NetInv u) (link : BurstLink) :
    Reading.InOrder (u.names link) introduces (u.OursFor link) (u.burstServers link) := by
  have hall : Reading.InOrder (u.names link) introduces
      (fun c => u.OursFor link c ∨ (u.clients c).from = link.ptr) (u.burstServers link) := by
    refine hu.order.filterMap (fun c _ l hl k hk => ?_) (fun _ hk => hk.elim) fun c hc k hk => ?_
    · obtain ⟨-, -, rfl⟩ := serverLine_eq_some_iff.mp hl
      by_cases hme : c = me
      · have hk : k = me := by rw [hk, hme, hu.self.2.2.1]
        exact .inl (.inl (.inl hk))
      · exact .inr ⟨hme, hk⟩
    · obtain rfl := Option.some.inj hk
      by_cases hfrom : (u.clients c).from = link.ptr
      · exact .inl (.inr hfrom)
      · cases hmask : u.masked link c with
        | false => exact .inr ⟨.server c, serverLine_eq_some_iff.mpr ⟨hfrom, hmask, rfl⟩, rfl⟩
        | true =>
          rcases (hu.servers c).mp (List.mem_reverse.mp hc) with hme | ⟨-, hserver⟩
          · exact .inl (.inl (.inl hme))
          · exact .inl (.inl (.inr ⟨hserver, hmask⟩))
  refine hall.restrict fun l hl k hk hknown => ?_
  obtain ⟨c, hc, hfrom, -, rfl⟩ := mem_burstServers hl
  obtain rfl : k = (u.clients c).servptr := hk
  refine hknown.elim id fun hbehind => ?_
  rcases (hu.servers c).mp hc with rfl | ⟨hlive, hserver⟩
  · exact .inl hu.self.2.2.1
  · rcases hu.elsewhere link hlive (.inl hserver) hfrom with hme | ⟨-, helse⟩
    · exact .inl hme
    · exact absurd hbehind helse

theorem NetInv.usableBurst (hu : NetInv u) (hsent : Sent u link (fun _ => False) out) :
    UsableBurst u link (u.OursFor link) (u.burstServers link ++ out) := by
  have hnone : ∀ c ∈ u.globalServList, c ∉ out.filterMap introduces := by
    intro c hc hin
    obtain ⟨-, hclient, -⟩ := hsent.users c hin
    obtain ⟨hme, -⟩ := hu.leaf_of_user hclient
    rcases (hu.servers c).mp hc with hself | ⟨-, hserver⟩
    · exact hme hself
    · simp only [Client.isServer, Client.isClient, beq_iff_eq] at hserver hclient
      rw [hserver] at hclient
      cases hclient
  refine ⟨fun c hc hfrom hmask => ?_, fun c hlive hclient hfrom => ?_, ?_⟩
  · rw [filterMap_append, count_append, hu.count_burstServers hc hfrom hmask,
      count_eq_zero_of_not_mem (hnone c hc)]
  · have hin : c ∈ out.filterMap introduces := by
      rw [← count_pos_iff, hsent.sent c ⟨hlive, hclient, hfrom⟩ not_false]
      exact Nat.one_pos
    have hserver : c ∉ (u.burstServers link).filterMap introduces := by
      rw [introduces_burstServers, mem_filter, mem_reverse]
      exact fun hc => hnone c hc.1 hin
    rw [filterMap_append, count_append, count_eq_zero_of_not_mem hserver,
      hsent.sent c ⟨hlive, hclient, hfrom⟩ not_false]
  · refine Reading.inOrder_append_iff.mpr ⟨hu.burstServers_inOrder link, ?_⟩
    refine hsent.inOrder.restrict fun l _ k _ hk => ?_
    rcases hk with hme | ⟨hmem, hfrom⟩
    · exact .inl (.inl hme)
    · cases hmask : u.masked link k with
      | true =>
        rcases (hu.servers k).mp hmem with hme | ⟨-, hserver⟩
        · exact .inl (.inl hme)
        · exact .inl (.inr ⟨hserver, hmask⟩)
      | false =>
        have hcount := hu.count_burstServers hmem hfrom hmask
        have hin : k ∈ (u.burstServers link).filterMap introduces := by
          rw [← count_pos_iff, hcount]
          exact Nat.one_pos
        obtain ⟨l, hl, hgives⟩ := List.mem_filterMap.mp hin
        exact .inr ⟨l, hl, hgives⟩

theorem NetInv.via_server_ne_nil (hu : NetInv u) (hup : (u.clients c).servptr ∈ u.globalServList) :
    u.via link (.server c) ≠ some [] := by
  intro hnil
  have hname := hu.named _ hup
  simp only [via, Option.some.injEq, Client.ID] at hnil
  split_ifs at hnil with hts hid
  · simp [Client.hasID, hnil] at hid
  · exact hname hnil
  · exact hname hnil

theorem NetInv.via_user_nil (hu : NetInv u) (hup : (u.clients c).servptr ∈ u.globalServList)
    (hnil : u.via link (.user c) = some []) :
    (u.clients c).hasID = true ∧ (u.clients (u.clients c).servptr).hasID = false := by
  have hname := hu.named _ hup
  simp only [via, Option.some.injEq] at hnil
  split_ifs at hnil with hid
  · rw [Bool.and_eq_true] at hid
    exact ⟨hid.1, by simp [Client.hasID, hnil]⟩
  · exact absurd hnil hname

theorem NetInv.servptr_mem (hu : NetInv u) (hsent : Sent u link (fun _ => False) out)
    {l : BurstLine}
    (hl : l ∈ u.burstServers link ++ out) (hc : introduces l = some c) :
    (u.clients c).servptr ∈ u.globalServList := by
  rcases List.mem_append.mp hl with hl | hl
  · obtain ⟨d, hd, -, -, rfl⟩ := mem_burstServers hl
    obtain rfl : d = c := Option.some.inj hc
    rcases (hu.servers d).mp hd with rfl | ⟨hlive, hserver⟩
    · rw [hu.self.2.2.1]
      exact hd
    · exact (hu.uplink d hlive (.inl hserver)).2.1
  · obtain ⟨hlive, hclient, -⟩ := hsent.users c (List.mem_filterMap.mpr ⟨l, hl, hc⟩)
    exact (hu.uplink c hlive (.inr hclient)).2.1

/-- In every run, the burst of every new link introduces each server that is not behind
the link and not masked, and each user not behind the link, once and after the server
it is named with, which was introduced, or is this one or masked from the link. No SJOIN
names a user before it is introduced, and no mark is left. -/
theorem burst_usable (self : NetClient) (hname : self.name ≠ []) (ops : List NetOp)
    (link : BurstLink)
    (name id : CStr) (hlink : (Run.exec Network.step (start self) ops).isConnection link.ptr = true)
    (hserver : name ≠ []) :
    BurstOk OursFor (Run.exec Network.step (start self) ops) link name id := by
  have h := netInv_run hname ops
  set s := Run.exec Network.step (start self) ops
  have hu := h.linkServer hlink hserver id
  obtain ⟨out, heq, hsent⟩ := h.serverEstab hlink hserver id
  refine ⟨hu.clear, ?_, fun l hl hnil => ?_, fun c => ?_⟩
  · rw [heq]
    exact hu.usableBurst hsent
  · rw [heq] at hl
    cases l with
    | server c => exact absurd hnil (hu.via_server_ne_nil (hu.servptr_mem hsent hl rfl))
    | user c => exact ⟨c, rfl, hu.via_user_nil (hu.servptr_mem hsent hl rfl) hnil⟩
    | away c => cases hnil
    | sjoin chname members => cases hnil
  · rw [heq]
    exact hu.clear c

def blankClient (name id : CStr) : NetClient :=
  { (default : Client) with name := name, id := id, away := [], bursted := false }

/-- A server with a user is linked, and another connection has come in. -/
def maskedRun : List NetOp :=
  [.connect (blankClient [] []), .link ⟨⟨1, true, true, none⟩, false⟩ "b.hub.net".toList
    "1BB".toList,
    .user 1 (blankClient "nick".toList "1BBAAAAAA".toList), .connect (blankClient [] [])]

/-- A link on which this server stands for all of hub.net. -/
def hubLink : BurstLink := ⟨⟨3, true, true, some "*.hub.net".toList⟩, false⟩

theorem burst_usable_hubLink :
    BurstOk OursFor
      (Run.exec Network.step (start (blankClient "a.hub.net".toList "0AA".toList)) maskedRun)
        hubLink
      "c.example".toList "2CC".toList :=
  burst_usable _ (by decide) maskedRun hubLink _ _ (by decide +kernel) (by decide)

/-- The user of a masked server is introduced with the identifier of that server, which
was not introduced. -/
theorem masked_user_named :
    ¬BurstOk (fun _ _ c => c = me)
      (Run.exec Network.step (start (blankClient "a.hub.net".toList "0AA".toList)) maskedRun)
        hubLink
      "c.example".toList "2CC".toList := by
  intro h
  set s := Run.exec Network.step (start (blankClient "a.hub.net".toList "0AA".toList)) maskedRun
  have hmem : BurstLine.user 2 ∈ (s.serverEstab hubLink "c.example".toList "2CC".toList).2 := by
    decide +kernel
  have hup : ((s.linkServer 3 "c.example".toList "2CC".toList).clients 2).servptr = 1 := by
    decide +kernel
  rcases h.usable.inOrder.known_or_given hmem (k := 1) hup.symm with hme | ⟨l, hl, hgives⟩
  · cases hme
  · have hnot : 1 ∉ (s.serverEstab hubLink "c.example".toList "2CC".toList).2.filterMap
        introduces := by
      decide +kernel
    exact hnot (List.mem_filterMap.mpr ⟨l, hl, hgives⟩)

end Network

end Ircd
