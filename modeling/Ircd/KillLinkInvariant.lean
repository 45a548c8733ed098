import Ircd.KillLink
import Ircd.Lib.Replica

/-!
What the commands of `KillLink.lean` do to the names that a server knows.

`view` is the table from clients to names. A client that leaves takes its own entry
away, a change of nick replaces one entry by a nick that nobody else has, and a
prefix that addresses a client is looked up to that client or to nobody.
-/

namespace Ircd

open Function

/-- What does not change while the servers run: which clients there are, on which side each
is connected, and their identifiers. -/
structure Roster where
  known : Cid → Prop
  ofA : Cid → Bool
  ids : Cid → CStr

/-- On a link with `CAP_TS6` every client has an identifier of its own. -/
structure Roster.Proper (ts6 : Bool) (r : Roster) : Prop where
  digit : ts6 = true → ∀ c, r.known c → startsWithDigit (r.ids c) = true
  distinct : ts6 = true → ∀ c d, r.known c → r.known d → ircEq (r.ids c) (r.ids d) = true → c = d

namespace Party

/-- The names of the users that the server knows. -/
def view (p : Party) (c : Cid) : Option CStr :=
  if c ∈ p.hash then some (p.clients c).name else none

/-- The tables of a server are in order; `own` tells its own users from the ones behind the
link. -/
structure Sound (ts6 : Bool) (r : Roster) (own : Cid → Bool) (p : Party) : Prop where
  nodup : p.hash.Nodup
  known : ∀ c ∈ p.hash, r.known c
  home : ∀ c ∈ p.hash, (p.clients c).myConnect = own c
  isClient : ∀ c ∈ p.hash, (p.clients c).isClient = true
  alive : ∀ c ∈ p.hash, (p.clients c).isKilled = false
  id : ts6 = true → ∀ c ∈ p.hash, (p.clients c).id = r.ids c
  clean : ∀ c ∈ p.hash, cleanNickName (p.clients c).name true = true
  distinct : ∀ c ∈ p.hash, ∀ d ∈ p.hash,
    ircEq (p.clients c).name (p.clients d).name = true → c = d
  online : ∀ w ∈ p.whowas, ∀ c, w.online = some c → c ∈ p.hash

/-- `t` is the prefix of `c` on the link, and no other client of the table has it. -/
def Addresses (ts6 : Bool) (r : Roster) (V : Cid → Option CStr) (t : CStr) (c : Cid) : Prop :=
  r.known c ∧
    if ts6 then t = r.ids c
    else cleanNickName t true = true ∧ ∀ d n, V d = some n → (ircEq t n = true ↔ d = c)

section Lookup

variable {cf : KillConfig} {ts6 : Bool} {r : Roster} {own : Cid → Bool} {p : Party} {c d : Cid}
  {t n : CStr} {V W : Cid → Option CStr}

theorem view_of_mem (h : c ∈ p.hash) : p.view c = some (p.clients c).name := if_pos h

theorem view_eq_none : p.view c = none ↔ c ∉ p.hash := by
  unfold view
  split <;> simp_all

theorem view_eq_some : p.view c = some n ↔ c ∈ p.hash ∧ (p.clients c).name = n := by
  unfold view
  split <;> simp_all

theorem Addresses.mono (h : Addresses ts6 r W t c) (hsub : Replica.Sub V W) :
    Addresses ts6 r V t c := by
  refine ⟨h.1, ?_⟩
  have htext := h.2
  cases ts6 with
  | true => exact htext
  | false => exact ⟨htext.1, fun d n hd => htext.2 d n (hsub d n hd)⟩

theorem find?_eq_ite {l : List Cid} {q : Cid → Bool} (h : ∀ d ∈ l, q d = true ↔ d = c) :
    l.find? q = if c ∈ l then some c else none := by
  cases hl : l.find? q with
  | none =>
    have hc : c ∉ l := fun hc => List.find?_eq_none.mp hl c hc ((h c hc).mpr rfl)
    rw [if_neg hc]
  | some d =>
    have hd := List.mem_of_find?_eq_some hl
    obtain rfl : d = c := (h d hd).mp (List.find?_some hl)
    rw [if_pos hd]

theorem not_startsWithDigit_of_clean (h : cleanNickName t true = true) :
    startsWithDigit t = false := by
  cases t with
  | nil => rfl
  | cons x t =>
    simp only [cleanNickName, Bool.and_true, Bool.and_eq_true, Bool.not_eq_true'] at h
    exact h.1.2

theorem cleanNickName_of_local (h : cleanNickName t true = true) : cleanNickName t false =
    true := by
  cases t with
  | nil => exact h
  | cons x t =>
    simp only [cleanNickName, Bool.and_true, Bool.and_eq_true] at h
    simp [cleanNickName, h]

theorem hasID_of_digit (h : startsWithDigit t = true) : t.isEmpty = false := by
  cases t with
  | nil => simp [startsWithDigit] at h
  | cons x t => rfl

theorem findPerson_peer (hs : p.Sound ts6 r own) :
    findPerson (p.directory cf) peer t =
      if startsWithDigit t then p.hashFindId t else p.findClient t := by
  have hall : ∀ {o : Option Cid}, (∀ c, o = some c → c ∈ p.hash) →
      o.filter (fun c => (p.clients c).isClient) = o := by
    intro o ho
    cases o with
    | none => rfl
    | some c => rw [Option.filter_some, if_pos (hs.isClient c (ho c rfl))]
  have hvisible : ∀ o : Option Cid,
      o.filter (fun c => !(p.clients c).isInvisible || peer.isServer) = o := by
    intro o
    cases o with
    | none => rfl
    | some c => rw [Option.filter_some, if_pos (by simp [peer, Client.isServer])]
  unfold findPerson
  split
  · exact (congrArg _ (hvisible _)).trans
      (hall fun c hc => List.mem_of_find?_eq_some hc)
  · exact hall fun c hc => List.mem_of_find?_eq_some hc

theorem findPerson_of_addresses (hs : p.Sound ts6 r own) (hr : r.Proper ts6)
    (h : Addresses ts6 r p.view t c) :
    findPerson (p.directory cf) peer t = if c ∈ p.hash then some c else none := by
  obtain ⟨hc, htext⟩ := h
  rw [findPerson_peer hs]
  cases ts6 with
  | true =>
    obtain rfl : t = r.ids c := htext
    rw [if_pos (hr.digit rfl c hc)]
    refine find?_eq_ite fun d hd => ?_
    have hid := hs.id rfl d hd
    have hdigit := hasID_of_digit (hr.digit rfl d (hs.known d hd))
    simp only [Client.hasID, hid, hdigit, Bool.not_false, Bool.true_and]
    constructor
    · exact fun heq => (hr.distinct rfl c d hc (hs.known d hd) heq).symm
    · rintro rfl
      exact ircEq_refl _
  | false =>
    obtain ⟨hclean, huniq⟩ := htext
    rw [if_neg (by simp [not_startsWithDigit_of_clean hclean])]
    exact find?_eq_ite fun d hd => huniq d _ (view_of_mem hd)

theorem addresses_idOrName (hs : p.Sound ts6 r own) (hr : r.Proper ts6) (hc : c ∈ p.hash) :
    Addresses ts6 r p.view (p.idOrName ts6 c) c := by
  refine ⟨hs.known c hc, ?_⟩
  cases ts6 with
  | true =>
    have hid := hs.id rfl c hc
    have hdigit := hasID_of_digit (hr.digit rfl c (hs.known c hc))
    simp [idOrName, Client.hasID, hid, hdigit]
  | false =>
    simp only [idOrName, Bool.false_and, Bool.false_eq_true, if_false]
    refine ⟨hs.clean c hc, fun d n hd => ?_⟩
    obtain ⟨hmem, rfl⟩ := view_eq_some.mp hd
    constructor
    · exact fun heq => (hs.distinct c hc d hmem heq).symm
    · rintro rfl
      exact ircEq_refl _

end Lookup

section Changes

variable (cf : KillConfig) {ts6 : Bool} {r : Roster} {own : Cid → Bool} {p p' : Party} {c d : Cid}
  {nick : CStr}

/-! ### Clients that leave -/

theorem onClient_id : p.onClient c id = p := by
  unfold onClient
  rw [id, update_eq_self]

theorem onClient_other {f : Client → Client} (h : d ≠ c) :
    (p.onClient c f).clients d = p.clients d := update_of_ne h _ _

theorem onClient_self {f : Client → Client} : (p.onClient c f).clients c = f (p.clients c) :=
  update_self ..

theorem exitOneClient_clients : (p.exitOneClient cf c).clients =
    update p.clients c ((p.clients c).setFlag .deadsocket) := rfl

theorem Sound.smaller (hs : p.Sound ts6 r own) (hnodup : p'.hash.Nodup)
    (hsub : ∀ d ∈ p'.hash, d ∈ p.hash ∧ p'.clients d = p.clients d)
    (honline : ∀ w ∈ p'.whowas, ∀ d, w.online = some d → d ∈ p'.hash) : p'.Sound ts6 r own where
  nodup := hnodup
  known d hd := hs.known d (hsub d hd).1
  home d hd := (hsub d hd).2 ▸ hs.home d (hsub d hd).1
  isClient d hd := (hsub d hd).2 ▸ hs.isClient d (hsub d hd).1
  alive d hd := (hsub d hd).2 ▸ hs.alive d (hsub d hd).1
  id h d hd := (hsub d hd).2 ▸ hs.id h d (hsub d hd).1
  clean d hd := (hsub d hd).2 ▸ hs.clean d (hsub d hd).1
  distinct d hd e he := by
    rw [(hsub d hd).2, (hsub e he).2]
    exact hs.distinct d (hsub d hd).1 e (hsub e he).1
  online := honline

theorem exitOneClient_spec (hs : p.Sound ts6 r own) (f : Client → Client) :
    ((p.onClient c f).exitOneClient cf c).Sound ts6 r own ∧
      ((p.onClient c f).exitOneClient cf c).view = update p.view c none := by
  have hmem : ∀ d, d ∈ p.hash.erase c ↔ d ≠ c ∧ d ∈ p.hash := fun d => hs.nodup.mem_erase_iff
  have hclients : ∀ d, d ≠ c →
      ((p.onClient c f).exitOneClient cf c).clients d = p.clients d := by
    intro d hd
    rw [exitOneClient_clients, update_of_ne hd, onClient_other hd]
  constructor
  · refine hs.smaller (hs.nodup.erase c) (fun d hd => ?_) fun w hw d hd => (hmem d).mpr ?_
    · obtain ⟨hne, hin⟩ := (hmem d).mp hd
      exact ⟨hin, hclients d hne⟩
    · -- the entry of the exit names nobody, and `off_history` took the client out of the others
      obtain ⟨w₀, hw₀, rfl⟩ := List.mem_map.mp hw
      by_cases hwc : w₀.online = some c
      · simp [hwc] at hd
      · rw [if_neg hwc] at hd
        refine ⟨by rintro rfl; exact hwc hd, ?_⟩
        rcases List.mem_cons.mp (List.mem_of_mem_take hw₀) with rfl | hold
        · simp at hd
        · exact hs.online w₀ hold d hd
  · funext d
    by_cases hdc : d = c
    · subst hdc
      rw [update_self, view_eq_none]
      exact fun hd => ((hmem d).mp hd).1 rfl
    · rw [update_of_ne hdc]
      unfold view
      rw [hclients d hdc]
      exact if_congr ((hmem d).trans (and_iff_right hdc)) rfl rfl

theorem exitClient_spec (hs : p.Sound ts6 r own) (hc : c ∈ p.hash) :
    (p.exitClient cf ts6 c).1.Sound ts6 r own ∧
      (p.exitClient cf ts6 c).1.view = update p.view c none ∧
      (p.exitClient cf ts6 c).2 = [⟨.quit (p.idOrName ts6 c), c⟩] := by
  obtain ⟨hsound, hview⟩ := exitOneClient_spec cf (c := c) hs id
  rw [onClient_id] at hsound hview
  exact ⟨hsound, hview, by simp [exitClient, hs.alive c hc]⟩

theorem killClient_spec (hs : p.Sound ts6 r own) :
    (p.killClient cf ts6 c).1.Sound ts6 r own ∧
      (p.killClient cf ts6 c).1.view = update p.view c none ∧
      (p.killClient cf ts6 c).2 = [] := by
  obtain ⟨hsound, hview⟩ := exitOneClient_spec cf (c := c) hs fun x => x.setFlag .killed
  refine ⟨hsound, hview, if_pos ?_⟩
  rw [onClient_self]
  simp [Client.isKilled, Client.setFlag]

/-! ### Changes of nick -/

/-- Nobody but the client itself has the nick. -/
def Fresh (V : Cid → Option CStr) (nick : CStr) (c : Cid) : Prop :=
  ∀ d n, V d = some n → ircEq nick n = true → d = c

theorem Sound.renamed (hs : p.Sound ts6 r own) (hc : c ∈ p.hash)
    (hclean : cleanNickName nick true = true) (hfresh : Fresh p.view nick c)
    (hnodup : p'.hash.Nodup) (hmem : ∀ d, d ∈ p'.hash ↔ d ∈ p.hash)
    (hother : ∀ d, d ≠ c → p'.clients d = p.clients d) (hname : (p'.clients c).name = nick)
    (hkeep : (p'.clients c).myConnect = (p.clients c).myConnect ∧
      (p'.clients c).status = (p.clients c).status ∧ (p'.clients c).flags = (p.clients c).flags ∧
      (p'.clients c).id = (p.clients c).id)
    (honline : ∀ w ∈ p'.whowas, ∀ d, w.online = some d → d ∈ p.hash) :
    p'.Sound ts6 r own ∧ p'.view = update p.view c (some nick) := by
  obtain ⟨hconnect, hstatus, hflags, hid⟩ := hkeep
  have hall : ∀ P : Cid → Client → Prop, (∀ d ∈ p.hash, P d (p.clients d)) →
      P c (p'.clients c) → ∀ d ∈ p'.hash, P d (p'.clients d) := by
    intro P h h' d hd
    by_cases hdc : d = c
    · exact hdc ▸ h'
    · exact hother d hdc ▸ h d ((hmem d).mp hd)
  refine ⟨?_, ?_⟩
  · refine
      { nodup := hnodup
        known := fun d hd => hs.known d ((hmem d).mp hd)
        home := hall (fun d x => x.myConnect = own d) hs.home (hconnect.trans (hs.home c hc))
        isClient := hall (fun _ x => x.isClient = true) hs.isClient ?_
        alive := hall (fun _ x => x.isKilled = false) hs.alive ?_
        id := fun h => hall (fun d x => x.id = r.ids d) (hs.id h) (hid.trans (hs.id h c hc))
        clean := hall (fun _ x => cleanNickName x.name true = true) hs.clean (hname ▸ hclean)
        distinct := fun d hd e he heq => ?_
        online := fun w hw d hd => (hmem d).mpr (honline w hw d hd) }
    · simpa [Client.isClient, hstatus] using hs.isClient c hc
    · simpa [Client.isKilled, hflags] using hs.alive c hc
    · have hviews : ∀ e ∈ p'.hash, e ≠ c → p.view e = some (p'.clients e).name := fun e he hec =>
        hother e hec ▸ view_of_mem ((hmem e).mp he)
      by_cases hdc : d = c
      · by_cases hec : e = c
        · rw [hdc, hec]
        · rw [hdc, hname] at heq
          exact hdc.trans (hfresh e _ (hviews e he hec) heq).symm
      · by_cases hec : e = c
        · rw [hec, hname] at heq
          exact (hfresh d _ (hviews d hd hdc) (ircEq_symm heq)).trans hec.symm
        · rw [hother d hdc, hother e hec] at heq
          exact hs.distinct d ((hmem d).mp hd) e ((hmem e).mp he) heq
  · funext d
    by_cases hdc : d = c
    · subst hdc
      rw [update_self, view_of_mem ((hmem d).mpr hc), hname]
    · rw [update_of_ne hdc]
      unfold view
      rw [hother d hdc]
      exact if_congr (hmem d) rfl rfl

theorem fresh_own (hs : p.Sound ts6 r own) (hc : c ∈ p.hash) :
    Fresh p.view (p.clients c).name c := by
  intro d n hd heq
  obtain ⟨hmem, rfl⟩ := view_eq_some.mp hd
  exact (hs.distinct c hc d hmem heq).symm

theorem onClient_spec (hs : p.Sound ts6 r own) (hc : c ∈ p.hash) {f : Client → Client}
    (hname : (f (p.clients c)).name = (p.clients c).name)
    (hkeep : (f (p.clients c)).myConnect = (p.clients c).myConnect ∧
      (f (p.clients c)).status = (p.clients c).status ∧
      (f (p.clients c)).flags = (p.clients c).flags ∧ (f (p.clients c)).id = (p.clients c).id) :
    (p.onClient c f).Sound ts6 r own ∧ (p.onClient c f).view = p.view := by
  have hself : (p.onClient c f).clients c = f (p.clients c) := onClient_self
  have hrenamed : (p.onClient c f).Sound ts6 r own ∧
      (p.onClient c f).view = update p.view c (some (p.clients c).name) := by
    refine hs.renamed hc (hs.clean c hc) (fresh_own hs hc) hs.nodup (fun _ => Iff.rfl)
      (fun d hd => onClient_other hd) ?_ ?_ hs.online
    · rw [hself, hname]
    · rw [hself]
      exact hkeep
  rwa [← view_of_mem hc, update_eq_self] at hrenamed

theorem online_addHistory (hc : c ∈ p.hash)
    (honline : ∀ w ∈ p.whowas, ∀ d, w.online = some d → d ∈ p.hash) :
    ∀ w ∈ (p.addHistory cf c true).whowas, ∀ d, w.online = some d → d ∈ p.hash := by
  intro w hw d hd
  rcases List.mem_cons.mp (List.mem_of_mem_take hw) with rfl | hold
  · obtain rfl : c = d := by simpa using hd
    exact hc
  · exact honline w hold d hd

theorem rename_spec (hs : p.Sound ts6 r own) (hc : c ∈ p.hash)
    (hclean : cleanNickName nick true = true) (hfresh : Fresh p.view nick c) {f : Client → Client}
    (hkeep : (f (p.clients c)).myConnect = (p.clients c).myConnect ∧
      (f (p.clients c)).status = (p.clients c).status ∧
      (f (p.clients c)).flags = (p.clients c).flags ∧ (f (p.clients c)).id = (p.clients c).id) :
    (((p.onClient c f).addHistory cf c true).rename c nick).Sound ts6 r own ∧
      (((p.onClient c f).addHistory cf c true).rename c nick).view =
        update p.view c (some nick) := by
  have hself : (((p.onClient c f).addHistory cf c true).rename c nick).clients c =
      { f (p.clients c) with name := nick } := by
    simp [rename, onClient, addHistory]
  refine hs.renamed hc hclean hfresh ?_ ?_ ?_ ?_ ?_ ?_
  · exact List.nodup_cons.mpr ⟨hs.nodup.not_mem_erase, hs.nodup.erase c⟩
  · intro d
    change d ∈ c :: p.hash.erase c ↔ d ∈ p.hash
    rw [List.mem_cons, hs.nodup.mem_erase_iff]
    constructor
    · rintro (rfl | hd)
      · exact hc
      · exact hd.2
    · intro hd
      exact (em (d = c)).imp_right fun hdc => ⟨hdc, hd⟩
  · intro d hd
    simp [rename, onClient, addHistory, update_of_ne hd]
  · rw [hself]
  · rw [hself]
    exact hkeep
  · exact online_addHistory cf hc hs.online

theorem nickFromServer_spec (hs : p.Sound ts6 r own) (hc : c ∈ p.hash)
    (hclean : cleanNickName nick true = true) (hfresh : Fresh p.view nick c) (ts : Int) :
    (p.nickFromServer cf c nick ts).Sound ts6 r own ∧
      (p.nickFromServer cf c nick ts).view = update p.view c (some nick) :=
  rename_spec cf hs hc hclean hfresh ⟨rfl, rfl, rfl, rfl⟩

theorem findClient_mem (h : p.findClient nick = some d) :
    d ∈ p.hash ∧ ircEq nick (p.clients d).name = true :=
  ⟨List.mem_of_find?_eq_some h, by simpa using List.find?_some h⟩

theorem fresh_of_findClient (hs : p.Sound ts6 r own)
    (h : ∀ d, p.findClient nick = some d → d = c) : Fresh p.view nick c := by
  intro d n hd heq
  obtain ⟨hmem, rfl⟩ := view_eq_some.mp hd
  cases hfind : p.findClient nick with
  | none => exact absurd heq (List.find?_eq_none.mp hfind d hmem)
  | some e =>
    obtain ⟨he, heqe⟩ := findClient_mem hfind
    have hde := hs.distinct d hmem e he (ircEq_trans (ircEq_symm heq) heqe)
    exact hde.trans (h e hfind)

theorem msNick_spec (hs : p.Sound ts6 r own) (hc : c ∈ p.hash)
    (hclean : cleanNickName nick true = true) (hlen : strlcpy nick cf.nicklen = nick)
    (hfresh : Fresh p.view nick c) (ts : Int) :
    (p.msNick cf ts6 c nick ts).1.Sound ts6 r own ∧
      (p.msNick cf ts6 c nick ts).1.view = update p.view c (some nick) ∧
      (p.msNick cf ts6 c nick ts).2 = [] := by
  have hne : nick ≠ [] := by
    rintro rfl
    simp [cleanNickName] at hclean
  obtain ⟨hsound, hview⟩ := nickFromServer_spec cf hs hc hclean hfresh ts
  simp only [msNick, if_neg hne, hlen, cleanNickName_of_local hclean, bne_self_eq_false,
    Bool.not_true, Bool.or_self, Bool.false_eq_true, if_false]
  cases hfind : p.findClient nick with
  | none => exact ⟨hsound, hview, rfl⟩
  | some target =>
    obtain ⟨htarget, heq⟩ := findClient_mem hfind
    obtain rfl : target = c := hfresh target _ (view_of_mem htarget) heq
    simp only [if_true]
    by_cases hname : (p.clients target).name ≠ nick
    · simp only [if_pos hname]
      exact ⟨hsound, hview, trivial⟩
    · have hsame : p.view target = some nick := by
        rw [view_of_mem hc, not_ne_iff.mp hname]
      rw [if_neg hname, ← hsame, update_eq_self]
      exact ⟨hs, rfl, rfl⟩

theorem changeLocalNick_spec (hs : p.Sound ts6 r own) (hc : c ∈ p.hash)
    (hclean : cleanNickName nick true = true) (hfresh : Fresh p.view nick c) :
    (p.changeLocalNick cf ts6 c nick).1.Sound ts6 r own ∧
      ((p.changeLocalNick cf ts6 c nick).1.view = p.view ∧
          (p.changeLocalNick cf ts6 c nick).2 = [] ∨
        (p.changeLocalNick cf ts6 c nick).1.view = update p.view c (some nick) ∧
          ∃ ts, (p.changeLocalNick cf ts6 c nick).2 =
            [⟨.nick (p.idOrName ts6 c) nick ts, c⟩]) := by
  have hconnect := myConnect_changeLocalNickFields cf.toConfig p.currentTime (p.clients c) nick
  unfold changeLocalNick
  dsimp only
  split
  · obtain ⟨hsound, hview⟩ := rename_spec cf (f := fun x =>
      { x with
        localClient := (changeLocalNickFields cf.toConfig p.currentTime (p.clients c)
          nick).localClient
        tsinfo := (changeLocalNickFields cf.toConfig p.currentTime (p.clients c) nick).tsinfo })
      hs hc hclean hfresh ⟨hconnect, rfl, rfl, rfl⟩
    exact ⟨hsound, .inr ⟨hview, _, rfl⟩⟩
  · obtain ⟨hsound, hview⟩ := onClient_spec hs hc (f := fun x =>
      { x with
        localClient := (changeLocalNickFields cf.toConfig p.currentTime (p.clients c)
          nick).localClient })
      rfl ⟨hconnect, rfl, rfl, rfl⟩
    exact ⟨hsound, .inl ⟨hview, rfl⟩⟩

/-! ### The commands of users -/

/-- What NICK comes to: nothing that the others see, or a nick that nobody else has. -/
def NickOutcome (ts6 : Bool) (r : Roster) (own : Cid → Bool) (p : Party) (c : Cid)
    (out : Party × List Sent) : Prop :=
  out.1.Sound ts6 r own ∧
    (out.1.view = p.view ∧ out.2 = [] ∨
      ∃ nick ts, cleanNickName nick true = true ∧ strlcpy nick cf.nicklen = nick ∧
        Fresh p.view nick c ∧ out.1.view = update p.view c (some nick) ∧
        out.2 = [⟨.nick (p.idOrName ts6 c) nick ts, c⟩])

theorem mNick_spec (hs : p.Sound ts6 r own) (hc : c ∈ p.hash) (newnick : CStr) :
    NickOutcome cf ts6 r own p c (p.mNick cf ts6 c newnick) := by
  have hnothing : NickOutcome cf ts6 r own p c (p, []) := ⟨hs, .inl ⟨rfl, rfl⟩⟩
  set nick := strlcpy newnick cf.nicklen with hnick
  have hlen : strlcpy nick cf.nicklen = nick := by
    rw [hnick, strlcpy, strlcpy, List.take_take, Nat.min_self]
  -- the change itself, once the nick is known to be free
  have hchange : cleanNickName nick true = true →
      (∀ d, p.findClient nick = some d → d = c) →
      NickOutcome cf ts6 r own p c (p.changeLocalNick cf ts6 c nick) := by
    intro hclean hfree
    have hfresh := fresh_of_findClient hs hfree
    obtain ⟨hsound, hsame | ⟨hview, ts, hlines⟩⟩ := changeLocalNick_spec cf hs hc hclean hfresh
    · exact ⟨hsound, .inl hsame⟩
    · exact ⟨hsound, .inr ⟨nick, ts, hclean, hlen, hfresh, hview, hlines⟩⟩
  unfold mNick
  dsimp only
  rw [← hnick]
  split
  · exact hnothing
  · rename_i hclean
    replace hclean : cleanNickName nick true = true := by simpa using hclean
    split
    · exact hnothing
    · cases hfind : p.findClient nick with
      | none => exact hchange hclean (by simp [hfind])
      | some target =>
        dsimp only
        split
        · rename_i htarget
          split
          · exact hnothing
          · exact hchange hclean fun d hd => by
              rw [hfind, Option.some.injEq] at hd
              exact hd.symm.trans htarget
        · exact hnothing

theorem moKill_spec (hs : p.Sound ts6 r own) (source : Cid) (user : CStr) :
    p.moKill cf ts6 source user = (p, []) ∨
      ∃ target ∈ p.hash, own target = true ∧
          p.moKill cf ts6 source user = p.exitClient cf ts6 target ∨
        own target = false ∧
          p.moKill cf ts6 source user =
            ((p.killClient cf ts6 target).1, [p.relayKill ts6 source target]) := by
  unfold moKill
  split
  · exact .inl rfl
  · cases hfind : (p.findClient user).or (p.getHistory cf user) with
    | none => exact .inl rfl
    | some target =>
      have hmem : target ∈ p.hash := by
        rcases Option.or_eq_some_iff.mp hfind with hname | ⟨-, hold⟩
        · exact (findClient_mem hname).1
        · obtain ⟨w, hw, honline⟩ := Option.bind_eq_some_iff.mp hold
          exact hs.online w (List.mem_of_find?_eq_some hw) target honline
      refine .inr ⟨target, hmem, ?_⟩
      dsimp only
      rw [hs.home target hmem]
      cases hown : own target with
      | true => exact .inl ⟨rfl, rfl⟩
      | false => exact .inr ⟨rfl, by simp [(killClient_spec cf hs).2.2]⟩

/-! ### Lines from the link -/

theorem receive_nick (t nick : CStr) (ts : Int) (c : Cid) :
    p.receive cf ts6 ⟨.nick t nick ts, c⟩ =
      p.fromUser cf t c fun source => p.msNick cf ts6 source nick ts := rfl

theorem receive_quit (t : CStr) (c : Cid) :
    p.receive cf ts6 ⟨.quit t, c⟩ = p.fromUser cf t c fun source => p.exitClient cf ts6 source :=
  rfl

theorem receive_kill (user : CStr) (c : Cid) :
    p.receive cf ts6 ⟨.kill none user, c⟩ = p.msKill cf ts6 user := rfl

theorem receive_kill_from (t user : CStr) (c : Cid) :
    p.receive cf ts6 ⟨.kill (some t) user, c⟩ =
      p.fromUser cf t c fun _ => p.msKill cf ts6 user := rfl

theorem receive_squit (t : CStr) (c : Cid) :
    p.receive cf ts6 ⟨.squit t, c⟩ = (p, []) := rfl

/-- The lookup of a KILL ends at the client that the line was sent for, if it is still
known, and at nobody otherwise. Other lines make no such lookup. -/
def finds (p : Party) (m : Sent) : Bool :=
  match m.line with
  | .kill _ user =>
    findChasing (p.directory cf) peer user = if m.about ∈ p.hash then some m.about else none
  | _ => true

theorem msKill_of_finds {m : Sent} {o : Option CStr} {user : CStr} (hm : m.line = .kill o user)
    (h : p.finds cf m = true) :
    p.msKill cf ts6 user =
      if m.about ∈ p.hash then p.killClient cf ts6 m.about else (p, []) := by
  simp only [finds, hm, decide_eq_true_eq] at h
  rw [msKill, h]
  by_cases hc : m.about ∈ p.hash
  · simp only [if_pos hc]
  · simp only [if_neg hc]

theorem finds_of_id (hs : p.Sound true r own) (hr : r.Proper true) {m : Sent} {o : Option CStr}
    (hm : m.line = .kill o (r.ids m.about)) (hc : r.known m.about) : p.finds cf m = true := by
  have hperson : findPerson (p.directory cf) peer (r.ids m.about) =
      if m.about ∈ p.hash then some m.about else none :=
    findPerson_of_addresses hs hr ⟨hc, rfl⟩
  simp only [finds, hm, decide_eq_true_eq, findChasing, hperson]
  by_cases hmem : m.about ∈ p.hash
  · simp only [if_pos hmem]
  · simp only [if_neg hmem, hr.digit rfl _ hc, if_true]

theorem fromUser_of_addresses (hs : p.Sound ts6 r own) (hr : r.Proper ts6) {t : CStr}
    (h : Addresses ts6 r p.view t c) (about : Cid) (handler : Cid → Party × List Sent) :
    p.fromUser cf t about handler =
      if c ∈ p.hash then if own c then (p, []) else handler c
      else (p, [removeUnknown t about]) := by
  unfold fromUser
  rw [findPerson_of_addresses hs hr h]
  by_cases hc : c ∈ p.hash
  · simp only [if_pos hc, hs.home c hc]
  · simp only [if_neg hc]

/-- The entries of the users of `a`. -/
def usersOfA (r : Roster) (V : Cid → Option CStr) (c : Cid) : Option CStr :=
  if r.ofA c then V c else none

theorem addresses_of_usersOfA (hs : p.Sound ts6 r own) {t : CStr}
    (h : Addresses ts6 r (usersOfA r p.view) t c) (hown : r.ofA c = true) (hc : c ∈ p.hash) :
    Addresses ts6 r p.view t c := by
  refine ⟨h.1, ?_⟩
  have htext := h.2
  cases ts6 with
  | true => exact htext
  | false =>
    have hself : ircEq t (p.clients c).name = true := by
      refine (htext.2 c (p.clients c).name ?_).mpr rfl
      rw [usersOfA, if_pos hown, view_of_mem hc]
    refine ⟨htext.1, fun d n hd => ?_⟩
    obtain ⟨hmem, rfl⟩ := view_eq_some.mp hd
    constructor
    · exact fun heq => hs.distinct d hmem c hc (ircEq_trans (ircEq_symm heq) hself)
    · rintro rfl
      exact hself

theorem fromUser_of_gone (hs : p.Sound ts6 r fun c => !r.ofA c) (hr : r.Proper ts6) {t : CStr}
    (h : Addresses ts6 r (usersOfA r p.view) t c) (hc : c ∉ p.hash) (about : Cid)
    (handler : Cid → Party × List Sent) :
    p.fromUser cf t about handler = (p, []) ∨
      p.fromUser cf t about handler = (p, [removeUnknown t about]) := by
  unfold fromUser
  cases hfind : findPerson (p.directory cf) peer t with
  | none => exact .inr rfl
  | some d =>
    refine .inl ?_
    suffices hd : (p.clients d).myConnect = true by simp only [hd, if_true]
    cases ts6 with
    | true =>
      have hfull : Addresses true r p.view t c := ⟨h.1, h.2⟩
      rw [findPerson_of_addresses hs hr hfull, if_neg hc] at hfind
      cases hfind
    | false =>
      rw [findPerson_peer hs, if_neg (by simp [not_startsWithDigit_of_clean h.2.1])] at hfind
      obtain ⟨hmem, heq⟩ := findClient_mem hfind
      rw [hs.home d hmem]
      cases hofA : r.ofA d with
      | false => rfl
      | true =>
        have hview : usersOfA r p.view d = some (p.clients d).name := by
          rw [usersOfA, if_pos hofA, view_of_mem hmem]
        obtain rfl : d = c := (h.2.2 d _ hview).mp heq
        exact absurd hmem hc

end Changes

end Party

end Ircd
