import Ircd.WorldMessages
import Ircd.Membership

/-!
Malformed NICK lines of servers.

`ms_nick` knows two forms, a change of nick and an introduction, by the number of
parameters, and checks each of them before anything is done (`msNick_malformed`). Only
a user whose change is to an invalid nick is exited. Whatever NICK, in one of the two
forms, and UID then put into the table of clients has a valid nick and all that an
introduction brings (`msNick_outcome`, `msUid_outcome`), and so it is in every state of a
run (`malformed_nicks_settled`).
-/

namespace Ircd

open Function

/-! ### Clients and channels -/

/-- A server: its clients and the channels they are on. -/
structure Registry where
  world : World
  channels : MemberState
  agree : channels.clients = world.clients

namespace Registry

/-- The clients that exited from one state to the other, the first one first. -/
def exits (w v : World) : List Cid :=
  (v.deadList.take (v.deadList.length - w.deadList.length)).reverse

/-- The state after a message that touches channels only where a client exits. -/
def after (s : Registry) (v : World) : Registry where
  world := v
  channels :=
    { (exits s.world v).foldl MemberState.exitOneClient s.channels with clients := v.clients }
  agree := rfl

/-- `ms_nick`. -/
def msNick (cf : ServerConfig) (s : Registry) (client source : Cid) (parv : List CStr) : Registry :=
  s.after (s.world.msNick cf client source parv)

theorem after_self (s : Registry) : s.after s.world = s := by
  have hnone : exits s.world s.world = [] := by simp [exits]
  cases s with
  | mk world channels agree =>
    simp only [after, hnone, List.foldl_nil, mk.injEq, true_and]
    rw [← agree]

end Registry

/-! ### What is malformed -/

/-- The nick that `ms_nick` and `ms_uid` keep of a line. -/
def lineNick (cf : ServerConfig) (parv : List CStr) : CStr := strlcpy (param parv 1) cf.nicklen

/-- A nick that `check_clean_nick` lets through, as it came. -/
def ValidNick (cf : ServerConfig) (nick : CStr) : Prop :=
  cleanNickName nick false = true ∧ strlcpy nick cf.nicklen = nick

instance (cf : ServerConfig) (nick : CStr) : Decidable (ValidNick cf nick) :=
  inferInstanceAs (Decidable (_ ∧ _))

/-- A user name or host that `check_clean_user` or `check_clean_host` refuses. -/
def TooLong (parv : List CStr) : Prop :=
  USERLEN < (param parv 5).length ∨ HOSTLEN < (param parv 6).length

/-- A NICK line that is neither a change of nick nor an introduction, or in which the
nick, the user name or the host is invalid. -/
def MalformedNick (cf : ServerConfig) (parv : List CStr) : Prop :=
  (parv.length ≠ 3 ∧ parv.length ≠ 9) ∨ ¬ ValidNick cf (param parv 1) ∨
    (parv.length = 9 ∧ TooLong parv)

/-- A NICK line of one of the two forms, or one without a nick. -/
def KnownForm (parv : List CStr) : Prop :=
  parv.length = 3 ∨ parv.length = 9 ∨ param parv 1 = []

/-- The line comes from the link itself, or from a server that cannot change nicks. -/
def FromServer (w : World) (client source : Cid) (parv : List CStr) : Prop :=
  source = client ∨ (parv.length = 3 ∧ (w.clients source).isServer = true)

variable {cf : ServerConfig} {w v u : World} {client source c d target : Cid} {parv : List CStr}
  {nick : CStr} {newts : Int}

variable (cf w client source parv) in
theorem checkCleanNick_eq :
    w.checkCleanNick client source (lineNick cf parv) (param parv 1) =
      if ValidNick cf (param parv 1) then none
      else some (if source ≠ client then w.killClient source else w) := by
  unfold World.checkCleanNick
  by_cases hkept : lineNick cf parv = param parv 1
  · have hvalid : ValidNick cf (param parv 1) ↔ cleanNickName (param parv 1) false = true :=
      and_iff_left hkept
    by_cases hclean : cleanNickName (param parv 1) false = true <;> simp [hkept, hvalid, hclean]
  · have hvalid : ¬ ValidNick cf (param parv 1) := fun h => hkept h.2
    simp [hkept, hvalid]

theorem msNick_malformed (hclient : (w.clients client).isServer = true)
    (hform : KnownForm parv) (hmal : MalformedNick cf parv)
    (hnick : ¬ ValidNick cf (param parv 1) → FromServer w client source parv) :
    w.msNick cf client source parv = w := by
  have hcheck := checkCleanNick_eq cf w client source parv
  unfold lineNick at hcheck
  unfold World.msNick
  simp only [hcheck]
  by_cases hempty : parv.length < 2 ∨ param parv 1 = []
  · rw [if_pos hempty]
  rw [if_neg hempty]
  rw [not_or] at hempty
  have hlen : parv.length = 3 ∨ parv.length = 9 := by
    rcases hform with h | h | h
    · exact .inl h
    · exact .inr h
    · exact absurd h hempty.2
  rcases hlen with hthree | hnine
  · -- a change of nick is malformed only by its nick, and a server cannot make one
    have hinvalid : ¬ ValidNick cf (param parv 1) := by
      rcases hmal with ⟨h, -⟩ | h | ⟨h, -⟩
      · exact absurd hthree h
      · exact h
      · omega
    have hserver : (w.clients source).isServer = true := by
      rcases hnick hinvalid with rfl | ⟨-, h⟩
      · exact hclient
      · exact h
    rw [if_neg (by omega), if_pos hthree, if_pos hserver]
  · rw [if_pos hnine]
    split
    · rfl
    · by_cases hvalid : ValidNick cf (param parv 1)
      · have hlong : TooLong parv := by
          rcases hmal with ⟨-, h⟩ | h | ⟨-, h⟩
          · exact absurd hnine h
          · exact absurd hvalid h
          · exact h
        simp only [if_pos hvalid]
        rcases hlong with huser | hhost
        · rw [if_pos huser]
        · rw [if_pos hhost, ite_self]
      · have hsource : source = client := by
          rcases hnick hvalid with h | ⟨h, -⟩
          · exact h
          · omega
        simp [if_neg hvalid, hsource]

theorem msNick_badChange (hthree : parv.length = 3) (hne : param parv 1 ≠ [])
    (hinvalid : ¬ ValidNick cf (param parv 1)) (hsource : (w.clients source).isServer = false)
    (hclient : source ≠ client) : w.msNick cf client source parv = w.killClient source := by
  have hcheck := checkCleanNick_eq cf w client source parv
  rw [if_neg hinvalid, if_pos hclient] at hcheck
  unfold lineNick at hcheck
  unfold World.msNick
  have hpresent : ¬ (parv.length < 2 ∨ param parv 1 = []) := by
    rintro (h | h)
    · omega
    · exact hne h
  simp only [hcheck]
  rw [if_neg hpresent, if_neg (by omega), if_pos hthree, if_neg (by simp [hsource])]

/-! ### Exits -/

/-- From one state to the other clients exited, and nothing else happened to the
clients. -/
structure OnlyExits (w v : World) : Prop where
  record : ∀ c, ∃ fl, v.clients c = { w.clients c with flags := fl } ∧ (w.clients c).flags ⊆ fl
  table : ∀ k, v.clientTable k ⊆ w.clientTable k

theorem OnlyExits.refl (w : World) : OnlyExits w w :=
  ⟨fun c => ⟨(w.clients c).flags, rfl, subset_refl _⟩, fun _ => List.Subset.refl _⟩

theorem OnlyExits.trans (h : OnlyExits w v) (h' : OnlyExits v u) : OnlyExits w u := by
  refine ⟨fun c => ?_, fun k d hd => h.table k (h'.table k hd)⟩
  obtain ⟨fl, hv, hfl⟩ := h.record c
  obtain ⟨fl', hu, hfl'⟩ := h'.record c
  rw [hv] at hu hfl'
  exact ⟨fl', hu, fun f hf => hfl' (hfl hf)⟩

theorem OnlyExits.foldl {ι : Type} {f : World → ι → World} (hf : ∀ w i, OnlyExits w (f w i))
    (l : List ι) (w : World) : OnlyExits w (l.foldl f w) := by
  induction l generalizing w with
  | nil => exact .refl w
  | cons i l ih => exact (hf w i).trans (ih _)

theorem onlyExits_of_flag {flag : Flag}
    (hcl : v.clients = update w.clients c ((w.clients c).setFlag flag))
    (htable : ∀ k, v.clientTable k ⊆ w.clientTable k) : OnlyExits w v := by
  refine ⟨fun d => ?_, htable⟩
  by_cases hd : d = c
  · subst hd
    rw [hcl, update_self]
    exact ⟨_, rfl, Finset.subset_insert _ _⟩
  · rw [hcl, update_of_ne hd]
    exact ⟨_, rfl, subset_refl _⟩

theorem del_subset {t : Nat → List Cid} (k k' : Nat) : Buckets.del t k c k' ⊆ t k' := by
  unfold Buckets.del
  by_cases hk : k' = k
  · subst hk
    rw [update_self]
    exact List.erase_subset
  · rw [update_of_ne hk]
    exact List.Subset.refl _

theorem onlyExits_exitOneClient (w : World) (c : Cid) : OnlyExits w (w.exitOneClient c) := by
  refine onlyExits_of_flag (exitOneClient_fields w c).1 fun k => ?_
  rw [clientTable_exitOneClient]
  split_ifs
  · exact List.Subset.refl _
  · exact del_subset _ k

theorem onlyExits_recurseRemoveClients (fuel : Nat) (w : World) (source : Cid) :
    OnlyExits w (World.recurseRemoveClients fuel w source) := by
  induction fuel generalizing w source with
  | zero => exact .refl w
  | succ fuel ih =>
    have husers : OnlyExits w ((w.serv source).users.foldl World.exitOneClient w) :=
      .foldl onlyExits_exitOneClient _ w
    have hservers := OnlyExits.foldl
      (f := fun w c => (World.recurseRemoveClients fuel w c).exitOneClient c)
      (fun w c => (ih w c).trans (onlyExits_exitOneClient _ c))
      ((((w.serv source).users.foldl World.exitOneClient w).serv source).servers)
      ((w.serv source).users.foldl World.exitOneClient w)
    have hboth := husers.trans hservers
    exact ⟨hboth.record, hboth.table⟩

theorem onlyExits_exitClient (w : World) (c : Cid) : OnlyExits w (w.exitClient c) := by
  have hclose : OnlyExits w (w.closeLocal c) := by
    obtain ⟨hcl, -, -, htable, -⟩ := closeLocal_fields w c
    exact onlyExits_of_flag hcl fun k => by rw [htable]; exact List.Subset.refl _
  rcases World.exitClient_cases w c with heq | ⟨-, heq⟩ | ⟨-, heq⟩
  · rw [heq]
    exact .refl w
  · rw [heq]
    split_ifs
    · exact (hclose.trans (onlyExits_recurseRemoveClients _ _ c)).trans
        (onlyExits_exitOneClient _ c)
    · exact hclose.trans (onlyExits_exitOneClient _ c)
  · rw [heq]
    split_ifs
    · exact (onlyExits_recurseRemoveClients _ w c).trans (onlyExits_exitOneClient _ c)
    · exact onlyExits_exitOneClient w c

theorem onlyExits_killClient (w : World) (c : Cid) : OnlyExits w (w.killClient c) := by
  have hflag : OnlyExits w (w.onClient c fun x => x.setFlag .killed) :=
    onlyExits_of_flag rfl fun k => List.Subset.refl _
  exact hflag.trans (onlyExits_exitClient _ c)

theorem isDead_killClient (hserver : (w.clients c).isServer = false)
    (hremote : (w.clients c).myConnect = false) : ((w.killClient c).clients c).isDead = true := by
  have hexit : ∀ u : World, (u.clients c).isServer = false → (u.clients c).myConnect = false →
      ((u.exitClient c).clients c).isDead = true := by
    intro u hs hm
    simp only [World.exitClient, hs, hm, Bool.false_and, Bool.false_eq_true, if_false]
    rw [(exitOneClient_fields u c).1, update_self, Client.isDead_setDead]
  apply hexit
  · simpa [World.onClient] using hserver
  · simpa [World.onClient] using hremote

/-! ### One client comes into the table -/

/-- From one state to the other only the client `c` changed, and only it came into the
table. -/
structure OnlyOne (c : Cid) (w v : World) : Prop where
  others : ∀ d, d ≠ c → v.clients d = w.clients d
  table : ∀ k, ∀ d ∈ v.clientTable k, d ≠ c → d ∈ w.clientTable k

theorem OnlyOne.refl (c : Cid) (w : World) : OnlyOne c w w := ⟨fun _ _ => rfl, fun _ _ hd _ => hd⟩

theorem OnlyOne.trans (h : OnlyOne c w v) (h' : OnlyOne c v u) : OnlyOne c w u where
  others d hd := (h'.others d hd).trans (h.others d hd)
  table k d hmem hd := h.table k d (h'.table k d hmem hd) hd

theorem onlyOne_onClient (c : Cid) (w : World) (f : Client → Client) :
    OnlyOne c w (w.onClient c f) :=
  ⟨fun _ hd => by simp [World.onClient, update_of_ne hd], fun _ _ hmem _ => hmem⟩

theorem mem_add {t : Nat → List Cid} {k k' : Nat} (h : d ∈ Buckets.add t k c k') (hne : d ≠ c) :
    d ∈ t k' := by
  unfold Buckets.add at h
  by_cases hk : k' = k
  · subst hk
    rw [update_self] at h
    exact (List.mem_cons.mp h).resolve_left hne
  · rwa [update_of_ne hk] at h

theorem onlyOne_hashAddClient (c : Cid) (w : World) : OnlyOne c w (w.hashAddClient c) :=
  ⟨fun _ _ => rfl, fun _ _ hmem hd => mem_add hmem hd⟩

theorem onlyOne_rename (c : Cid) (w : World) (nick : CStr) : OnlyOne c w (w.rename c nick) := by
  have hdel : OnlyOne c w (if (w.clients c).name ≠ [] then w.hashDelClient c else w) := by
    split_ifs
    · exact ⟨fun _ _ => rfl, fun k d hmem _ => del_subset _ k hmem⟩
    · exact .refl c w
  exact (hdel.trans (onlyOne_onClient c _ _)).trans (onlyOne_hashAddClient c _)

theorem rename_self (c : Cid) (w : World) (nick : CStr) :
    (w.rename c nick).clients c = { w.clients c with name := nick } := by
  unfold World.rename
  split_ifs <;> simp [World.hashDelClient, World.hashAddClient, World.onClient]

theorem onlyOne_makeClient (w : World) (link : Cid) : OnlyOne w.next w (w.makeClient link) :=
  ⟨fun _ hd => by simp [World.makeClient, update_of_ne hd], fun _ _ hmem _ => hmem⟩

theorem SameButModes.onlyOne (h : SameButModes c w v) : OnlyOne c w v :=
  ⟨fun _ hd => h.of_ne hd, fun k d hmem _ => by rwa [h.table] at hmem⟩

theorem Without.onlyOne (h : Without c w v) : OnlyOne c w v := by
  refine ⟨fun _ hd => h.of_ne hd, fun k d hmem _ => ?_⟩
  rcases h.table with ht | ⟨k', ht⟩
  · rwa [ht] at hmem
  · rw [ht] at hmem
    exact del_subset k' k hmem

/-! ### An introduction -/

/-- What `find_server` finds for a name while the client `c` comes in. -/
def ServerFound (w : World) (c : Cid) (server : CStr) (t : Cid) : Prop :=
  ∃ z : World, (∀ d, d ≠ c → ∃ fl, z.clients d = { w.clients d with flags := fl }) ∧
    (∀ k, ∀ d ∈ z.clientTable k, d ≠ c → d ∈ w.clientTable k) ∧ z.findServer server = some t

/-- A client that is fully introduced: registered under the nick, with user name, host
and server set as the line says. -/
structure Introduced (w : World) (c : Cid) (nick username host server : CStr) (x : Client) :
    Prop where
  status : x.status = .client
  name : x.name = nick
  username : x.username = strlcpy username (USERLEN + 1)
  host : x.host = strlcpy host (HOSTLEN + 1)
  server : ServerFound w c server x.servptr

theorem ServerFound.of_onlyExits {server : CStr} {t : Cid} (h : OnlyExits w v)
    (hfound : ServerFound v c server t) : ServerFound w c server t := by
  obtain ⟨z, hclients, htable, hfind⟩ := hfound
  refine ⟨z, fun d hd => ?_, fun k d hmem hd => h.table k (htable k d hmem hd), hfind⟩
  obtain ⟨fl, hz⟩ := hclients d hd
  obtain ⟨fl', hv, -⟩ := h.record d
  exact ⟨fl, by rw [hz, hv]⟩

theorem registerRemoteUser_outcome (hx : (w.clients c).status = .unknown)
    (hremote : (w.clients c).myConnect = false) (username host server : CStr) :
    OnlyOne c w (w.registerRemoteUser c username host server) ∧
      ((w.registerRemoteUser c username host server).clients c).myConnect = false ∧
      (((w.registerRemoteUser c username host server).clients c).isDead = true ∨
        Introduced w c (w.clients c).name username host server
          ((w.registerRemoteUser c username host server).clients c)) := by
  set b := w.beforeLookup c username host with hb
  have hbone : OnlyOne c w b :=
    ⟨fun d hd => by rw [hb, World.beforeLookup_clients, update_of_ne hd],
      fun _ _ hmem _ => hmem⟩
  have hbself : b.clients c = { w.clients c with
      host := strlcpy host (HOSTLEN + 1), username := strlcpy username (USERLEN + 1) } := by
    rw [hb, World.beforeLookup_clients, update_self]
  have hkill : ∀ u : World, (u.clients c).status = .unknown → (u.clients c).myConnect = false →
      OnlyOne c u (u.killClient c) ∧ ((u.killClient c).clients c).myConnect = false ∧
        ((u.killClient c).clients c).isDead = true := by
    intro u hu hm
    have hs : (u.clients c).isServer = false := by
      rw [Client.isServer, hu]
      rfl
    have hwithout := without_killClient hs
    obtain ⟨fl, hfl⟩ := hwithout.eq_flags c
    exact ⟨hwithout.onlyOne, by rw [hfl]; exact hm, isDead_killClient hs hm⟩
  unfold World.registerRemoteUser
  rw [← hb]
  dsimp only
  cases hfind : b.findServer server with
  | none =>
    obtain ⟨hone, hlocal, hdead⟩ := hkill b (by rw [hbself]; exact hx)
        (by rw [hbself]; exact hremote)
    exact ⟨hbone.trans hone, hlocal, .inl hdead⟩
  | some t =>
    have hset := onlyOne_onClient c b fun x => { x with servptr := t }
    have hself : (b.onClient c fun x => { x with servptr := t }).clients c =
        { b.clients c with servptr := t } := by
      simp [World.onClient]
    dsimp only
    split_ifs with hfrom
    · obtain ⟨hone, hlocal, hdead⟩ := hkill _
        (by rw [hself, hbself]; exact hx) (by rw [hself, hbself]; exact hremote)
      exact ⟨(hbone.trans hset).trans hone, hlocal, .inl hdead⟩
    · have hdone := onlyOne_onClient c (b.onClient c fun x => { x with servptr := t })
        fun x => { x with status := .client }
      have hfinal : (((b.onClient c fun x => { x with servptr := t }).onClient c
          fun x => { x with status := .client }).onServ t (Serv.addUser c)).clients c =
          { b.clients c with servptr := t, status := .client } := by
        simp [World.onClient, World.onServ]
      rw [hfinal, hbself]
      refine ⟨(hbone.trans hset).trans ⟨hdone.others, hdone.table⟩, hremote, .inr ?_⟩
      refine ⟨rfl, rfl, rfl, rfl, b, fun d hd => ?_, fun k d hmem hd => hmem, hfind⟩
      exact ⟨(w.clients d).flags, by rw [hbone.others d hd]⟩

theorem ServerFound.of_onlyOne {server : CStr} {t : Cid} (h : OnlyOne c w v)
    (hfound : ServerFound v c server t) : ServerFound w c server t := by
  obtain ⟨z, hclients, htable, hfind⟩ := hfound
  refine ⟨z, fun d hd => ?_, fun k d hmem hd => h.table k d (htable k d hmem hd) hd, hfind⟩
  rw [← h.others d hd]
  exact hclients d hd

/-- What an introduction leaves: the client `c` has come in and is registered, or it is
exited again. -/
structure Comes (c : Cid) (nick username host server : CStr) (w v : World) : Prop where
  one : OnlyOne c w v
  remote : (v.clients c).myConnect = false
  settled : (v.clients c).isDead = true ∨ Introduced w c nick username host server (v.clients c)

theorem comes_nickFromServer (hsource : (w.clients source).isServer = true)
    (hparc : 8 < parv.length) (link : Cid) (newts : Int) (nick : CStr) :
    Comes w.next nick (param parv 5) (param parv 6) (param parv 7) w
      (w.nickFromServer link source parv newts nick) := by
  unfold World.nickFromServer
  simp only [hsource, if_true, if_pos hparc]
  set ts := if newts ≠ 0 then newts else w.currentTime
  change Comes _ _ _ _ _ _ (World.rename ((((param parv 4).drop 1).foldl
    (World.introUmode true w.next) (w.named link ts nick)).registerRemoteUser w.next
      (param parv 5) (param parv 6) (param parv 7)) w.next nick)
  have hnamed : OnlyOne w.next w (w.named link ts nick) :=
    ((onlyOne_makeClient w link).trans (onlyOne_onClient w.next _ _)).trans
      (onlyOne_hashAddClient w.next _)
  have hmodes := sameButModes_introUmodes true w.next (w.named link ts nick) ((param parv 4).drop 1)
  set v := ((param parv 4).drop 1).foldl (World.introUmode true w.next) (w.named link ts nick)
  obtain ⟨modes, hself⟩ := hmodes.self
  rw [World.named_self] at hself
  have hv : OnlyOne w.next w v := hnamed.trans hmodes.onlyOne
  obtain ⟨hone, hremote, hsettled⟩ := registerRemoteUser_outcome (w := v) (c := w.next)
    (by rw [hself]; rfl) (by rw [hself]; rfl) (param parv 5) (param parv 6) (param parv 7)
  have hrename := rename_self w.next (v.registerRemoteUser w.next (param parv 5) (param parv 6)
    (param parv 7)) nick
  refine ⟨(hv.trans hone).trans (onlyOne_rename w.next _ nick), ?_, ?_⟩
  · rw [hrename]
    exact hremote
  · rw [hrename]
    rcases hsettled with hdead | hintro
    · exact .inl hdead
    · exact .inr ⟨hintro.status, rfl, hintro.username, hintro.host, hintro.server.of_onlyOne hv⟩

theorem comes_clientFromServer (w : World) (link source : Cid) (parv : List CStr) (newts : Int)
    (nick : CStr) :
    Comes w.next nick (param parv 5) (param parv 6) (w.clients source).name w
      (w.clientFromServer link source parv newts nick) := by
  unfold World.clientFromServer
  change Comes _ _ _ _ _ _ ((((param parv 4).drop 1).foldl (World.introUmode false w.next)
    (w.enrolled link parv newts nick)).registerRemoteUser w.next (param parv 5) (param parv 6)
      (w.clients source).name)
  have hroll : OnlyOne w.next w (w.enrolled link parv newts nick) := by
    unfold World.enrolled
    exact (((onlyOne_makeClient w link).trans (onlyOne_onClient w.next _ _)).trans
      (onlyOne_hashAddClient w.next _)).trans ⟨fun _ _ => rfl, fun _ _ hmem _ => hmem⟩
  have hmodes := sameButModes_introUmodes false w.next (w.enrolled link parv newts nick)
    ((param parv 4).drop 1)
  set v := ((param parv 4).drop 1).foldl (World.introUmode false w.next)
    (w.enrolled link parv newts nick)
  obtain ⟨modes, hself⟩ := hmodes.self
  rw [World.enrolled_self] at hself
  have hv : OnlyOne w.next w v := hroll.trans hmodes.onlyOne
  obtain ⟨hone, hremote, hsettled⟩ := registerRemoteUser_outcome (w := v) (c := w.next)
    (by rw [hself]; rfl) (by rw [hself]; rfl) (param parv 5) (param parv 6) (w.clients source).name
  rw [show (v.clients w.next).name = nick by rw [hself]] at hsettled
  refine ⟨hv.trans hone, hremote, hsettled.imp_right fun hintro => ?_⟩
  exact ⟨hintro.status, hintro.name, hintro.username, hintro.host, hintro.server.of_onlyOne hv⟩

theorem renames_nickFromServer (hsource : (w.clients source).isServer = false) (link : Cid)
    (parv : List CStr) (newts : Int) (nick : CStr) :
    OnlyOne source w (w.nickFromServer link source parv newts nick) ∧
      ∃ ts, (w.nickFromServer link source parv newts nick).clients source =
        { w.clients source with name := nick, tsinfo := ts } := by
  unfold World.nickFromServer
  simp only [hsource, Bool.false_eq_true, if_false]
  set ts := if newts ≠ 0 then newts else w.currentTime
  split_ifs
  · refine ⟨(onlyOne_onClient source w _).trans (onlyOne_rename source _ nick), ts, ?_⟩
    rw [rename_self]
    simp [World.onClient]
  · exact ⟨onlyOne_rename source w nick, (w.clients source).tsinfo, rename_self source w nick⟩

/-! ### What NICK and UID leave -/

/-- The server that an introduction names: NICK as a parameter, UID by its sender. -/
def introServer (w : World) (source : Cid) (parv : List CStr) : CStr :=
  if parv.length = 9 then param parv 7 else (w.clients source).name

/-- What a NICK or UID line of `source` can lead to: exits, and then perhaps a change of
the nick of a user, or a new client, under a valid nick. -/
inductive NickOutcome (cf : ServerConfig) (source : Cid) (parv : List CStr) (w v : World) : Prop
  | exits (h : OnlyExits w v)
  | changes (u : World) (h : OnlyExits w u) (hvalid : ValidNick cf (param parv 1))
      (huser : (w.clients source).isServer = false) (hone : OnlyOne source u v)
      (hself : ∃ ts, v.clients source =
        { u.clients source with name := param parv 1, tsinfo := ts })
  | comes (u : World) (h : OnlyExits w u) (hvalid : ValidNick cf (param parv 1))
      (hcomes : Comes u.next (param parv 1) (param parv 5) (param parv 6)
        (introServer w source parv) u v)

theorem OnlyExits.isServer (h : OnlyExits w v) (c : Cid) :
    (v.clients c).isServer = (w.clients c).isServer := by
  obtain ⟨fl, hv, -⟩ := h.record c
  rw [hv]
  rfl

theorem OnlyExits.name (h : OnlyExits w v) (c : Cid) :
    (v.clients c).name = (w.clients c).name := by
  obtain ⟨fl, hv, -⟩ := h.record c
  rw [hv]

theorem nickFromServer_outcome (h : OnlyExits w u) (hvalid : ValidNick cf (param parv 1))
    (hform : (w.clients source).isServer = true → parv.length = 9) (link : Cid) (newts : Int) :
    NickOutcome cf source parv w (u.nickFromServer link source parv newts (param parv 1)) := by
  cases hs : (w.clients source).isServer with
  | true =>
    have hnine := hform hs
    refine .comes u h hvalid ?_
    rw [introServer, if_pos hnine]
    exact comes_nickFromServer ((h.isServer source).trans hs) (by omega) link newts _
  | false =>
    obtain ⟨hone, hself⟩ := renames_nickFromServer ((h.isServer source).trans hs) link parv newts
      (param parv 1)
    exact .changes u h hvalid hs hone hself

theorem clientFromServer_outcome (h : OnlyExits w u) (hvalid : ValidNick cf (param parv 1))
    (hform : parv.length ≠ 9) (link : Cid) (newts : Int) :
    NickOutcome cf source parv w (u.clientFromServer link source parv newts (param parv 1)) := by
  refine .comes u h hvalid ?_
  rw [introServer, if_neg hform, ← h.name source]
  exact comes_clientFromServer u link source parv newts _

theorem performNickCollides_outcome (hvalid : ValidNick cf (param parv 1)) (client target : Cid)
    (newts : Int) :
    NickOutcome cf source parv w
      (w.performNickCollides source client target parv newts (param parv 1)) := by
  have hkill := onlyExits_killClient w target
  unfold World.performNickCollides
  cases hs : (w.clients source).isServer with
  | true =>
    simp only [hs, if_true]
    cases collision newts (w.clients target) (param parv 5) (param parv 6) with
    | killBoth => exact .exits hkill
    | keepTarget => exact .exits (.refl w)
    | keepNew =>
      dsimp only
      split_ifs with hnine hten
      · exact nickFromServer_outcome hkill hvalid (fun _ => hnine) client newts
      · exact clientFromServer_outcome hkill hvalid (by omega) client newts
      · exact .exits hkill
  | false =>
    simp only [hs, Bool.false_eq_true, if_false]
    cases collision newts (w.clients target) (w.clients source).username
        (w.clients source).host with
    | killBoth => exact .exits (hkill.trans (onlyExits_killClient _ source))
    | keepTarget => exact .exits (onlyExits_killClient w source)
    | keepNew =>
      exact nickFromServer_outcome hkill hvalid (fun h => by rw [hs] at h; cases h) client newts

theorem takeNick_outcome (hvalid : ValidNick cf (param parv 1))
    (hform : (w.clients source).isServer = true → parv.length = 9) (client : Cid) (newts : Int) :
    NickOutcome cf source parv w (w.takeNick client source parv newts (param parv 1)) := by
  have hnow := nickFromServer_outcome (u := w) (.refl w) hvalid hform client newts
  unfold World.takeNick
  cases w.findClient (param parv 1) with
  | none => exact hnow
  | some target =>
    dsimp only
    split_ifs
    · exact nickFromServer_outcome (onlyExits_exitClient w target) hvalid hform client newts
    · exact hnow
    · exact .exits (.refl w)
    · exact performNickCollides_outcome hvalid client target newts

theorem onlyExits_checkCleanNick (w : World) (client source : Cid) :
    OnlyExits w (if source ≠ client then w.killClient source else w) := by
  split_ifs
  · exact onlyExits_killClient w source
  · exact .refl w

theorem msNick_outcome (hform : KnownForm parv) (client : Cid) :
    NickOutcome cf source parv w (w.msNick cf client source parv) := by
  have hcheck := checkCleanNick_eq cf w client source parv
  unfold lineNick at hcheck
  unfold World.msNick
  simp only [hcheck]
  by_cases hempty : parv.length < 2 ∨ param parv 1 = []
  · rw [if_pos hempty]
    exact .exits (.refl w)
  rw [if_neg hempty]
  have hlen : parv.length = 9 ∨ parv.length = 3 := by
    rcases hform with h | h | h
    · exact .inr h
    · exact .inl h
    · exact absurd (.inr h) hempty
  rcases hlen with hnine | hthree
  · rw [if_pos hnine]
    split
    · exact .exits (.refl w)
    · by_cases hvalid : ValidNick cf (param parv 1)
      · simp only [if_pos hvalid, hvalid.2]
        split_ifs
        · exact .exits (.refl w)
        · exact .exits (.refl w)
        · exact takeNick_outcome hvalid (fun _ => hnine) client _
        · exact takeNick_outcome hvalid (fun _ => hnine) client _
      · simp only [if_neg hvalid]
        exact .exits (onlyExits_checkCleanNick w client source)
  · rw [if_neg (by omega), if_pos hthree]
    by_cases hserver : (w.clients source).isServer = true
    · rw [if_pos hserver]
      exact .exits (.refl w)
    · rw [if_neg hserver]
      by_cases hvalid : ValidNick cf (param parv 1)
      · simp only [if_pos hvalid, hvalid.2]
        exact takeNick_outcome hvalid (fun h => absurd h hserver) client _
      · simp only [if_neg hvalid]
        exact .exits (onlyExits_checkCleanNick w client source)

theorem msUid_outcome (hform : parv.length ≠ 9) (client : Cid) :
    NickOutcome cf source parv w (w.msUid cf client source parv) := by
  have hcheck := checkCleanNick_eq cf w client source parv
  unfold lineNick at hcheck
  unfold World.msUid
  simp only [hcheck]
  by_cases hempty : param parv 1 = []
  · rw [if_pos hempty]
    exact .exits (.refl w)
  rw [if_neg hempty]
  by_cases hvalid : ValidNick cf (param parv 1)
  · simp only [if_pos hvalid, hvalid.2]
    split_ifs
    · exact .exits (.refl w)
    · exact .exits (.refl w)
    · split
      · exact .exits (onlyExits_killClient w _)
      · split
        · exact clientFromServer_outcome (.refl w) hvalid hform client _
        · rename_i target _
          split_ifs
          · exact clientFromServer_outcome (onlyExits_exitClient w target) hvalid hform client _
          · exact performNickCollides_outcome hvalid client target _
  · simp only [if_neg hvalid]
    exact .exits (onlyExits_checkCleanNick w client source)

end Ircd
